import FlowTyping.Peg.Run
import FlowTyping.Proofs.Peg.Fuel
import FlowTyping.Proofs.Text.Spelling

/-!
# What an expression reads

Whether an expression matches at the front of a source, and what it takes, does not depend on where the
source stands nor on what was tried before. So it can be said of the bytes alone: an expression reads
some bytes off the front of the others, or it refuses the bytes that stand there. One lemma for each
form of expression says how it does so in terms of its parts.

The sources are made of characters: then nothing is refused on the way for a stray byte.

* `Peg.Reads`, `Peg.Refuses`
* **`Peg.Reads.seq`**, **`Peg.Reads.alt_left`**, **`Peg.Reads.alt_right`**, **`Peg.Reads.many_cons`**, … — the
  forms of expressions.
-/

namespace FlowTyping

open FlowTyping.Text

namespace Text

/-- The character that stands first. -/
def first? (bytes : Bytes) : Option Char := (next? bytes).map fun (s, _) => s.toChar

@[simp] theorem first?_nil : first? [] = none := rfl

@[simp] theorem first?_utf8 (c : Char) (rest : Bytes) :
    first? (String.utf8EncodeChar c ++ rest) = some c := by
  rw [first?, next?_utf8]
  rfl

theorem first?_spell_append {cs : List Char} {c : Char} (hc : cs.head? = some c) (rest : Bytes) :
    first? (spell cs ++ rest) = some c := by
  obtain ⟨ds, rfl⟩ := List.head?_eq_some_iff.1 hc
  rw [spell_cons, List.append_assoc, first?_utf8]

theorem first?_append {s : String} {c : Char} (hs : s.toList.head? = some c) (rest : Bytes) :
    first? ((ofString s).toList ++ rest) = some c := by
  rw [toList_ofString, first?_spell_append hs]

/-- Bytes of characters are none, or a character and the bytes of others. -/
theorem Spelled.cases {bytes : Bytes} (h : Spelled bytes) :
    bytes = [] ∨ ∃ c rest, bytes = String.utf8EncodeChar c ++ rest ∧ Spelled rest := by
  obtain ⟨cs, rfl⟩ := h
  cases cs with
  | nil => exact .inl rfl
  | cons c cs => exact .inr ⟨c, spell cs, rfl, cs, rfl⟩

end Text

namespace Peg

variable {Rule : Type} {Value : Rule → Type} {g : Grammar Value} {α β : Type}

/-! ## Traces -/

@[simp] theorem Trace.note_faults (tr : Trace) (ctx : Context) (matched : Bool) (place : Place)
    (shown : String) : (tr.note ctx matched place shown).faults = tr.faults := by
  unfold Trace.note
  split
  · rfl
  · simp only
    split <;> rfl

/-- Arriving at a character refuses nothing. -/
theorem arrive_faults {ctx : Context} {line column offset : Nat} {rest : Bytes} {tr : Trace}
    (h : Spelled rest) : (arrive ctx line column offset rest tr).2.faults = tr.faults := by
  unfold arrive
  rcases h.cases with rfl | ⟨c, tail, rfl, -⟩
  · rfl
  · rw [next?_utf8]
    split
    · rfl
    · rename_i heq
      simp at heq
    · rfl

/-! ## Reading and refusing -/

/-- From one place to another some bytes were taken, and nothing was refused. -/
structure Taken (cur : Cursor) (tr : Trace) (front rest : Bytes) (after : Cursor) (tr' : Trace) : Prop where
  stands : after.rest = rest
  offset : after.offset = cur.offset + front.length
  faults : tr'.faults = tr.faults
  spelled : Spelled rest

/-- An expression reads `front` off the bytes where `rest` follows, and yields a value of a kind. -/
def Reads (g : Grammar Value) (p : Peg Value α) (front rest : Bytes) (Q : α → Prop) : Prop :=
  ∃ enough, ∀ fuel, enough ≤ fuel → ∀ (ctx : Context) (cur : Cursor) (tr : Trace),
    cur.rest = front ++ rest → Spelled (front ++ rest) →
      ∃ a after tr', match? g fuel p ctx cur tr = (some (a, after), tr') ∧ Q a ∧
        Taken cur tr front rest after tr'

/-- An expression does not match at the front of the bytes. -/
def Refuses (g : Grammar Value) (p : Peg Value α) (bytes : Bytes) : Prop :=
  ∃ enough, ∀ fuel, enough ≤ fuel → ∀ (ctx : Context) (cur : Cursor) (tr : Trace),
    cur.rest = bytes → Spelled bytes →
      ∃ tr', match? g fuel p ctx cur tr = (none, tr') ∧ tr'.faults = tr.faults

theorem Taken.nil {cur : Cursor} {tr tr' : Trace} {rest : Bytes} (hcur : cur.rest = rest)
    (htr : tr'.faults = tr.faults) (hs : Spelled rest) : Taken cur tr [] rest cur tr' :=
  ⟨hcur, rfl, htr, hs⟩

theorem Taken.trans {cur mid after : Cursor} {tr tr' tr'' : Trace} {x y rest : Bytes}
    (h : Taken cur tr x (y ++ rest) mid tr') (h' : Taken mid tr' y rest after tr'') :
    Taken cur tr (x ++ y) rest after tr'' where
  stands := h'.stands
  offset := by rw [h'.offset, h.offset, List.length_append, Nat.add_assoc]
  faults := h'.faults.trans h.faults
  spelled := h'.spelled

theorem Taken.note {cur after : Cursor} {tr tr' : Trace} {front rest : Bytes}
    (h : Taken cur tr front rest after tr') (ctx : Context) (matched : Bool) (place : Place)
    (shown : String) : Taken cur tr front rest after (tr'.note ctx matched place shown) :=
  ⟨h.stands, h.offset, (Trace.note_faults ..).trans h.faults, h.spelled⟩

/-- Moving past a character takes its bytes. -/
theorem taken_advance (ctx : Context) {cur : Cursor} (tr : Trace) {c : Char} {rest : Bytes}
    (hcur : cur.rest = String.utf8EncodeChar c ++ rest) (hs : Spelled rest) :
    Taken cur tr (String.utf8EncodeChar c) rest (advance ctx cur (String.utf8EncodeChar c).length tr).1
      (advance ctx cur (String.utf8EncodeChar c).length tr).2 where
  stands := by rw [advance_rest, hcur, List.drop_left]
  offset := advance_offset ..
  faults := by
    unfold advance
    rw [hcur, List.drop_left]
    exact arrive_faults hs
  spelled := hs

theorem Reads.imp {p : Peg Value α} {front rest : Bytes} {P Q : α → Prop} (h : Reads g p front rest P)
    (himp : ∀ a, P a → Q a) : Reads g p front rest Q := by
  obtain ⟨n, hn⟩ := h
  refine ⟨n, fun fuel hfuel ctx cur tr hcur hs => ?_⟩
  obtain ⟨a, after, tr', hmatch, ha, htaken⟩ := hn fuel hfuel ctx cur tr hcur hs
  exact ⟨a, after, tr', hmatch, himp a ha, htaken⟩

/-- A claim about all sufficient amounts of fuel need only be shown one step further on. -/
theorem exists_enough {P : Nat → Prop} (n : Nat) (h : ∀ fuel, n ≤ fuel → P (fuel + 1)) :
    ∃ enough, ∀ fuel, enough ≤ fuel → P fuel := by
  refine ⟨n + 1, fun fuel hfuel => ?_⟩
  obtain ⟨k, rfl⟩ : ∃ k, fuel = k + 1 := ⟨fuel - 1, by omega⟩
  exact h k (by omega)

/-! ## Characters -/

theorem matchChars_of_spell (ctx : Context) {cs : List Char} {rest : Bytes} {cur : Cursor} (tr : Trace)
    (hcur : cur.rest = spell cs ++ rest) (hs : Spelled (spell cs ++ rest)) :
    ∃ after tr', matchChars ctx cs cur tr = (some after, tr') ∧ Taken cur tr (spell cs) rest after tr' := by
  induction cs generalizing cur tr with
  | nil => exact ⟨cur, tr, rfl, .nil hcur rfl hs⟩
  | cons c cs ih =>
    rw [spell_cons, List.append_assoc] at hcur hs
    have hfirst := taken_advance ctx tr hcur hs.of_cons
    obtain ⟨after, tr', hmatch, htaken⟩ := ih _ hfirst.stands hs.of_cons
    refine ⟨after, tr', ?_, hfirst.trans htaken⟩
    rw [matchChars, hcur, next?_utf8]
    simp only [Sym.toChar, if_true]
    exact hmatch

theorem matchChars_of_not_prefix (ctx : Context) {cs : List Char} {cur : Cursor} (tr : Trace)
    (hs : Spelled cur.rest) (h : ¬ spell cs <+: cur.rest) :
    ∃ tr', matchChars ctx cs cur tr = (none, tr') ∧ tr'.faults = tr.faults := by
  induction cs generalizing cur tr with
  | nil => exact absurd List.nil_prefix h
  | cons c cs ih =>
    rw [matchChars]
    rcases hs.cases with hnil | ⟨d, rest, hcur, hrest⟩
    · rw [hnil]
      exact ⟨tr, rfl, rfl⟩
    · rw [hcur, next?_utf8]
      show ∃ tr', (if d = c then matchChars ctx cs _ _ else (none, tr)) = _ ∧ _
      by_cases hdc : d = c
      · subst hdc
        rw [if_pos rfl]
        have hfirst := taken_advance ctx tr hcur hrest
        have hprefix : ¬ spell cs <+: (advance ctx cur (String.utf8EncodeChar d).length tr).1.rest := by
          intro hpre
          rw [hfirst.stands] at hpre
          apply h
          rw [hcur, spell_cons]
          exact (List.prefix_append_right_inj _).2 hpre
        obtain ⟨tr', hmatch, hfaults⟩ := ih (advance ctx cur _ tr).2 (hfirst.stands ▸ hrest) hprefix
        exact ⟨tr', hmatch, hfaults.trans hfirst.faults⟩
      · rw [if_neg hdc]
        exact ⟨tr, rfl, rfl⟩

/-- Characters are read off the front. -/
theorem Reads.lit (text : String) (rest : Bytes) :
    Reads g (.lit text) (ofString text).toList rest fun _ => True := by
  refine exists_enough 0 fun fuel _ ctx cur tr hcur hs => ?_
  rw [toList_ofString] at hcur hs ⊢
  obtain ⟨after, tr', hmatch, htaken⟩ := matchChars_of_spell ctx tr hcur hs
  refine ⟨(), after, _, ?_, trivial, htaken.note ctx true cur.toPlace (quoteText text)⟩
  rw [match?, hmatch]

theorem Refuses.lit {text : String} {bytes : Bytes} (h : ¬ (ofString text).toList <+: bytes) :
    Refuses g (.lit text) bytes := by
  refine exists_enough 0 fun fuel _ ctx cur tr hcur hs => ?_
  subst hcur
  rw [toList_ofString] at h
  obtain ⟨tr', hmatch, hfaults⟩ := matchChars_of_not_prefix ctx tr hs h
  refine ⟨_, ?_, (Trace.note_faults tr' ctx false cur.toPlace (quoteText text)).trans hfaults⟩
  rw [match?, hmatch]

/-- Characters are refused where another one stands first. -/
theorem Refuses.lit_of_first {text : String} (c : Char) {bytes : Bytes}
    (htext : text.toList.head? = some c) (h : first? bytes ≠ some c) : Refuses g (.lit text) bytes := by
  refine .lit fun hprefix => h ?_
  obtain ⟨tail, rfl⟩ := hprefix
  exact first?_append htext tail

/-- A character of a class is read off the front. -/
theorem Reads.cls (shown : String) {f : Char → Bool} {c : Char} (hc : f c = true) (rest : Bytes) :
    Reads g (.cls shown f) (String.utf8EncodeChar c) rest fun _ => True := by
  refine exists_enough 0 fun fuel _ ctx cur tr hcur hs => ?_
  have htaken := taken_advance ctx tr hcur hs.of_cons
  refine ⟨(), _, _, ?_, trivial, htaken.note ctx true cur.toPlace shown⟩
  rw [match?, hcur, next?_utf8]
  simp only [Sym.toChar, hc, if_true]

theorem Refuses.cls {shown : String} {test : Char → Bool} {bytes : Bytes}
    (h : ∀ c ∈ first? bytes, test c = false) : Refuses g (.cls shown test) bytes := by
  refine exists_enough 0 fun fuel _ ctx cur tr hcur hs => ?_
  subst hcur
  refine ⟨_, ?_, Trace.note_faults tr ctx false cur.toPlace shown⟩
  rcases hs.cases with hnil | ⟨c, rest, hcur, -⟩
  · rw [match?, hnil]
    rfl
  · have hc : test c = false := h c (by rw [hcur, first?_utf8]; rfl)
    rw [match?, hcur, next?_utf8]
    simp only [Sym.toChar, hc, Bool.false_eq_true, if_false]

theorem Reads.any (c : Char) (rest : Bytes) :
    Reads g .any (String.utf8EncodeChar c) rest fun _ => True := by
  refine exists_enough 0 fun fuel _ ctx cur tr hcur hs => ?_
  have htaken := taken_advance ctx tr hcur hs.of_cons
  refine ⟨(), _, _, ?_, trivial, htaken.note ctx true cur.toPlace "."⟩
  rw [match?, hcur, next?_utf8]

theorem Refuses.any : Refuses g .any [] := by
  refine exists_enough 0 fun fuel _ ctx cur tr hcur _ => ?_
  refine ⟨_, ?_, Trace.note_faults tr ctx false cur.toPlace "."⟩
  rw [match?, hcur]
  rfl

/-! ## Rules and values -/

theorem Reads.rule {r : Rule} {front rest : Bytes} {Q : Value r → Prop}
    (h : Reads g (g.body r) front rest Q) : Reads g (.rule r) front rest Q := by
  obtain ⟨n, hn⟩ := h
  refine exists_enough n fun fuel hfuel ctx cur tr hcur hs => ?_
  rw [match?]
  exact hn fuel hfuel _ cur tr hcur hs

theorem Refuses.rule {r : Rule} {bytes : Bytes} (h : Refuses g (g.body r) bytes) :
    Refuses g (.rule r) bytes := by
  obtain ⟨n, hn⟩ := h
  refine exists_enough n fun fuel hfuel ctx cur tr hcur hs => ?_
  rw [match?]
  exact hn fuel hfuel _ cur tr hcur hs

/-- A value is made of what was read; its making refuses nothing. -/
theorem Reads.act {p : Peg Value α} {f : Span → α → β × Option Cause} {front rest : Bytes} {P : α → Prop}
    {Q : β → Prop} (h : Reads g p front rest P)
    (hf : ∀ offset a, P a → (f ⟨offset, front⟩ a).2 = none ∧ Q (f ⟨offset, front⟩ a).1) :
    Reads g (.act p f) front rest Q := by
  obtain ⟨n, hn⟩ := h
  refine exists_enough n fun fuel hfuel ctx cur tr hcur hs => ?_
  obtain ⟨a, after, tr', hmatch, ha, htaken⟩ := hn fuel hfuel ctx cur tr hcur hs
  have hspan : cur.rest.take (after.offset - cur.offset) = front := by
    rw [htaken.offset, Nat.add_sub_cancel_left, hcur, List.take_left]
  obtain ⟨hnone, hQ⟩ := hf cur.offset a ha
  refine ⟨(f ⟨cur.offset, front⟩ a).1, after, tr', ?_, hQ, htaken⟩
  rw [match?, hmatch]
  simp only [hspan]
  generalize f ⟨cur.offset, front⟩ a = made at hnone
  obtain ⟨b, cause⟩ := made
  cases hnone
  rfl

theorem Refuses.act {p : Peg Value α} {f : Span → α → β × Option Cause} {bytes : Bytes}
    (h : Refuses g p bytes) : Refuses g (.act p f) bytes := by
  obtain ⟨n, hn⟩ := h
  refine exists_enough n fun fuel hfuel ctx cur tr hcur hs => ?_
  obtain ⟨tr', hmatch, hfaults⟩ := hn fuel hfuel ctx cur tr hcur hs
  exact ⟨tr', by rw [match?, hmatch], hfaults⟩

theorem Reads.map {p : Peg Value α} {f : α → β} {front rest : Bytes} {P : α → Prop} {Q : β → Prop}
    (h : Reads g p front rest P) (hf : ∀ a, P a → Q (f a)) : Reads g (f <$> p) front rest Q :=
  Reads.act h fun _ a ha => ⟨rfl, hf a ha⟩

theorem Refuses.map {p : Peg Value α} {f : α → β} {bytes : Bytes} (h : Refuses g p bytes) :
    Refuses g (f <$> p) bytes :=
  Refuses.act h

theorem Reads.text {p : Peg Value α} {front rest : Bytes} {P : α → Prop} (h : Reads g p front rest P) :
    Reads g (Peg.text p) front rest (· = shown front) :=
  Reads.act h fun _ _ _ => ⟨rfl, rfl⟩

theorem Refuses.text {p : Peg Value α} {bytes : Bytes} (h : Refuses g p bytes) :
    Refuses g (Peg.text p) bytes :=
  Refuses.act h

/-! ## Sequences -/

theorem Reads.seq {p : Peg Value α} {q : Peg Value β} {x y rest : Bytes} {P : α → Prop} {Q : β → Prop}
    (hp : Reads g p x (y ++ rest) P) (hq : Reads g q y rest Q) :
    Reads g (.seq p q) (x ++ y) rest fun ab => P ab.1 ∧ Q ab.2 := by
  obtain ⟨n, hn⟩ := hp
  obtain ⟨k, hk⟩ := hq
  refine exists_enough (max n k) fun fuel hfuel ctx cur tr hcur hs => ?_
  rw [List.append_assoc] at hcur hs
  obtain ⟨a, mid, tr', hmatch, ha, htaken⟩ := hn fuel (by omega) ctx cur tr hcur hs
  obtain ⟨b, after, tr'', hmatch', hb, htaken'⟩ := hk fuel (by omega) ctx mid tr' htaken.stands htaken.spelled
  exact ⟨(a, b), after, tr'', by rw [match?, hmatch]; simp only [hmatch'], ⟨ha, hb⟩, htaken.trans htaken'⟩

theorem Refuses.seq_left {p : Peg Value α} {q : Peg Value β} {bytes : Bytes} (hp : Refuses g p bytes) :
    Refuses g (.seq p q) bytes := by
  obtain ⟨n, hn⟩ := hp
  refine exists_enough n fun fuel hfuel ctx cur tr hcur hs => ?_
  obtain ⟨tr', hmatch, hfaults⟩ := hn fuel hfuel ctx cur tr hcur hs
  exact ⟨tr', by rw [match?, hmatch], hfaults⟩

theorem Refuses.seq_right {p : Peg Value α} {q : Peg Value β} {x rest : Bytes} {P : α → Prop}
    (hp : Reads g p x rest P) (hq : Refuses g q rest) : Refuses g (.seq p q) (x ++ rest) := by
  obtain ⟨n, hn⟩ := hp
  obtain ⟨k, hk⟩ := hq
  refine exists_enough (max n k) fun fuel hfuel ctx cur tr hcur hs => ?_
  obtain ⟨a, mid, tr', hmatch, -, htaken⟩ := hn fuel (by omega) ctx cur tr hcur hs
  obtain ⟨tr'', hmatch', hfaults⟩ := hk fuel (by omega) ctx mid tr' htaken.stands htaken.spelled
  exact ⟨tr'', by rw [match?, hmatch]; simp only [hmatch'], hfaults.trans htaken.faults⟩

/-- What is read before may be nothing. -/
theorem Refuses.seq_skip {p : Peg Value α} {q : Peg Value β} {bytes : Bytes} {P : α → Prop}
    (hp : Reads g p [] bytes P) (hq : Refuses g q bytes) : Refuses g (.seq p q) bytes :=
  .seq_right hp hq

theorem Reads.seqLeft {p : Peg Value α} {q : Peg Value β} {x y rest : Bytes} {P : α → Prop} {Q : β → Prop}
    (hp : Reads g p x (y ++ rest) P) (hq : Reads g q y rest Q) : Reads g (p <* q) (x ++ y) rest P :=
  Reads.map (hp.seq hq) fun _ h => h.1

theorem Reads.seqRight {p : Peg Value α} {q : Peg Value β} {x y rest : Bytes} {P : α → Prop} {Q : β → Prop}
    (hp : Reads g p x (y ++ rest) P) (hq : Reads g q y rest Q) : Reads g (p *> q) (x ++ y) rest Q :=
  Reads.map (hp.seq hq) fun _ h => h.2

theorem Refuses.seqLeft_left {p : Peg Value α} {q : Peg Value β} {bytes : Bytes} (hp : Refuses g p bytes) :
    Refuses g (p <* q) bytes :=
  Refuses.map hp.seq_left

theorem Refuses.seqLeft_right {p : Peg Value α} {q : Peg Value β} {x rest : Bytes} {P : α → Prop}
    (hp : Reads g p x rest P) (hq : Refuses g q rest) : Refuses g (p <* q) (x ++ rest) :=
  Refuses.map (.seq_right hp hq)

theorem Refuses.seqRight_left {p : Peg Value α} {q : Peg Value β} {bytes : Bytes} (hp : Refuses g p bytes) :
    Refuses g (p *> q) bytes :=
  Refuses.map hp.seq_left

theorem Refuses.seqRight_right {p : Peg Value α} {q : Peg Value β} {x rest : Bytes} {P : α → Prop}
    (hp : Reads g p x rest P) (hq : Refuses g q rest) : Refuses g (p *> q) (x ++ rest) :=
  Refuses.map (.seq_right hp hq)

/-! ## Choices -/

theorem Reads.alt_left {p q : Peg Value α} {front rest : Bytes} {P : α → Prop}
    (hp : Reads g p front rest P) : Reads g (p <|> q) front rest P := by
  obtain ⟨n, hn⟩ := hp
  refine exists_enough n fun fuel hfuel ctx cur tr hcur hs => ?_
  obtain ⟨a, after, tr', hmatch, ha, htaken⟩ := hn fuel hfuel ctx cur tr hcur hs
  refine ⟨a, after, tr', ?_, ha, htaken⟩
  show match? g (fuel + 1) (.alt p q) ctx cur tr = _
  rw [match?, hmatch]

theorem Reads.alt_right {p q : Peg Value α} {front rest : Bytes} {P : α → Prop}
    (hp : Refuses g p (front ++ rest)) (hq : Reads g q front rest P) :
    Reads g (p <|> q) front rest P := by
  obtain ⟨n, hn⟩ := hp
  obtain ⟨k, hk⟩ := hq
  refine exists_enough (max n k) fun fuel hfuel ctx cur tr hcur hs => ?_
  obtain ⟨tr', hmatch, hfaults⟩ := hn fuel (by omega) ctx cur tr hcur hs
  obtain ⟨a, after, tr'', hmatch', ha, htaken⟩ := hk fuel (by omega) ctx cur tr' hcur hs
  refine ⟨a, after, tr'', ?_, ha, htaken.stands, htaken.offset, htaken.faults.trans hfaults, htaken.spelled⟩
  show match? g (fuel + 1) (.alt p q) ctx cur tr = _
  rw [match?, hmatch]
  exact hmatch'

theorem Refuses.alt {p q : Peg Value α} {bytes : Bytes} (hp : Refuses g p bytes)
    (hq : Refuses g q bytes) : Refuses g (p <|> q) bytes := by
  obtain ⟨n, hn⟩ := hp
  obtain ⟨k, hk⟩ := hq
  refine exists_enough (max n k) fun fuel hfuel ctx cur tr hcur hs => ?_
  obtain ⟨tr', hmatch, hfaults⟩ := hn fuel (by omega) ctx cur tr hcur hs
  obtain ⟨tr'', hmatch', hfaults'⟩ := hk fuel (by omega) ctx cur tr' hcur hs
  refine ⟨tr'', ?_, hfaults'.trans hfaults⟩
  show match? g (fuel + 1) (.alt p q) ctx cur tr = _
  rw [match?, hmatch]
  exact hmatch'

theorem Reads.opt_some {p : Peg Value α} {front rest : Bytes} {P : α → Prop}
    (hp : Reads g p front rest P) : Reads g (.opt p) front rest fun o => ∃ a, o = some a ∧ P a := by
  obtain ⟨n, hn⟩ := hp
  refine exists_enough n fun fuel hfuel ctx cur tr hcur hs => ?_
  obtain ⟨a, after, tr', hmatch, ha, htaken⟩ := hn fuel hfuel ctx cur tr hcur hs
  exact ⟨some a, after, tr', by rw [match?, hmatch], ⟨a, rfl, ha⟩, htaken⟩

theorem Reads.opt_none {p : Peg Value α} {rest : Bytes} (hp : Refuses g p rest) :
    Reads g (.opt p) [] rest (· = none) := by
  obtain ⟨n, hn⟩ := hp
  refine exists_enough n fun fuel hfuel ctx cur tr hcur hs => ?_
  obtain ⟨tr', hmatch, hfaults⟩ := hn fuel hfuel ctx cur tr hcur hs
  exact ⟨none, cur, tr', by rw [match?, hmatch], rfl, .nil hcur hfaults hs⟩

theorem Reads.not {p : Peg Value α} {rest : Bytes} (hp : Refuses g p rest) :
    Reads g (.not p) [] rest fun _ => True := by
  obtain ⟨n, hn⟩ := hp
  refine exists_enough n fun fuel hfuel ctx cur tr hcur hs => ?_
  obtain ⟨tr', hmatch, hfaults⟩ := hn fuel hfuel _ cur tr hcur hs
  exact ⟨(), cur, tr', by rw [match?, hmatch], trivial, .nil hcur hfaults hs⟩

/-! ## Repetitions -/

theorem Reads.many_nil {p : Peg Value α} {rest : Bytes} (hp : Refuses g p rest) :
    Reads g (.many p) [] rest (· = []) := by
  obtain ⟨n, hn⟩ := hp
  refine exists_enough n fun fuel hfuel ctx cur tr hcur hs => ?_
  obtain ⟨tr', hmatch, hfaults⟩ := hn fuel hfuel ctx cur tr hcur hs
  exact ⟨[], cur, tr', by rw [match?, hmatch], rfl, .nil hcur hfaults hs⟩

theorem Reads.many_cons {p : Peg Value α} {x y rest : Bytes} {P : α → Prop} {Q : List α → Prop}
    (hp : Reads g p x (y ++ rest) P) (hq : Reads g (.many p) y rest Q) :
    Reads g (.many p) (x ++ y) rest fun as => ∃ a tail, as = a :: tail ∧ P a ∧ Q tail := by
  obtain ⟨n, hn⟩ := hp
  obtain ⟨k, hk⟩ := hq
  refine exists_enough (max n k) fun fuel hfuel ctx cur tr hcur hs => ?_
  rw [List.append_assoc] at hcur hs
  obtain ⟨a, mid, tr', hmatch, ha, htaken⟩ := hn fuel (by omega) ctx cur tr hcur hs
  obtain ⟨tail, after, tr'', hmatch', htail, htaken'⟩ :=
    hk fuel (by omega) ctx mid tr' htaken.stands htaken.spelled
  exact ⟨a :: tail, after, tr'', by rw [match?, hmatch]; simp only [hmatch'], ⟨a, tail, rfl, ha, htail⟩,
    htaken.trans htaken'⟩

theorem Reads.many1 {p : Peg Value α} {x y rest : Bytes} {P : α → Prop} {Q : List α → Prop}
    (hp : Reads g p x (y ++ rest) P) (hq : Reads g (.many p) y rest Q) :
    Reads g (.many1 p) (x ++ y) rest fun as => ∃ a tail, as = a :: tail ∧ P a ∧ Q tail := by
  obtain ⟨n, hn⟩ := hp
  obtain ⟨k, hk⟩ := hq
  refine exists_enough (max n k) fun fuel hfuel ctx cur tr hcur hs => ?_
  rw [List.append_assoc] at hcur hs
  obtain ⟨a, mid, tr', hmatch, ha, htaken⟩ := hn fuel (by omega) ctx cur tr hcur hs
  obtain ⟨tail, after, tr'', hmatch', htail, htaken'⟩ :=
    hk fuel (by omega) ctx mid tr' htaken.stands htaken.spelled
  exact ⟨a :: tail, after, tr'', by rw [match?, hmatch]; simp only [hmatch'], ⟨a, tail, rfl, ha, htail⟩,
    htaken.trans htaken'⟩

theorem Refuses.many1 {p : Peg Value α} {bytes : Bytes} (hp : Refuses g p bytes) :
    Refuses g (.many1 p) bytes := by
  obtain ⟨n, hn⟩ := hp
  refine exists_enough n fun fuel hfuel ctx cur tr hcur hs => ?_
  obtain ⟨tr', hmatch, hfaults⟩ := hn fuel hfuel ctx cur tr hcur hs
  exact ⟨tr', by rw [match?, hmatch], hfaults⟩

/-! ## Whole sources -/

/-- A source that a rule reads, wherever it stands, is parsed, if as many steps are granted as it takes. -/
theorem Reads.parse {r : Rule} {source rest : Bytes} {Q : Value r → Prop}
    (h : Reads g (.rule r) source rest Q) (hs : Spelled (source ++ rest))
    (hsteps : ∀ (cur : Cursor) (tr : Trace) (more : Nat), cur.rest = source ++ rest →
      stepBound (source ++ rest) ≤ more →
        match? g more (.rule r) {} cur tr = match? g (stepBound (source ++ rest)) (.rule r) {} cur tr) :
    ∃ a, Peg.parse g r (source ++ rest) = .ok a ∧ Q a := by
  obtain ⟨n, hn⟩ := h
  have hrest := arrive_rest {} 1 0 0 (source ++ rest) {}
  have hfaults : (arrive {} 1 0 0 (source ++ rest) {}).2.faults = [] := arrive_faults hs
  obtain ⟨a, after, tr', hmatch, ha, htaken⟩ :=
    hn (max n (stepBound (source ++ rest))) (Nat.le_max_left _ _) {}
      (arrive {} 1 0 0 (source ++ rest) {}).1 (arrive {} 1 0 0 (source ++ rest) {}).2 hrest hs
  rw [hsteps _ _ _ hrest (Nat.le_max_right _ _)] at hmatch
  refine ⟨a, ?_, ha⟩
  unfold Peg.parse
  simp only [hmatch]
  rw [if_pos (by rw [htaken.faults, hfaults]; rfl)]

end Peg
end FlowTyping
