import FlowTyping.Proofs.Peg.Fuel

/-!
# Matching stays inside the source

A cursor moves by the symbols that it passes, so it never leaves the source, and neither does anything
that is noted on the way: the farthest failure and the refusals are at places where the cursor was. So
what a match yields can be followed through an expression together with where it was made.

* `Peg.Cursor.In`, `Peg.Trace.In` — a cursor and a trace that belong to a source.
* **`Peg.match?_in`** — the invariant, step by step.
* **`Peg.refusals_in`** — the refusals of a source are places in it.
* **`Peg.Gives`** — every match of an expression yields such a value, with one lemma for each form of
  expression. A match is granted the steps that it needs, so no repetition ends too early.
-/

namespace FlowTyping

open FlowTyping.Text

namespace Text

/-- A symbol takes no more bytes than there are. -/
theorem next?_le {bytes : Bytes} {s : Sym} {width : Nat} (h : next? bytes = some (s, width)) :
    width ≤ bytes.length := by
  cases bytes with
  | nil => simp [next?] at h
  | cons a rest =>
    simp only [next?] at h
    repeat' split at h
    all_goals
      obtain ⟨-, rfl⟩ := Prod.mk.inj (Option.some.inj h)
      simp

end Text

namespace Peg

variable {source : Bytes}

/-- A cursor stands in a source. -/
structure Cursor.In (source : Bytes) (cur : Cursor) : Prop where
  offset_le : cur.offset ≤ source.length
  rest : cur.rest = source.drop cur.offset

/-- What is kept of an attempt is about places in a source. -/
structure Trace.In (source : Bytes) (tr : Trace) : Prop where
  farthest : tr.farthest.offset ≤ source.length
  faults : ∀ f ∈ tr.faults, f.place.offset ≤ source.length

/-- Both hold of the outcome of a match. -/
structure Inside (source : Bytes) {α : Type} (out : Option (α × Cursor) × Trace) : Prop where
  trace : out.2.In source
  cursor : ∀ (a : α) (after : Cursor), out.1 = some (a, after) → after.In source

section Steps

variable {tr : Trace} {cur : Cursor}

theorem Trace.In.note (ht : tr.In source) {place : Place} (hp : place.offset ≤ source.length) (ctx : Context)
    (matched : Bool) (shown : String) : (tr.note ctx matched place shown).In source := by
  unfold Trace.note
  split
  · exact ht
  · dsimp only
    split
    · exact ⟨hp, ht.faults⟩
    · exact ⟨ht.farthest, ht.faults⟩

theorem Trace.In.refuse (ht : tr.In source) {place : Place} (hp : place.offset ≤ source.length)
    (ctx : Context) (cause : Cause) : (tr.refuse ctx place cause).In source := by
  refine ⟨ht.farthest, fun f hf => ?_⟩
  rcases List.mem_cons.1 hf with rfl | hf
  · exact hp
  · exact ht.faults f hf

theorem arrive_in (ctx : Context) (line column : Nat) {offset : Nat} (hle : offset ≤ source.length)
    (ht : tr.In source) :
    (arrive ctx line column offset (source.drop offset) tr).1.In source ∧
      (arrive ctx line column offset (source.drop offset) tr).2.In source := by
  refine ⟨⟨by rwa [arrive_offset], by rw [arrive_rest, arrive_offset]⟩, ?_⟩
  unfold arrive
  split
  · exact ht
  · exact ht.refuse hle ctx .encoding
  · exact ht

/-- Passing a symbol stays in the source. -/
theorem advance_in (ctx : Context) {s : Sym} {width : Nat} (hc : cur.In source) (ht : tr.In source)
    (hnext : next? cur.rest = some (s, width)) :
    (advance ctx cur width tr).1.In source ∧ (advance ctx cur width tr).2.In source := by
  have hle := next?_le hnext
  rw [hc.rest, List.length_drop] at hle
  have hoffset := hc.offset_le
  rw [advance, hc.rest, List.drop_drop]
  exact arrive_in ctx cur.line cur.column (by omega) ht

theorem matchChars_in (ctx : Context) {cs : List Char} (hc : cur.In source) (ht : tr.In source) :
    (matchChars ctx cs cur tr).2.In source ∧ ∀ after ∈ (matchChars ctx cs cur tr).1, after.In source := by
  induction cs generalizing cur tr with
  | nil =>
    refine ⟨ht, fun after ha => ?_⟩
    obtain rfl := Option.some.inj ha
    exact hc
  | cons c cs ih =>
    rw [matchChars]
    split
    · rename_i s width hnext
      split
      · obtain ⟨hc', ht'⟩ := advance_in ctx hc ht hnext
        exact ih hc' ht'
      · exact ⟨ht, by simp⟩
    · exact ⟨ht, by simp⟩

end Steps

variable {Rule : Type} {Value : Rule → Type} {g : Grammar Value}

theorem Inside.none {α : Type} {tr : Trace} (ht : tr.In source) :
    Inside source ((none, tr) : Option (α × Cursor) × Trace) :=
  ⟨ht, by simp⟩

theorem Inside.some {α : Type} {a : α} {cur : Cursor} {tr : Trace} (hc : cur.In source) (ht : tr.In source) :
    Inside source (some (a, cur), tr) := by
  refine ⟨ht, fun b after h => ?_⟩
  obtain ⟨-, rfl⟩ := Prod.mk.inj (Option.some.inj h)
  exact hc

theorem match?_in {fuel : Nat} {α : Type} {p : Peg Value α} {ctx : Context} {cur : Cursor} {tr : Trace}
    (hc : cur.In source) (ht : tr.In source) : Inside source (match? g fuel p ctx cur tr) := by
  induction fuel generalizing α ctx cur tr with
  | zero => exact .none ht
  | succ n ih =>
    cases p with
    | lit text =>
      have hchars : (matchChars ctx text.toList cur tr).2.In source ∧
          ∀ after ∈ (matchChars ctx text.toList cur tr).1, after.In source := matchChars_in ctx hc ht
      rw [match?]
      rcases hm : matchChars ctx text.toList cur tr with ⟨_ | after, tr'⟩ <;> rw [hm] at hchars
      · exact .none (hchars.1.note hc.offset_le ..)
      · exact .some (hchars.2 after rfl) (hchars.1.note hc.offset_le ..)
    | cls shown test =>
      rw [match?]
      split
      · rename_i hnext
        split
        · obtain ⟨hc', ht'⟩ := advance_in ctx hc ht hnext
          exact .some hc' (ht'.note hc.offset_le ..)
        · exact .none (ht.note hc.offset_le ..)
      · exact .none (ht.note hc.offset_le ..)
    | any =>
      rw [match?]
      split
      · rename_i hnext
        obtain ⟨hc', ht'⟩ := advance_in ctx hc ht hnext
        exact .some hc' (ht'.note hc.offset_le ..)
      · exact .none (ht.note hc.offset_le ..)
    | rule r =>
      rw [match?]
      exact ih hc ht
    | seq p q =>
      -- each part starts where the one before it ended, with the trace that it left
      have hp : Inside source (match? g n p ctx cur tr) := ih hc ht
      rw [match?]
      rcases hm : match? g n p ctx cur tr with ⟨_ | ⟨a, mid⟩, tr'⟩ <;> rw [hm] at hp
      · exact .none hp.trace
      · have hq : Inside source (match? g n q ctx mid tr') := ih (hp.cursor a mid rfl) hp.trace
        dsimp only
        rcases hm' : match? g n q ctx mid tr' with ⟨_ | ⟨b, after⟩, tr''⟩ <;> rw [hm'] at hq
        · exact .none hq.trace
        · exact .some (hq.cursor b after rfl) hq.trace
    | alt p q =>
      have hp : Inside source (match? g n p ctx cur tr) := ih hc ht
      rw [match?]
      rcases hm : match? g n p ctx cur tr with ⟨_ | ⟨a, after⟩, tr'⟩ <;> rw [hm] at hp
      · exact ih hc hp.trace
      · exact hp
    | many p =>
      have hp : Inside source (match? g n p ctx cur tr) := ih hc ht
      rw [match?]
      rcases hm : match? g n p ctx cur tr with ⟨_ | ⟨a, mid⟩, tr'⟩ <;> rw [hm] at hp
      · exact .some hc hp.trace
      · have hmid := hp.cursor a mid rfl
        have hq : Inside source (match? g n (.many p) ctx mid tr') := ih hmid hp.trace
        dsimp only
        rcases hm' : match? g n (.many p) ctx mid tr' with ⟨_ | ⟨as, after⟩, tr''⟩ <;> rw [hm'] at hq
        · exact .some hmid hq.trace
        · exact .some (hq.cursor as after rfl) hq.trace
    | many1 p =>
      have hp : Inside source (match? g n p ctx cur tr) := ih hc ht
      rw [match?]
      rcases hm : match? g n p ctx cur tr with ⟨_ | ⟨a, mid⟩, tr'⟩ <;> rw [hm] at hp
      · exact .none hp.trace
      · have hmid := hp.cursor a mid rfl
        have hq : Inside source (match? g n (.many p) ctx mid tr') := ih hmid hp.trace
        dsimp only
        rcases hm' : match? g n (.many p) ctx mid tr' with ⟨_ | ⟨as, after⟩, tr''⟩ <;> rw [hm'] at hq
        · exact .some hmid hq.trace
        · exact .some (hq.cursor as after rfl) hq.trace
    | opt p =>
      have hp : Inside source (match? g n p ctx cur tr) := ih hc ht
      rw [match?]
      rcases hm : match? g n p ctx cur tr with ⟨_ | ⟨a, after⟩, tr'⟩ <;> rw [hm] at hp
      · exact .some hc hp.trace
      · exact .some (hp.cursor a after rfl) hp.trace
    | not p =>
      -- whatever was matched, nothing is consumed
      have hp : Inside source (match? g n p { ctx with inverted := !ctx.inverted } cur tr) := ih hc ht
      rw [match?]
      rcases hm : match? g n p { ctx with inverted := !ctx.inverted } cur tr with ⟨_ | found, tr'⟩ <;> rw [hm] at hp
      · exact .some hc hp.trace
      · exact .none hp.trace
    | act p f =>
      have hp : Inside source (match? g n p ctx cur tr) := ih hc ht
      rw [match?]
      rcases hm : match? g n p ctx cur tr with ⟨_ | ⟨a, after⟩, tr'⟩ <;> rw [hm] at hp
      · exact .none hp.trace
      · dsimp only
        split
        · exact .some (hp.cursor a after rfl) hp.trace
        · exact .some (hp.cursor a after rfl) (hp.trace.refuse hc.offset_le ..)

/-- A match in a source that is granted the steps that it needs. -/
structure Granted (g : Grammar Value) (k : Ranks Rule) (source : Bytes) {α : Type} (p : Peg Value α)
    (fuel : Nat) (cur : Cursor) (tr : Trace) : Prop where
  ranked : g.Ranked k
  productive : p.productive k = true
  steps : p.steps k + 1024 * cur.rest.length ≤ fuel
  cursor : cur.In source
  trace : tr.In source

/-- Every match within some steps yields such a value, which may depend on where it starts. -/
def Gives (g : Grammar Value) (k : Ranks Rule) (source : Bytes) (n : Nat) {α : Type} (p : Peg Value α)
    (Q : Nat → α → Prop) : Prop :=
  ∀ fuel ≤ n, ∀ (ctx : Context) (cur : Cursor) (tr : Trace) (a : α) (after : Cursor) (tr' : Trace),
    Granted g k source p fuel cur tr → match? g fuel p ctx cur tr = (some (a, after), tr') →
      Q cur.offset a

namespace Granted

variable {k : Ranks Rule} {α β : Type} {p : Peg Value α} {q : Peg Value β} {fuel : Nat} {ctx : Context}
  {cur mid after : Cursor} {tr tr' : Trace} {a : α}

theorem fuel_pos (hm : Granted g k source p fuel cur tr) : 0 < fuel := by
  have hpos := steps_pos (k := k) p
  have hsteps := hm.steps
  omega

/-- A part of an expression is granted what it needs. -/
theorem part (hm : Granted g k source p (fuel + 1) cur tr) (hq : q.productive k = true)
    (hsteps : q.steps k + 1 ≤ p.steps k) : Granted g k source q fuel cur tr := by
  have hfuel := hm.steps
  exact ⟨hm.ranked, hq, by omega, hm.cursor, hm.trace⟩

/-- So is what follows a match. -/
theorem next (hm : Granted g k source p fuel cur tr) (hq : q.productive k = true)
    (hmatch : match? g fuel p ctx cur tr = (some (a, mid), tr'))
    (hsteps : (if p.takes k then q.steps k - 1024 else q.steps k) + 1024 * cur.rest.length ≤ fuel) :
    Granted g k source q fuel mid tr' := by
  have hin : Inside source (some (a, mid), tr') := hmatch ▸ match?_in hm.cursor hm.trace
  obtain ⟨hle, hlt⟩ := match?_shorter hm.ranked hmatch
  refine ⟨hm.ranked, hq, ?_, hin.cursor a mid rfl, hin.trace⟩
  split at hsteps
  · rename_i htakes
    have := hlt htakes
    omega
  · omega

/-! How an expression matched, in terms of its parts. -/

theorem rule {r : Rule} (hm : Granted g k source (.rule r) fuel cur tr) :
    ∃ m, fuel = m + 1 ∧ Granted g k source (g.body r) m cur tr := by
  obtain ⟨m, rfl⟩ := Nat.exists_eq_add_of_lt hm.fuel_pos
  rw [Nat.zero_add] at hm ⊢
  refine ⟨m, rfl, hm.part (hm.ranked.productive r) ?_⟩
  simpa only [Peg.steps, Nat.add_le_add_iff_right] using hm.ranked.steps r

theorem seq {ab : α × β} (hm : Granted g k source (.seq p q) fuel cur tr)
    (h : match? g fuel (.seq p q) ctx cur tr = (some (ab, after), tr')) :
    ∃ m mid tr₁, fuel = m + 1 ∧ Granted g k source p m cur tr ∧
      match? g m p ctx cur tr = (some (ab.1, mid), tr₁) ∧ Granted g k source q m mid tr₁ ∧
        match? g m q ctx mid tr₁ = (some (ab.2, after), tr') := by
  obtain ⟨hpp, hqp⟩ := Bool.and_eq_true_iff.1 hm.productive
  cases fuel with
  | zero => simp [match?] at h
  | succ m =>
    have hsteps := hm.steps
    simp only [Peg.steps] at hsteps
    have hleft : Granted g k source p m cur tr := hm.part hpp (by simp only [Peg.steps]; omega)
    simp only [match?] at h
    split at h
    · rename_i a mid tr₁ hfirst
      split at h
      · rename_i b last tr₂ hsecond
        cases h
        exact ⟨m, mid, tr₁, rfl, hleft, hfirst, hleft.next hqp hfirst (by omega), hsecond⟩
      · cases h
    · cases h

theorem alt {q : Peg Value α} (hm : Granted g k source (.alt p q) fuel cur tr)
    (h : match? g fuel (.alt p q) ctx cur tr = (some (a, after), tr')) :
    ∃ m, fuel = m + 1 ∧
      (Granted g k source p m cur tr ∧ match? g m p ctx cur tr = (some (a, after), tr') ∨
        ∃ tr₁, Granted g k source q m cur tr₁ ∧ match? g m q ctx cur tr₁ = (some (a, after), tr')) := by
  obtain ⟨hpp, hqp⟩ := Bool.and_eq_true_iff.1 hm.productive
  cases fuel with
  | zero => simp [match?] at h
  | succ m =>
    have hsteps := hm.steps
    simp only [Peg.steps] at hsteps
    have hin : Inside source (match? g m p ctx cur tr) := match?_in hm.cursor hm.trace
    simp only [match?] at h
    split at h
    · rename_i hfirst
      cases h
      exact ⟨m, rfl, .inl ⟨hm.part hpp (by simp only [Peg.steps]; omega), hfirst⟩⟩
    · rename_i tr₁ hfirst
      rw [hfirst] at hin
      exact ⟨m, rfl, .inr ⟨tr₁, ⟨hm.ranked, hqp, by omega, hm.cursor, hin.trace⟩, h⟩⟩

/-- A repetition ends where its part does not match any more, not for lack of steps. -/
theorem many {as : List α} (hm : Granted g k source (.many p) fuel cur tr)
    (h : match? g fuel (.many p) ctx cur tr = (some (as, after), tr')) :
    ∃ m, fuel = m + 1 ∧ Granted g k source p m cur tr ∧
      ((as = [] ∧ after = cur ∧ match? g m p ctx cur tr = (none, tr')) ∨
        ∃ a rest mid tr₁, as = a :: rest ∧ match? g m p ctx cur tr = (some (a, mid), tr₁) ∧
          Granted g k source (.many p) m mid tr₁ ∧
            match? g m (.many p) ctx mid tr₁ = (some (rest, after), tr')) := by
  obtain ⟨htakes, hpp⟩ := Bool.and_eq_true_iff.1 hm.productive
  cases fuel with
  | zero => simp [match?] at h
  | succ m =>
    have hsteps := hm.steps
    simp only [Peg.steps] at hsteps
    have hone : Granted g k source p m cur tr := hm.part hpp (by simp only [Peg.steps]; omega)
    refine ⟨m, rfl, hone, ?_⟩
    simp only [match?] at h
    split at h
    · rename_i a mid tr₁ hfirst
      have hmore : Granted g k source (.many p) m mid tr₁ := by
        refine hone.next hm.productive hfirst ?_
        rw [if_pos htakes]
        simp only [Peg.steps]
        omega
      split at h
      · rename_i rest last tr₂ hrest
        cases h
        exact .inr ⟨a, rest, mid, tr₁, rfl, hfirst, hmore, hrest⟩
      · -- a repetition fails without steps only
        rename_i hrest
        obtain ⟨m, rfl⟩ := Nat.exists_eq_add_of_lt hone.fuel_pos
        simp only [match?] at hrest
        split at hrest
        · split at hrest <;> cases hrest
        · cases hrest
    · rename_i hfirst
      cases h
      exact .inl ⟨rfl, rfl, hfirst⟩

theorem opt {o : Option α} (hm : Granted g k source (.opt p) fuel cur tr)
    (h : match? g fuel (.opt p) ctx cur tr = (some (o, after), tr')) :
    ∃ m, fuel = m + 1 ∧ Granted g k source p m cur tr ∧
      ∀ a ∈ o, match? g m p ctx cur tr = (some (a, after), tr') := by
  cases fuel with
  | zero => simp [match?] at h
  | succ m =>
    refine ⟨m, rfl, hm.part hm.productive (by simp only [Peg.steps]; omega), ?_⟩
    simp only [match?] at h
    split at h
    · rename_i hfirst
      cases h
      rintro _ ⟨⟩
      exact hfirst
    · cases h
      simp

theorem act {f : Span → α → β × Option Cause} {b : β} (hm : Granted g k source (.act p f) fuel cur tr)
    (h : match? g fuel (.act p f) ctx cur tr = (some (b, after), tr')) :
    ∃ m a tr₁, fuel = m + 1 ∧ Granted g k source p m cur tr ∧
      match? g m p ctx cur tr = (some (a, after), tr₁) ∧
        b = (f ⟨cur.offset, cur.rest.take (after.offset - cur.offset)⟩ a).1 := by
  cases fuel with
  | zero => simp [match?] at h
  | succ m =>
    have hone : Granted g k source p m cur tr := hm.part hm.productive (by simp only [Peg.steps]; omega)
    simp only [match?] at h
    split at h
    · rename_i a last tr₁ hfirst
      split at h
      all_goals
        rename_i hmade
        cases h
        exact ⟨m, a, _, rfl, hone, hfirst, by rw [hmade]⟩
    · cases h

end Granted

namespace Gives

variable {k : Ranks Rule} {n : Nat} {α β : Type} {p : Peg Value α} {q : Peg Value β} {P : Nat → α → Prop}

theorem of_forall {Q : Nat → α → Prop} (h : ∀ offset a, Q offset a) : Gives g k source n p Q :=
  fun _ _ _ _ _ _ _ _ _ _ => h _ _

theorem imp {Q : Nat → α → Prop} (hp : Gives g k source n p P) (h : ∀ offset a, P offset a → Q offset a) :
    Gives g k source n p Q :=
  fun fuel hle ctx cur tr a after tr' hm hmatch => h _ _ (hp fuel hle ctx cur tr a after tr' hm hmatch)

theorem seq {Q : β → Prop} (hp : Gives g k source n p P) (hq : Gives g k source n q fun _ => Q) :
    Gives g k source n (.seq p q) fun offset ab => P offset ab.1 ∧ Q ab.2 := by
  intro fuel hle ctx cur tr ab after tr' hm hmatch
  obtain ⟨m, mid, tr₁, rfl, hleft, hfirst, hright, hsecond⟩ := hm.seq hmatch
  exact ⟨hp m (by omega) _ _ _ _ _ _ hleft hfirst, hq m (by omega) _ _ _ _ _ _ hright hsecond⟩

theorem alt {q : Peg Value α} (hp : Gives g k source n p P) (hq : Gives g k source n q P) :
    Gives g k source n (p <|> q) P := by
  intro fuel hle ctx cur tr a after tr' hm hmatch
  obtain ⟨m, rfl, ⟨hleft, hfirst⟩ | ⟨tr₁, hright, hsecond⟩⟩ := Granted.alt hm hmatch
  · exact hp m (by omega) _ _ _ _ _ _ hleft hfirst
  · exact hq m (by omega) _ _ _ _ _ _ hright hsecond

theorem many {Q : α → Prop} (hp : Gives g k source n p fun _ => Q) :
    Gives g k source n (.many p) fun _ as => ∀ a ∈ as, Q a := by
  intro fuel hle ctx cur tr as after tr' hm hmatch
  induction fuel generalizing cur tr as with
  | zero => simp [match?] at hmatch
  | succ m ih =>
    obtain ⟨_, ⟨⟩, hone, ⟨rfl, -⟩ | ⟨a, rest, mid, tr₁, rfl, hfirst, hmore, hrest⟩⟩ := hm.many hmatch
    · simp
    · exact List.forall_mem_cons.2
        ⟨hp m (by omega) _ _ _ _ _ _ hone hfirst, ih (by omega) _ _ _ hmore hrest⟩

theorem opt {Q : α → Prop} (hp : Gives g k source n p fun _ => Q) :
    Gives g k source n (.opt p) fun _ o => ∀ a ∈ o, Q a := by
  intro fuel hle ctx cur tr o after tr' hm hmatch a ha
  obtain ⟨m, rfl, hone, hfirst⟩ := hm.opt hmatch
  exact hp m (by omega) _ _ _ _ _ _ hone (hfirst a ha)

/-- A value is made of what was matched and of where that starts. -/
theorem act {f : Span → α → β × Option Cause} {Q : Nat → β → Prop} (hp : Gives g k source n p P)
    (hf : ∀ span a, span.offset ≤ source.length → P span.offset a → Q span.offset (f span a).1) :
    Gives g k source n (.act p f) Q := by
  intro fuel hle ctx cur tr b after tr' hm hmatch
  obtain ⟨m, a, tr₁, rfl, hone, hfirst, rfl⟩ := hm.act hmatch
  exact hf ⟨cur.offset, _⟩ a hm.cursor.offset_le (hp m (by omega) _ _ _ _ _ _ hone hfirst)

theorem map {f : α → β} {Q : Nat → β → Prop} (hp : Gives g k source n p P)
    (hf : ∀ offset a, P offset a → Q offset (f a)) : Gives g k source n (f <$> p) Q :=
  Gives.act hp fun span a _ ha => hf span.offset a ha

theorem mapAt {f : Nat → α → β} {Q : Nat → β → Prop} (hp : Gives g k source n p P)
    (hf : ∀ offset a, offset ≤ source.length → P offset a → Q offset (f offset a)) :
    Gives g k source n (Peg.mapAt f p) Q :=
  Gives.act hp fun span a hle ha => hf span.offset a hle ha

theorem fst (hp : Gives g k source n p P) : Gives g k source n (.seq p q) fun offset ab => P offset ab.1 :=
  (hp.seq (of_forall fun _ _ => trivial)).imp fun _ _ h => h.1

theorem snd {Q : β → Prop} (hq : Gives g k source n q fun _ => Q) :
    Gives g k source n (.seq p q) fun _ ab => Q ab.2 :=
  Gives.imp ((of_forall fun _ _ => trivial).seq hq) fun _ _ h => h.2

theorem seqLeft (hp : Gives g k source n p P) : Gives g k source n (p <* q) P :=
  hp.fst.map fun _ _ h => h

theorem seqRight {Q : β → Prop} (hq : Gives g k source n q fun _ => Q) :
    Gives g k source n (p *> q) fun _ => Q :=
  hq.snd.map fun _ _ h => h

end Gives

end Peg
end FlowTyping
