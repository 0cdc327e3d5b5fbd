import FlowTyping.Notation.Grammar
import FlowTyping.Proofs.Number.Rounding
import FlowTyping.Proofs.Peg.Fuel
import FlowTyping.Proofs.Peg.Reading
import FlowTyping.Proofs.Text.Quoting
import FlowTyping.Proofs.Ty.Readable

/-!
# Words, numerals and texts of the notation

How the smallest pieces of the notation are read off the front of a source: an identifier or a numeral
ends at the first character that cannot go on with it, a quoted text at its closing quote. Lists are
read piece by piece, as `Text.joinWith` writes them.

* `Body.Ends` — what can follow a printed piece.
* **`Body.reads_ident`**, **`Body.reads_text`**, **`Body.reads_number`**
* **`Body.reads_separated`**, **`Body.reads_pieces`**
* **`Rule.match?_stepBound`** — no rule comes back to itself before a byte is taken (`Rule.ranks`,
  **`Rule.grammar_ranked`**), so the steps that `Peg.parse` grants are enough for every source, from every rule.
-/

namespace FlowTyping.Notation.Body

open FlowTyping.Peg FlowTyping.Text

/-! ## Ends -/

/-- Whether a character neither goes on with a word or a numeral nor is one of the marks nor a blank. -/
def isEnd (marks : List Char) (c : Char) : Bool :=
  !isBlank c && !isIdentPart c && c != '.' && !marks.contains c

/-- What can follow a printed piece: nothing that goes on with a word or a numeral and, behind at most one
space, none of the marks. -/
inductive Ends (marks : List Char) : Bytes → Prop where
  | here {rest : Bytes} (h : ∀ c ∈ first? rest, isEnd marks c = true) : Ends marks rest
  | space {rest : Bytes} (h : ∀ c ∈ first? rest, isEnd marks c = true) :
    Ends marks ((ofString " ").toList ++ rest)

variable {marks : List Char} {rest : Bytes}

theorem Ends.nil (marks : List Char) : Ends marks [] := .here (by simp)

theorem Ends.of_string {s : String} (c : Char) (hs : s.toList.head? = some c)
    (hc : isEnd marks c = true) (rest : Bytes) : Ends marks ((ofString s).toList ++ rest) := by
  refine .here fun d hd => ?_
  rw [first?_append hs] at hd
  exact Option.some.inj hd ▸ hc

theorem Ends.of_space {s : String} (c : Char) (hs : s.toList.head? = some c)
    (hc : isEnd marks c = true) (rest : Bytes) :
    Ends marks ((ofString " ").toList ++ ((ofString s).toList ++ rest)) := by
  refine .space fun d hd => ?_
  rw [first?_append hs] at hd
  exact Option.some.inj hd ▸ hc

theorem isEnd_mono {more : List Char} (hsub : marks ⊆ more) {c : Char} (hc : isEnd more c = true) :
    isEnd marks c = true := by
  simp only [isEnd, Bool.and_eq_true, Bool.not_eq_true', List.contains_eq_mem, decide_eq_false_iff_not]
    at hc ⊢
  exact ⟨hc.1, fun hmem => hc.2 (hsub hmem)⟩

theorem Ends.mono {more : List Char} (h : Ends more rest) (hsub : marks ⊆ more) : Ends marks rest := by
  cases h with
  | here h => exact .here fun c hc => isEnd_mono hsub (h c hc)
  | space h => exact .space fun c hc => isEnd_mono hsub (h c hc)

theorem isEnd_not_part {c : Char} (hc : isEnd marks c = true) : isIdentPart c = false := by
  simp only [isEnd, Bool.and_eq_true, Bool.not_eq_true'] at hc
  exact hc.1.1.2

theorem isEnd_ne_mark {c m : Char} (hm : m ∈ marks) (hc : isEnd marks c = true) : c ≠ m := by
  rintro rfl
  simp [isEnd, hm] at hc

theorem Ends.not_part (h : Ends marks rest) : ∀ c ∈ first? rest, isIdentPart c = false := by
  cases h with
  | here h => exact fun c hc => isEnd_not_part (h c hc)
  | space h =>
    intro c hc
    rw [first?_append (c := ' ') rfl] at hc
    obtain rfl := Option.some.inj hc
    rfl

theorem Ends.ne_point (h : Ends marks rest) : first? rest ≠ some '.' := by
  cases h with
  | here h =>
    intro heq
    exact absurd (h '.' heq) (by simp [isEnd])
  | space h =>
    rw [first?_append (c := ' ') rfl]
    decide

/-! ## Blanks -/

/-- No blank stands first. -/
def Dense (bytes : Bytes) : Prop := ∀ c ∈ first? bytes, isBlank c = false

theorem Dense.of_string {s : String} (c : Char) (hs : s.toList.head? = some c)
    (hc : isBlank c = false) (rest : Bytes) : Dense ((ofString s).toList ++ rest) := by
  intro d hd
  rw [first?_append hs] at hd
  exact Option.some.inj hd ▸ hc

theorem reads_ws (hrest : Dense rest) : Reads grammar ws [] rest fun _ => True :=
  .rule (.map (.many_nil (.cls hrest)) fun _ _ => trivial)

theorem reads_ws_space (hrest : Dense rest) :
    Reads grammar ws (ofString " ").toList rest fun _ => True := by
  refine .rule (.map (P := fun _ => True) ?_ fun _ _ => trivial)
  have hmany := Reads.many_cons (g := grammar) (x := String.utf8EncodeChar ' ')
    (.cls "[ \\t\\r\\n]" (f := isBlank) rfl _) (.many_nil (.cls hrest))
  exact hmany.imp fun _ _ => trivial

theorem dense_of_isEnd (h : ∀ c ∈ first? rest, isEnd marks c = true) : Dense rest := by
  intro c hc
  have hend := h c hc
  simp only [isEnd, Bool.and_eq_true, Bool.not_eq_true'] at hend
  exact hend.1.1.1

/-- Blanks may stand before an end, and the marks do not stand behind them. -/
theorem Ends.blanks (h : Ends marks rest) :
    ∃ blank tail, rest = blank ++ tail ∧ Reads grammar ws blank tail (fun _ => True) ∧
      ∀ c ∈ first? tail, isEnd marks c = true := by
  cases h with
  | here h => exact ⟨[], rest, rfl, reads_ws (dense_of_isEnd h), h⟩
  | @space tail h => exact ⟨_, tail, rfl, reads_ws_space (dense_of_isEnd h), h⟩

/-- None of the marks is read behind blanks. -/
theorem Ends.refuses {text : String} {c : Char} (h : Ends marks rest)
    (htext : text.toList.head? = some c) (hc : c ∈ marks) : Refuses grammar (ws *> .lit text) rest := by
  obtain ⟨blank, tail, rfl, hblank, htail⟩ := h.blanks
  refine .seqRight_right hblank (.lit_of_first c htext fun heq => ?_)
  exact isEnd_ne_mark hc (htail c heq) rfl

/-! ## Characters of a class -/

/-- Characters that are read one by one, as many as there are. -/
theorem reads_many_chars {p : Body Unit} {cs : List Char}
    (hp : ∀ c ∈ cs, ∀ r, Reads grammar p (String.utf8EncodeChar c) r fun _ => True)
    (hrest : Refuses grammar p rest) : Reads grammar (.many p) (spell cs) rest fun _ => True := by
  induction cs with
  | nil => exact (Reads.many_nil hrest).imp fun _ _ => trivial
  | cons c cs ih =>
    have htail := ih fun d hd => hp d (by simp [hd])
    exact (Reads.many_cons (hp c (by simp) _) htail).imp fun _ _ => trivial

/-- Whether a text is an identifier. -/
def isIdent (s : String) : Bool :=
  match s.toList with
  | [] => false
  | c :: cs => isIdentStart c && cs.all isIdentPart

theorem exists_of_isIdent {s : String} (hs : isIdent s = true) :
    ∃ c cs, s.toList = c :: cs ∧ isIdentStart c = true ∧ ∀ d ∈ cs, isIdentPart d = true := by
  unfold isIdent at hs
  split at hs
  · cases hs
  · rename_i c cs hlist
    obtain ⟨hc, hcs⟩ := Bool.and_eq_true_iff.1 hs
    exact ⟨c, cs, hlist, hc, fun d hd => List.all_eq_true.1 hcs d hd⟩

/-- **An identifier ends at the first character that is no part of it.** -/
theorem reads_ident {s : String} (hs : isIdent s = true) (hrest : ∀ c ∈ first? rest, isIdentPart c = false) :
    Reads grammar (rule .ident) (ofString s).toList rest (· = s) := by
  obtain ⟨c, cs, hlist, hc, hcs⟩ := exists_of_isIdent hs
  have hparts : Reads grammar (.many (rule .identPart)) (spell cs) rest fun _ => True :=
    reads_many_chars (fun d hd r => .rule (.cls "[A-Za-z0-9_$]" (hcs d hd) r)) (.rule (.cls hrest))
  have hword := (Reads.cls (g := grammar) "[A-Za-z_$]" hc _).seq hparts
  have hshown : shown (ofString s).toList = s := by
    rw [toList_ofString, shown_spell, String.ofList_toList]
  refine .rule ((Reads.text (P := fun _ => True) ?_).imp fun a ha => ha.trans hshown)
  rw [toList_ofString, hlist, spell_cons]
  exact hword.imp fun _ _ => trivial

theorem refuses_ident {bytes : Bytes} (h : ∀ c ∈ first? bytes, isIdentStart c = false) :
    Refuses grammar (rule .ident) bytes :=
  .rule (.text (.seq_left (.cls h)))

/-! ## Quoted texts -/

/-- The inside of a quoted text: characters other than the quote, the backslash and the line feed, and
any character behind a backslash. -/
inductive Inside : List Char → Prop where
  | nil : Inside []
  | plain {c : Char} {cs : List Char} (hq : c ≠ '"') (hb : c ≠ '\\') (hn : c ≠ '\n') (h : Inside cs) :
    Inside (c :: cs)
  | escape (c : Char) {cs : List Char} (h : Inside cs) : Inside ('\\' :: c :: cs)

theorem Inside.append {cs ds : List Char} (hcs : Inside cs) (hds : Inside ds) : Inside (cs ++ ds) := by
  induction hcs with
  | nil => exact hds
  | plain hq hb hn _ ih => exact .plain hq hb hn ih
  | escape c _ ih => exact .escape c ih

theorem inside_of_all {cs : List Char} (h : ∀ c ∈ cs, c ≠ '"' ∧ c ≠ '\\' ∧ c ≠ '\n') : Inside cs := by
  induction cs with
  | nil => exact .nil
  | cons c cs ih =>
    obtain ⟨hq, hb, hn⟩ := h c (by simp)
    exact .plain hq hb hn (ih fun d hd => h d (by simp [hd]))

theorem plain_hexDigit : ∀ d < 16, hexDigit d ≠ '"' ∧ hexDigit d ≠ '\\' ∧ hexDigit d ≠ '\n' := by decide

theorem plain_hexDigits {w n : Nat} : ∀ c ∈ hexDigits w n, c ≠ '"' ∧ c ≠ '\\' ∧ c ≠ '\n' := by
  induction w generalizing n with
  | zero => simp [hexDigits]
  | succ w ih =>
    intro c hc
    rcases List.mem_append.1 hc with hc | hc
    · exact ih c hc
    · rw [List.mem_singleton.1 hc]
      exact plain_hexDigit _ (Nat.mod_lt n (by decide))

theorem inside_of_written {s : Sym} {cs : List Char} (h : WrittenSym s cs) : Inside cs := by
  cases h with
  | plain hq hb hn => exact .plain hq hb hn .nil
  | @letter c letter _ _ => exact .escape letter .nil
  | @number mark _ _ _ _ => exact .escape mark (inside_of_all plain_hexDigits)

theorem inside_quoted (v : Bytes) : Inside (quoted v) := by
  have hall (σ : List Sym) (hσ : ∀ s ∈ σ, s.Valid) : Inside (σ.flatMap (quoteSym '"')) := by
    induction σ with
    | nil => exact .nil
    | cons s σ ih =>
      rw [List.flatMap_cons]
      exact (inside_of_written (quoteSym_written (hσ s (by simp)))).append
        (ih fun t ht => hσ t (by simp [ht]))
  exact hall (decode v) fun _ => decode_valid

/-- A piece of the inside of a quoted text. -/
def insidePiece : Body Unit :=
  .cls "[^\"\\\\\\n]" (fun c => c != '"' && c != '\\' && c != '\n') <|> (.lit "\\" *> .any)

theorem reads_inside {cs : List Char} (h : Inside cs) (rest : Bytes) :
    Reads grammar (.many insidePiece) (spell cs) (spell ['"'] ++ rest) fun _ => True := by
  have hquote : first? (spell ['"'] ++ rest) = some '"' := first?_spell_append rfl rest
  induction h with
  | nil =>
    refine (Reads.many_nil (.alt (.cls fun c hc => ?_) (.seqRight_left (.lit_of_first '\\' rfl ?_)))).imp
      fun _ _ => trivial
    · rw [hquote] at hc
      obtain rfl := Option.some.inj hc
      rfl
    · rw [hquote]
      decide
  | @plain c cs hq hb hn _ ih =>
    have hc : (c != '"' && c != '\\' && c != '\n') = true := by simp [hq, hb, hn]
    refine (Reads.many_cons (.alt_left (.cls _ hc _)) ih).imp fun _ _ => trivial
  | @escape c cs _ ih =>
    have hback : Reads grammar insidePiece (spell ['\\'] ++ String.utf8EncodeChar c)
        (spell cs ++ (spell ['"'] ++ rest)) fun _ => True := by
      refine .alt_right (.cls fun d hd => ?_) (.seqRight (.lit "\\" _) (.any c _))
      rw [List.append_assoc, first?_spell_append (c := '\\') rfl] at hd
      obtain rfl := Option.some.inj hd
      rfl
    have hall := Reads.many_cons hback ih
    rw [List.append_assoc] at hall
    exact hall.imp fun _ _ => trivial

/-- **A quoted text is read as the bytes that were quoted.** -/
theorem reads_text (v : Bytes) (rest : Bytes) :
    Reads grammar (rule .text) (ofString (quote v)).toList rest (· = v) := by
  have hparts : Reads grammar (.lit "\"" *> .many insidePiece *> .lit "\"")
      (spell ['"'] ++ spell (quoted v) ++ spell ['"']) rest fun _ => True :=
    .seqRight (.seqRight (.lit "\"" _) (reads_inside (inside_quoted v) rest)) (.lit "\"" rest)
  rw [toList_quote, ← List.append_assoc]
  refine .rule (.alt_left (.act hparts fun offset a _ => ?_))
  have hinside : ((spell ['"'] ++ spell (quoted v) ++ spell ['"']).drop 1).dropLast = spell (quoted v) :=
    List.dropLast_concat
  simp only [hinside, unquote?_quoted]
  trivial

theorem refuses_text {bytes : Bytes} (hd : first? bytes ≠ some '"') (hs : first? bytes ≠ some '\'') :
    Refuses grammar (rule .text) bytes :=
  .rule (.alt (.act (.seqRight_left (.seqRight_left (.lit_of_first '"' rfl hd))))
    (.act (.seqRight_left (.seqRight_left (.lit_of_first '\'' rfl hs)))))

/-! ## Numerals -/

theorem test_digit {c : Char} (hc : c.isDigit = true) : ('0' ≤ c && c ≤ '9') = true := by
  simp only [Char.isDigit, Bool.and_eq_true, decide_eq_true_eq] at hc ⊢
  exact hc

theorem isIdentPart_of_digit {c : Char} (hc : ('0' ≤ c && c ≤ '9') = true) : isIdentPart c = true := by
  rw [isIdentPart, hc, Bool.or_true]

/-- What holds of the ten digits holds of a digit. -/
theorem of_digit {P : Char → Prop} (h : ∀ n < 58, 48 ≤ n → P (Char.ofNat n)) {c : Char}
    (hc : ('0' ≤ c && c ≤ '9') = true) : P c := by
  have hrange : 48 ≤ c.toNat ∧ c.toNat ≤ 57 := by
    simp only [Bool.and_eq_true, decide_eq_true_eq] at hc
    exact hc
  rw [← Char.ofNat_toNat c]
  exact h _ (by omega) hrange.1

/-- Digits end at the first character that is none. -/
theorem reads_digits {ds : List Char} (hd : Number.AllDigits ds) (hne : ds ≠ [])
    (hrest : ∀ c ∈ first? rest, ('0' ≤ c && c ≤ '9') = false) :
    Reads grammar (.many1 digit) (spell ds) rest fun _ => True := by
  obtain ⟨c, cs, rfl⟩ := List.exists_cons_of_ne_nil hne
  have hread : ∀ d ∈ c :: cs, ∀ r, Reads grammar digit (String.utf8EncodeChar d) r fun _ => True :=
    fun d hmem r => .cls _ (test_digit (hd d hmem)) r
  have htail : Reads grammar (.many digit) (spell cs) rest fun _ => True :=
    reads_many_chars (fun d hmem => hread d (by simp [hmem])) (.cls hrest)
  exact (Reads.many1 (hread c (by simp) _) htail).imp fun _ _ => trivial

/-- What a numeral does not go on with. -/
def Stops (rest : Bytes) : Prop :=
  ∀ c ∈ first? rest, ('0' ≤ c && c ≤ '9') = false ∧ c ≠ '.' ∧ (c == 'e' || c == 'E') = false

theorem Ends.stops (h : Ends marks rest) : Stops rest := by
  intro c hc
  have hpart := h.not_part c hc
  refine ⟨?_, fun hpoint => h.ne_point (hpoint ▸ hc), ?_⟩
  · by_contra hdigit
    rw [isIdentPart_of_digit (by simpa using hdigit)] at hpart
    exact Bool.noConfusion hpart
  · by_contra hletter
    have hcase : c = 'e' ∨ c = 'E' := by simpa [or_iff_not_imp_left] using hletter
    rcases hcase with rfl | rfl <;> exact absurd hpart (by decide)

/-- The exponent part of a numeral. -/
def exponent : Body (Option (List Unit)) :=
  .opt (.cls "[eE]" (fun c => c == 'e' || c == 'E') *>
    .opt (.cls "[+-]" fun c => c == '+' || c == '-') *> .many1 digit)

theorem reads_exponent (o : Option Int) (hrest : Stops rest) :
    Reads grammar exponent (spell (Number.exponentText o)) rest fun _ => True := by
  cases o with
  | none =>
    refine (Reads.opt_none (.seqRight_left (.seqRight_left (.cls fun c hc => ?_)))).imp fun _ _ => trivial
    exact (hrest c hc).2.2
  | some x =>
    have hdigits : Number.AllDigits (Number.padLeft Number.layout.exponentWidth (Nat.toDigits 10 x.natAbs)) := by
      refine List.forall_mem_append.2 ⟨fun c hc => ?_, Number.allDigits_toDigits _⟩
      rw [List.eq_of_mem_replicate hc]
      rfl
    have hne : Number.padLeft Number.layout.exponentWidth (Nat.toDigits 10 x.natAbs) ≠ [] := by
      intro hnil
      have hlength := Nat.length_toDigits_pos (b := 10) (n := x.natAbs)
      rw [(List.append_eq_nil_iff.1 hnil).2] at hlength
      exact absurd hlength (by decide)
    have hsign : ((if x < 0 then '-' else '+') == '+' || (if x < 0 then '-' else '+') == '-') = true := by
      split <;> rfl
    have hread := Reads.seqRight
      (.seqRight (.cls (g := grammar) "[eE]" (f := fun c => c == 'e' || c == 'E') (c := 'e') rfl _)
        (.opt_some (.cls "[+-]" (f := fun c => c == '+' || c == '-') hsign _)))
      (reads_digits hdigits hne fun c hc => (hrest c hc).1)
    rw [List.append_assoc] at hread
    exact (Reads.opt_some hread).imp fun _ _ => trivial

theorem first?_exponent (o : Option Int) (rest : Bytes) :
    (o = none ∧ first? (spell (Number.exponentText o) ++ rest) = first? rest) ∨
      first? (spell (Number.exponentText o) ++ rest) = some 'e' := by
  cases o with
  | none => exact .inl ⟨rfl, rfl⟩
  | some x => exact .inr (first?_spell_append rfl rest)

/-- The fraction of a numeral. -/
def fraction : Body (Option (List Unit)) := .opt (.lit "." *> .many1 digit)

theorem reads_fraction {ds : List Char} (hd : Number.AllDigits ds)
    (hrest : ∀ c ∈ first? rest, ('0' ≤ c && c ≤ '9') = false ∧ c ≠ '.') :
    Reads grammar fraction (spell (Number.pointed ds)) rest fun _ => True := by
  cases ds with
  | nil =>
    refine (Reads.opt_none (.seqRight_left (.lit_of_first '.' rfl fun hfirst => ?_))).imp fun _ _ => trivial
    exact (hrest '.' hfirst).2 rfl
  | cons c cs =>
    have hread := Reads.seqRight (.lit (g := grammar) "." _)
      (reads_digits hd (by simp) fun c hc => (hrest c hc).1)
    exact (Reads.opt_some hread).imp fun _ _ => trivial

/-- **A finite number is read off its numeral.** -/
theorem reads_number {negative : Bool} {m : Nat} {e : Int} (hd : Number.IsDouble m e) (hrest : Stops rest) :
    Reads grammar (rule .number) (ofString (Number.finite negative m e hd).render).toList rest
      (· = .finite negative m e hd) := by
  obtain ⟨whole, frac, o, hw, hne, hf, hrender⟩ := Number.render_parts negative hd
  have hexponent := reads_exponent o hrest
  have hafter : ∀ c ∈ first? (spell (Number.exponentText o) ++ rest),
      ('0' ≤ c && c ≤ '9') = false ∧ c ≠ '.' := by
    intro c hc
    rcases first?_exponent o rest with ⟨-, heq⟩ | heq
    · rw [heq] at hc
      exact ⟨(hrest c hc).1, (hrest c hc).2.1⟩
    · rw [heq] at hc
      obtain rfl := Option.some.inj hc
      decide
  have hfraction := reads_fraction hf hafter
  have hpoint : ∀ c ∈ first? (spell (Number.pointed frac) ++ (spell (Number.exponentText o) ++ rest)),
      ('0' ≤ c && c ≤ '9') = false := by
    cases frac with
    | nil => exact fun c hc => (hafter c hc).1
    | cons d ds =>
      intro c hc
      have hpointed : (Number.pointed (d :: ds)).head? = some '.' := rfl
      rw [first?_spell_append hpointed] at hc
      obtain rfl := Option.some.inj hc
      rfl
  have hwhole := reads_digits hw hne hpoint
  -- the sign comes first
  have hsign : Reads grammar (.opt (.lit "-")) (spell (if negative then ['-'] else []))
      (spell whole ++ (spell (Number.pointed frac) ++ (spell (Number.exponentText o) ++ rest)))
      fun _ => True := by
    cases negative with
    | true => exact (Reads.opt_some (.lit "-" _)).imp fun _ _ => trivial
    | false =>
      refine (Reads.opt_none (.lit_of_first '-' rfl ?_)).imp fun _ _ => trivial
      obtain ⟨c, cs, rfl⟩ := List.exists_cons_of_ne_nil hne
      rw [first?_spell_append (c := c) rfl]
      intro heq
      obtain rfl := Option.some.inj heq
      exact absurd (hw '-' (by simp)) (by decide)
  have hparts := ((hsign.seqRight (by exact hwhole)).seqRight (by exact hfraction)).seqRight hexponent
  have hfront : (ofString (Number.finite negative m e hd).render).toList =
      spell (if negative then ['-'] else []) ++ spell whole ++ spell (Number.pointed frac) ++
        spell (Number.exponentText o) := by
    rw [toList_ofString, hrender]
    simp
  have hshown : shown (ofString (Number.finite negative m e hd).render).toList =
      (Number.finite negative m e hd).render := by
    rw [toList_ofString, shown_spell, String.ofList_toList]
  refine .rule (.act (P := fun _ => True) (by rw [hfront]; exact hparts) fun offset a _ => ?_)
  simp only [hshown, Number.parse_render]
  trivial

theorem refuses_number {bytes : Bytes} (hsign : first? bytes ≠ some '-')
    (hdigit : ∀ c ∈ first? bytes, ('0' ≤ c && c ≤ '9') = false) : Refuses grammar (rule .number) bytes := by
  have hopt := Reads.opt_none (g := grammar) (p := .lit "-") (.lit_of_first '-' rfl hsign)
  exact .rule (.act (.seqRight_left (.seqRight_left (Refuses.map (.seq_skip hopt (.many1 (.cls hdigit)))))))

/-! ## Lists -/

section Lists

variable {ι α : Type} {item : Body α} {items : List ι} {rel : ι → α → Prop} {F : Bytes → Prop}

/-- Items that are read one by one, where each may follow the one before. -/
theorem reads_many {front : ι → Bytes}
    (hread : ∀ i ∈ items, ∀ r, F r → Reads grammar item (front i) r (rel i))
    (hnext : ∀ i ∈ items, ∀ r, F (front i ++ r)) (hrest : F rest) (hstop : Refuses grammar item rest) :
    Reads grammar (.many item) (items.flatMap front) rest (List.Forall₂ rel items) := by
  induction items with
  | nil =>
    refine (Reads.many_nil hstop).imp ?_
    rintro _ rfl
    exact .nil
  | cons i is ih =>
    have htail := ih (fun j hj => hread j (by simp [hj])) fun j hj => hnext j (by simp [hj])
    have hfollow : F (is.flatMap front ++ rest) := by
      cases is with
      | nil => exact hrest
      | cons j js =>
        rw [List.flatMap_cons, List.append_assoc]
        exact hnext j (by simp) _
    refine (Reads.many_cons (hread i (by simp) _ hfollow) htail).imp ?_
    rintro _ ⟨a, as, rfl, ha, has⟩
    exact .cons ha has

variable {sep : Body Unit} {mark : Text} {piece : ι → Text}

/-- **Pieces with a mark between two of them are read one by one.** -/
theorem reads_separated {i : ι} {is : List ι}
    (hsep : ∀ r, Dense r → Reads grammar (ws *> sep *> ws) mark.toList r fun _ => True)
    (hread : ∀ j ∈ i :: is, ∀ r, F r → Reads grammar item (piece j).toList r (rel j))
    (hdense : ∀ j ∈ is, ∀ r, Dense ((piece j).toList ++ r))
    (hnext : ∀ j ∈ is, ∀ r, F (mark.toList ++ ((piece j).toList ++ r))) (hrest : F rest)
    (hstop : Refuses grammar (ws *> sep) rest) :
    Reads grammar (separated item sep) (Text.joinWith mark ((i :: is).map piece)).toList rest
      (List.Forall₂ rel (i :: is)) := by
  have hmany : Reads grammar (.many (ws *> sep *> ws *> item))
      (is.flatMap fun j => mark.toList ++ (piece j).toList) rest (List.Forall₂ rel is) := by
    refine reads_many (fun j hj r hr => ?_) (fun j hj r => ?_) hrest (.seqRight_left (.seqRight_left hstop))
    · exact .seqRight (hsep _ (hdense j hj r)) (hread j (by simp [hj]) r hr)
    · rw [List.append_assoc]
      exact hnext j hj r
  have hfollow : F ((is.flatMap fun j => mark.toList ++ (piece j).toList) ++ rest) := by
    cases is with
    | nil => exact hrest
    | cons j js =>
      rw [List.flatMap_cons, List.append_assoc, List.append_assoc]
      exact hnext j (by simp) _
  have hjoin : (Text.joinWith mark ((i :: is).map piece)).toList =
      (piece i).toList ++ is.flatMap fun j => mark.toList ++ (piece j).toList := by
    rw [List.map_cons, Ty.toList_joinWith_cons, List.flatMap_map]
  rw [hjoin]
  refine .map ((hread i (by simp) _ hfollow).seq hmany) ?_
  rintro ⟨a, as⟩ ⟨ha, has⟩
  exact .cons ha has

/-- No mark follows the last piece. -/
theorem reads_listed {front : Bytes} {Q : List α → Prop}
    (hread : Reads grammar (separated item sep) front rest Q) (hstop : Refuses grammar (ws *> sep) rest) :
    Reads grammar (listed item sep) front rest Q := by
  have h := Reads.seqLeft (y := []) hread (.opt_none hstop)
  rwa [List.append_nil] at h

theorem refuses_listed {bytes : Bytes} (h : Refuses grammar item bytes) :
    Refuses grammar (listed item sep) bytes :=
  .seqLeft_left (.map (.seq_left h))

theorem reads_orEmpty {p : Body (List α)} {front : Bytes} {Q : List α → Prop}
    (h : Reads grammar p front rest Q) : Reads grammar (orEmpty p) front rest Q := by
  refine .map (.opt_some h) ?_
  rintro _ ⟨as, rfl, has⟩
  exact has

theorem reads_orEmpty_nil {p : Body (List α)} (h : Refuses grammar p rest) :
    Reads grammar (orEmpty p) [] rest (· = []) := by
  refine .map (.opt_none h) ?_
  rintro _ rfl
  rfl

theorem dense_joinWith (hdense : ∀ i ∈ items, ∀ r, Dense ((piece i).toList ++ r)) (hrest : Dense rest) :
    Dense ((Text.joinWith mark (items.map piece)).toList ++ rest) := by
  cases items with
  | nil => exact hrest
  | cons i is =>
    rw [List.map_cons, Ty.toList_joinWith_cons, List.append_assoc]
    exact hdense i (by simp) _

/-- **A list of pieces, which may be empty**, up to what is no piece and no mark. -/
theorem reads_pieces {p : Body (List α)}
    (hp : ∀ {front rest : Bytes} {Q : List α → Prop},
      Reads grammar (listed item sep) front rest Q → Reads grammar p front rest Q)
    (hp' : ∀ {bytes : Bytes}, Refuses grammar (listed item sep) bytes → Refuses grammar p bytes)
    (hsep : ∀ r, Dense r → Reads grammar (ws *> sep *> ws) mark.toList r fun _ => True)
    (hread : ∀ i ∈ items, ∀ r, F r → Reads grammar item (piece i).toList r (rel i))
    (hdense : ∀ i ∈ items, ∀ r, Dense ((piece i).toList ++ r))
    (hnext : ∀ i ∈ items, ∀ r, F (mark.toList ++ ((piece i).toList ++ r))) (hrest : F rest)
    (hstop : Refuses grammar (ws *> sep) rest) (hend : Refuses grammar item rest) :
    Reads grammar (orEmpty p) (Text.joinWith mark (items.map piece)).toList rest
      (List.Forall₂ rel items) := by
  cases items with
  | nil =>
    refine (reads_orEmpty_nil (hp' (refuses_listed hend))).imp ?_
    rintro _ rfl
    exact .nil
  | cons i is =>
    refine reads_orEmpty (hp (reads_listed (reads_separated hsep hread ?_ ?_ hrest hstop) hstop))
    · exact fun j hj => hdense j (by simp [hj])
    · exact fun j hj => hnext j (by simp [hj])

end Lists

/-- A mark with a space behind it. -/
theorem reads_spaced_mark {p : Body Unit} {text : String} {c : Char} (htext : text.toList.head? = some c)
    (hc : isBlank c = false) {r : Bytes} (hr : Dense r)
    (hp : Reads grammar p (ofString text).toList ((ofString " ").toList ++ r) fun _ => True) :
    Reads grammar (ws *> p *> ws) ((ofString text).toList ++ (ofString " ").toList) r fun _ => True :=
  ((reads_ws (.of_string c htext hc _)).seqRight hp).seqRight (reads_ws_space hr)

/-- A mark between two spaces. -/
theorem reads_spaced {text : String} {c : Char} (htext : text.toList.head? = some c)
    (hc : isBlank c = false) {r : Bytes} (hr : Dense r) :
    Reads grammar (ws *> .lit text *> ws)
      ((ofString " ").toList ++ (ofString text).toList ++ (ofString " ").toList) r fun _ => True := by
  have hblank := reads_ws_space (Dense.of_string c htext hc ((ofString " ").toList ++ r))
  exact .seqRight (.seqRight hblank (.lit text _)) (reads_ws_space hr)

end FlowTyping.Notation.Body

/-! ## Steps -/

namespace FlowTyping.Notation.Rule

open FlowTyping.Peg

/-- A bound on the steps that a rule nests before a byte is taken. -/
def nested : Rule → Nat
  | .ident | .identPart | .text | .number | .blanks | .blanks1 | .eof | .keyword | .typeKeyword
  | .compareOp => 12
  | .name | .propName | .literal | .keyof | .genericArray | .parens | .params | .object | .tuple
  | .typeParams | .typeParam | .typeArgs | .typeOf | .inTest | .ref => 24
  | .function | .param | .prop | .signature | .predicate | .comparison | .call => 40
  | .primary | .atom | .paramList | .propList => 56
  | .suffixed | .not => 64
  | .intersection | .and => 72
  | .type | .or => 80
  | .elem | .compareRight | .expr => 96
  | .elemList | .exprList | .typeEntry | .signatureEntry | .condEntry | .exprEntry | .callEntry => 112

/-- Only blanks and the end of a source may match without taking a byte. -/
def ranks : Ranks Rule := ⟨fun r => r ≠ .blanks ∧ r ≠ .eof, nested⟩

/-- **The rules are ranked**: none nests more steps than its rank before a byte is taken. -/
theorem grammar_ranked : grammar.Ranked ranks where
  takes r := by cases r <;> decide
  steps r := by cases r <;> decide
  productive r := by cases r <;> decide

theorem nested_le (r : Rule) : nested r ≤ 112 := by
  cases r <;> decide

/-- **More steps than are granted change nothing.** -/
theorem match?_stepBound (r : Rule) {ctx : Context} {cur : Cursor} {tr : Trace} {more : Nat}
    (hmore : stepBound cur.rest ≤ more) :
    match? grammar more (.rule r) ctx cur tr = match? grammar (stepBound cur.rest) (.rule r) ctx cur tr := by
  refine match?_of_le grammar_ranked (p := .rule r) rfl ?_ hmore
  have hle := nested_le r
  show nested r + 1 + 1024 * cur.rest.length ≤ 1024 * (cur.rest.length + 2)
  omega

end FlowTyping.Notation.Rule
