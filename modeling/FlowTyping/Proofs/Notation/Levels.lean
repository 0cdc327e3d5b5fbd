import FlowTyping.Proofs.Notation.Printed
import FlowTyping.Proofs.Notation.Tokens

/-!
# A print is read as what it was printed from

A type is printed with parentheses where it would be read otherwise at the level of the grammar that it stands
at. So its print is read there, and as the type: the first character tells the form, and what follows tells where
it ends.

* **`reads_chain`** — alternatives and parts, with a mark between two of them.
* **`reads_object`**, **`reads_tuple`**, **`reads_function`**, **`reads_parens`** — the forms in brackets.
* **`Levels`** — a type is read at each level that it can be printed at; **`levels_of_writable`** shows it by
  induction on the parts.
* **`parse_print`** — parsing the print of a writable type succeeds with what the type may be read as.
-/

namespace FlowTyping.Notation.Body

open FlowTyping.Peg FlowTyping.Text
open Ty (Writable Canonical Starts Slot isLead parens propText slotText argText slots render render_object render_tuple parts
  parts_induction renderAlternatives_eq_map renderParts_eq_map renderParams_eq_map renderProps_eq_map
  starts_joinWith starts_number starts_parens starts_render starts_string)

variable {D : Ty → TypeExpr → Prop} {t : Ty} {rest : Bytes} {Q : TypeExpr → Prop}

/-! ## Alternatives and parts -/

theorem orSingle_of_two {make : List TypeExpr → TypeExpr} {xs : List TypeExpr} (h : 2 ≤ xs.length) :
    orSingle make xs = make xs := by
  match xs, h with
  | _ :: _ :: _, _ => rfl

section Chains

variable {ι : Type} {item : Body TypeExpr} {make : List TypeExpr → TypeExpr} {text : String} {mark : Char}
  {sep : Text} {piece : ι → Text} {R : ι → TypeExpr → Prop} {F : Bytes → Prop}

/-- Pieces with a mark between two of them; none stands before the first. -/
theorem reads_chain {i : ι} {is : List ι} (htext : text.toList.head? = some mark)
    (hmark : isLead mark = false ∧ isBlank mark = false)
    (hsep : sep.toList = (ofString " ").toList ++ (ofString text).toList ++ (ofString " ").toList)
    (hread : ∀ j ∈ i :: is, ∀ r, F r → Reads grammar item (piece j).toList r (R j))
    (hstart : ∀ j ∈ i :: is, Starts (isLead · = true) (piece j).toList)
    (hnext : ∀ j ∈ is, ∀ r, F (sep.toList ++ ((piece j).toList ++ r)))
    (hrest : F rest) (hstop : Refuses grammar (ws *> .lit text) rest) :
    Reads grammar (orSingle make <$> (.opt (.lit text *> ws) *> separated item (.lit text)))
      (Text.joinWith sep ((i :: is).map piece)).toList rest
      fun v => ∃ xs, List.Forall₂ R (i :: is) xs ∧ v = orSingle make xs := by
  have hlist : Reads grammar (separated item (.lit text)) (Text.joinWith sep ((i :: is).map piece)).toList rest
      (List.Forall₂ R (i :: is)) := reads_separated (F := F)
    (fun r hr => hsep ▸ reads_spaced htext hmark.2 hr) hread
    (fun j hj => (hstart j (by simp [hj])).dense) hnext hrest hstop
  have hnone : Reads grammar (.opt (.lit text *> ws)) []
      ((Text.joinWith sep ((i :: is).map piece)).toList ++ rest) (· = none) := by
    refine .opt_none (.seqRight_left (.lit_of_first mark htext ?_))
    exact (starts_joinWith _ (hstart i (by simp))).first?_ne rest hmark.1
  refine .map (hnone.seqRight hlist) fun xs hxs => ⟨xs, hxs, rfl⟩

/-- A piece alone. -/
theorem reads_chain_single {s : Text} (htext : text.toList.head? = some mark)
    (hmark : isLead mark = false ∧ isBlank mark = false) (hstart : Starts (isLead · = true) s.toList)
    (h : Reads grammar item s.toList rest Q) (hstop : Refuses grammar (ws *> .lit text) rest) :
    Reads grammar (orSingle make <$> (.opt (.lit text *> ws) *> separated item (.lit text))) s.toList rest Q := by
  have hchain : Reads grammar (orSingle make <$> (.opt (.lit text *> ws) *> separated item (.lit text)))
      (Text.joinWith (" " ++ text ++ " ") ([()].map fun _ => s)).toList rest
      fun v => ∃ xs, List.Forall₂ (fun _ => Q) [()] xs ∧ v = orSingle make xs :=
    reads_chain (F := fun r => r = rest) htext hmark (by simp)
    (fun _ _ r hr => hr ▸ h) (fun _ _ => hstart) (by simp) rfl hstop
  refine hchain.imp ?_
  rintro _ ⟨xs, hxs, rfl⟩
  cases hxs with
  | cons hx hxs =>
    cases hxs
    exact hx

end Chains

/-! ## Arrays -/

/-- The brackets behind the element type of an array of arrays. -/
def brackets : Nat → Bytes
  | 0 => []
  | n + 1 => (ofString "[]").toList ++ brackets n

/-- A written type with so many brackets behind it. -/
def arrays : Nat → TypeExpr → TypeExpr
  | 0, x => x
  | n + 1, x => arrays n (.array x)

theorem ends_brackets (n : Nat) (hrest : Ends ['['] rest) : Ends [] (brackets n ++ rest) := by
  cases n with
  | zero => exact hrest.mono (by simp)
  | succ n =>
    rw [brackets, List.append_assoc]
    exact .of_string '[' rfl rfl _

theorem reads_brackets (n : Nat) (hrest : Ends ['['] rest) :
    Reads grammar (.many (ws *> .lit "[" *> ws *> .lit "]")) (brackets n) rest
      fun dims => ∀ x, dims.foldl (fun t _ => .array t) x = arrays n x := by
  induction n with
  | zero =>
    have hnone : Refuses grammar (ws *> .lit "[" *> ws *> .lit "]") rest :=
      .seqRight_left (.seqRight_left (hrest.refuses rfl (by decide)))
    refine (Reads.many_nil hnone).imp ?_
    rintro _ rfl x
    rfl
  | succ n ih =>
    have hpair : Reads grammar (ws *> .lit "[" *> ws *> .lit "]") (ofString "[]").toList
        (brackets n ++ rest) fun _ => True :=
      (((reads_ws (.of_string '[' rfl rfl _)).seqRight (.lit "[" _)).seqRight (y := [])
        (reads_ws (.of_string ']' rfl rfl _))).seqRight (.lit "]" _)
    refine (Reads.many_cons hpair ih).imp ?_
    rintro _ ⟨_, dims, rfl, -, hdims⟩ x
    exact hdims (.array x)

theorem reads_suffixed {front : Bytes} (n : Nat) (hrest : Ends ['['] rest)
    (h : Reads grammar (rule .primary) front (brackets n ++ rest) Q) :
    Reads grammar (rule .suffixed) (front ++ brackets n) rest fun v => ∃ x, Q x ∧ v = arrays n x := by
  refine .rule (.map (h.seq (reads_brackets n hrest)) ?_)
  rintro ⟨x, dims⟩ ⟨hx, hdims⟩
  exact ⟨x, hx, hdims x⟩

/-! ## Forms that are told by their first character -/

theorem refuses_function (h : first? rest ≠ some '(') : Refuses grammar (rule .function) rest :=
  .rule (.map (.seq_left (.rule (.seqLeft_left (.seqLeft_left (.seqRight_left (.seqRight_left
    (.lit_of_first '(' rfl h))))))))

theorem refuses_parens (h : first? rest ≠ some '(') : Refuses grammar (rule .parens) rest :=
  .rule (.seqLeft_left (.seqLeft_left (.seqRight_left (.seqRight_left (.lit_of_first '(' rfl h)))))

theorem refuses_object (h : first? rest ≠ some '\x7b') : Refuses grammar (rule .object) rest :=
  .rule (.map (.seqLeft_left (.seqLeft_left (.seqRight_left (.seqRight_left
    (.lit_of_first '\x7b' rfl h))))))

theorem refuses_tuple (h : first? rest ≠ some '[') : Refuses grammar (rule .tuple) rest :=
  .rule (.map (.seqLeft_left (.seqLeft_left (.seqRight_left (.seqRight_left
    (.lit_of_first '[' rfl h))))))

theorem refuses_keyof (h : first? rest ≠ some 'k') : Refuses grammar (rule .keyof) rest :=
  .rule (.map (.seqRight_left (.seqRight_left (.lit_of_first 'k' rfl h))))

theorem refuses_genericArray (h : first? rest ≠ some 'A') : Refuses grammar (rule .genericArray) rest :=
  .rule (.map (.seqLeft_left (.seqLeft_left (.seqRight_left (.seqRight_left (.seqRight_left
    (.seqRight_left (.lit_of_first 'A' rfl h))))))))

/-- Neither a parenthesis nor a bracket or a brace. -/
def isOpening (c : Char) : Bool := ['(', '\x7b', '['].contains c

/-- What starts with no bracket is a literal, or what stands behind the literals in the order of choice. -/
theorem reads_unbracketed {front : Bytes} (hfirst : ∀ c ∈ first? (front ++ rest), isOpening c = false)
    (h : Reads grammar (rule .literal <|> rule .keyof <|> rule .genericArray <|> rule .name) front rest Q) :
    Reads grammar (rule .primary) front rest Q := by
  have hne {m : Char} (hm : isOpening m = true) : first? (front ++ rest) ≠ some m :=
    fun heq => Bool.noConfusion (hm.symm.trans (hfirst m heq))
  exact .rule (.alt_right (refuses_function (hne rfl)) (.alt_right (refuses_parens (hne rfl))
    (.alt_right (refuses_object (hne rfl)) (.alt_right (refuses_tuple (hne rfl)) h))))

theorem reads_literal_text (v : Bytes) (rest : Bytes) :
    Reads grammar (rule .primary) (ofString (quote v)).toList rest (· = .text v) := by
  refine reads_unbracketed (fun c hc => ?_) (.alt_left (.rule (.alt_left (.map (reads_text v rest) ?_))))
  · rw [toList_quote, List.append_assoc, first?_spell_append (c := '"') rfl] at hc
    obtain rfl := Option.some.inj hc
    rfl
  · rintro _ rfl
    rfl

/-- A word that is no other form is read as a name. -/
theorem reads_name {s : String} (hs : isIdent s = true) (hk : s.toList.head? ≠ some 'k')
    (hA : s.toList.head? ≠ some 'A') (hrest : ∀ c ∈ first? rest, isIdentPart c = false) :
    Reads grammar (rule .primary) (ofString s).toList rest fun v => ∃ offset, v = .name s offset := by
  obtain ⟨c, cs, hlist, hc, -⟩ := exists_of_isIdent hs
  have hfirst : first? ((ofString s).toList ++ rest) = some c := first?_append (by rw [hlist]; rfl) rest
  have hne {m : Char} (hm : isIdentStart m = false) : first? ((ofString s).toList ++ rest) ≠ some m := by
    rw [hfirst]
    rintro heq
    obtain rfl := Option.some.inj heq
    exact Bool.noConfusion (hm.symm.trans hc)
  have hliteral : Refuses grammar (rule .literal) ((ofString s).toList ++ rest) := by
    refine .rule (.alt (.map (refuses_text (hne rfl) (hne rfl))) (.map (refuses_number (hne rfl) fun d hd => ?_)))
    obtain rfl := Option.some.inj (hfirst.symm.trans hd)
    by_contra hdigit
    have hstart := (not_start_of_digit (by simpa using hdigit)).2
    exact Bool.noConfusion (hstart.symm.trans hc)
  refine reads_unbracketed (fun d hd => ?_) (.alt_right hliteral (.alt_right (refuses_keyof ?_)
    (.alt_right (refuses_genericArray ?_) (.rule (.act (reads_ident hs hrest) ?_)))))
  · obtain rfl := Option.some.inj (hfirst.symm.trans hd)
    by_contra hopening
    have hcases : c = '(' ∨ c = '\x7b' ∨ c = '[' := by
      simpa [isOpening, or_iff_not_imp_left] using hopening
    rcases hcases with rfl | rfl | rfl <;> exact absurd hc (by decide)
  · rwa [hfirst, ← List.head?_cons (l := cs), ← hlist]
  · rwa [hfirst, ← List.head?_cons (l := cs), ← hlist]
  · rintro offset _ rfl
    exact ⟨rfl, offset, rfl⟩

theorem reads_literal_number {negative : Bool} {m : Nat} {e : Int} (hd : Number.IsDouble m e)
    (hrest : Stops rest) :
    Reads grammar (rule .primary) (ofString (Number.finite negative m e hd).render).toList rest
      (· = .number (.finite negative m e hd)) := by
  obtain ⟨c, hfirst, hchar⟩ := (starts_number negative hd).first? rest
  have hne : isOpening c = false ∧ c ≠ '"' ∧ c ≠ '\'' := by
    rcases hchar with rfl | hchar
    · decide
    · exact of_digit (P := fun c => isOpening c = false ∧ c ≠ '"' ∧ c ≠ '\'') (by decide) hchar
  refine reads_unbracketed (fun d hd => ?_) (.alt_left (.rule (.alt_right (.map (refuses_text ?_ ?_))
    (.map (reads_number hd hrest) ?_))))
  · obtain rfl := Option.some.inj (hfirst.symm.trans hd)
    exact hne.1
  · rw [hfirst]
    exact fun heq => hne.2.1 (Option.some.inj heq)
  · rw [hfirst]
    exact fun heq => hne.2.2 (Option.some.inj heq)
  · rintro _ rfl
    rfl

/-! ## Forms in brackets -/

theorem refuses_prop (h : ∀ c ∈ first? rest, c = ' ' ∨ c = '\x7d') : Refuses grammar (rule .prop) rest := by
  have hne {c : Char} (hc : c ≠ ' ' ∧ c ≠ '\x7d') : first? rest ≠ some c :=
    fun heq => (h c heq).elim hc.1 hc.2
  have hident : Refuses grammar (rule .ident) rest := by
    refine refuses_ident fun c hc => ?_
    rcases h c hc with rfl | rfl <;> rfl
  have hname : Refuses grammar (rule .propName) rest :=
    .rule (.alt (.map hident) (.map (refuses_text (hne (by decide)) (hne (by decide)))))
  have hmark := Reads.opt_none (g := grammar) (p := .lit "readonly" *> ws1)
    (.seqRight_left (.lit_of_first 'r' rfl (hne (by decide))))
  exact .rule (.map (.seq_skip hmark (.seq_left (.seqLeft_left hname))))

theorem dense_name {s : String} (hs : isIdent s = true) (rest : Bytes) : Dense ((ofString s).toList ++ rest) := by
  obtain ⟨c, cs, hlist, hc, -⟩ := exists_of_isIdent hs
  refine .of_string c (by rw [hlist]; rfl) (isBlank_of_part ?_) rest
  rw [isIdentPart, hc, Bool.true_or]

theorem dense_propText {p : Property Ty} (hname : ∃ s : String, p.name = s ∧ isIdent s = true) (r : Bytes) :
    Dense ((propText p).toList ++ r) := by
  obtain ⟨s, hname, hs⟩ := hname
  simp only [propText, hname, toList_append, List.append_assoc]
  cases p.readonly with
  | true => exact .of_string 'r' rfl rfl _
  | false => exact dense_name hs _

/-- The properties, up to the brace behind them. -/
theorem reads_props {ps : List (Property Ty)} (hnames : ∀ p ∈ ps, ∃ s : String, p.name = s ∧ isIdent s = true)
    (h : ∀ p ∈ ps, Legible D p.type) {blank : Bytes}
    (hblank : Reads grammar ws blank ((ofString "\x7d").toList ++ rest) fun _ => True)
    (hrest : Ends ['|', '&', '['] (blank ++ ((ofString "\x7d").toList ++ rest)))
    (hfirst : ∀ c ∈ first? (blank ++ ((ofString "\x7d").toList ++ rest)), c = ' ' ∨ c = '\x7d') :
    Reads grammar (orEmpty (rule .propList)) (Text.joinWith "; " (ps.map propText)).toList
      (blank ++ ((ofString "\x7d").toList ++ rest)) (List.Forall₂ (PropWritten D) ps) := by
  have hsep (r : Bytes) (hr : Dense r) :
      Reads grammar (ws *> .cls "[;,]" (fun c => c == ';' || c == ',') *> ws) (ofString "; ").toList r
        fun _ => True :=
    reads_spaced_mark rfl rfl hr (show Reads grammar _ (ofString ";").toList _ _ from .cls _ (c := ';') rfl _)
  refine reads_pieces (fun h => .rule h) (fun h => .rule h) hsep (fun p hp r hr => ?_)
    (fun p hp => dense_propText (hnames p hp)) (fun _ _ r => .of_string ';' rfl rfl _) hrest
    (.seqRight_right hblank (.cls fun c hc => ?_)) (refuses_prop hfirst)
  · obtain ⟨s, hname, hs⟩ := hnames p hp
    exact reads_prop hname hs (h p hp) hr
  · rw [first?_append (c := '\x7d') rfl] at hc
    obtain rfl := Option.some.inj hc
    rfl

/-- What stands in braces is tried after functions and parentheses, which start otherwise. -/
theorem reads_braces {ps : List (Property Ty)} {front : Bytes} (hfirst : first? (front ++ rest) = some '\x7b')
    (hread : Reads grammar (.lit "\x7b" *> ws *> orEmpty (rule .propList) <* ws <* .lit "\x7d") front rest
      (List.Forall₂ (PropWritten D) ps)) :
    Reads grammar (rule .primary) front rest fun v => ∃ qs, v = .object qs ∧ List.Forall₂ (PropWritten D) ps qs := by
  have hne : first? (front ++ rest) ≠ some '(' := by
    rw [hfirst]
    decide
  exact .rule (.alt_right (refuses_function hne) (.alt_right (refuses_parens hne)
    (.alt_left (.rule (.map hread fun qs hqs => ⟨qs, rfl, hqs⟩)))))

/-- **A printed object is read as it is.** -/
theorem reads_object {ps : List (Property Ty)}
    (hnames : ∀ p ∈ ps, ∃ s : String, p.name = s ∧ isIdent s = true)
    (h : ∀ p ∈ ps, Legible D p.type) (rest : Bytes) :
    Reads grammar (rule .primary) (Ty.object "" ps).render.toList rest
      fun v => ∃ qs, v = .object qs ∧ List.Forall₂ (PropWritten D) ps qs := by
  rw [render_object]
  cases ps with
  | nil =>
    have hclose : Reads grammar ws [] ((ofString "\x7d").toList ++ rest) fun _ => True :=
      reads_ws (.of_string '\x7d' rfl rfl rest)
    have hinside := reads_props hnames h hclose (.of_string '\x7d' rfl rfl rest) fun c hc => .inr (by
      rw [List.nil_append, first?_append (c := '\x7d') rfl] at hc
      exact (Option.some.inj hc).symm)
    exact reads_braces (first?_append rfl rest) (reads_enclosed "\x7b" "\x7d" hclose hinside hclose)
  | cons p ps =>
    -- one space inside either brace
    have hspace : Reads grammar ws (ofString " ").toList ((ofString "\x7d").toList ++ rest) fun _ => True :=
      reads_ws_space (.of_string '\x7d' rfl rfl rest)
    have hinside := reads_props hnames h hspace (.of_space '\x7d' rfl rfl rest) fun c hc => .inl (by
      rw [first?_append (c := ' ') rfl] at hc
      exact (Option.some.inj hc).symm)
    have hopen : Reads grammar ws (ofString " ").toList ((Text.joinWith "; " ((p :: ps).map propText)).toList ++
        ((ofString " ").toList ++ ((ofString "\x7d").toList ++ rest))) fun _ => True := by
      rw [List.map_cons, Ty.toList_joinWith_cons, List.append_assoc]
      exact reads_ws_space (dense_propText (hnames p (by simp)) _)
    have hfront : (ofString "\x7b ").toList ++ (Text.joinWith "; " ((p :: ps).map propText)).toList ++
        (ofString " \x7d").toList = (ofString "\x7b").toList ++ (ofString " ").toList ++
          (Text.joinWith "; " ((p :: ps).map propText)).toList ++ (ofString " ").toList ++
            (ofString "\x7d").toList := by
      rw [List.append_assoc _ (ofString " ").toList (ofString "\x7d").toList]
      rfl
    show Reads grammar (rule .primary) (_ : Text).toList rest _
    rw [if_neg (by simp), toList_append, toList_append, hfront]
    exact reads_braces (by simp [first?_append]) (reads_enclosed "\x7b" "\x7d" hopen hinside hspace)

/-- A comma, with a space behind it, between two pieces. -/
theorem reads_comma {r : Bytes} (hr : Dense r) :
    Reads grammar (ws *> .lit "," *> ws) (ofString ", ").toList r fun _ => True :=
  reads_spaced_mark rfl rfl hr (.lit "," _)

theorem refuses_comma {c : Char} {s : String} (hs : s.toList.head? = some c)
    (hc : isBlank c = false ∧ c ≠ ',') (rest : Bytes) :
    Refuses grammar (ws *> .lit ",") ((ofString s).toList ++ rest) := by
  refine Refuses.map (.seq_skip (reads_ws (.of_string c hs hc.1 rest)) (.lit_of_first ',' rfl ?_))
  rw [first?_append hs]
  exact fun heq => hc.2 (Option.some.inj heq)

/-- No type starts with a closing bracket. -/
theorem refuses_type_of_closed (h : first? rest = some ']') : Refuses grammar (rule .type) rest := by
  have hne {c : Char} (hc : c ≠ ']') : first? rest ≠ some c := by
    rw [h]
    exact fun heq => hc (Option.some.inj heq).symm
  have hpart {f : Char → Bool} (hf : f ']' = false) : ∀ c ∈ first? rest, f c = false := by
    intro c hc
    obtain rfl := Option.some.inj (h.symm.trans hc)
    exact hf
  have hliteral : Refuses grammar (rule .literal) rest :=
    .rule (.alt (.map (refuses_text (hne (by decide)) (hne (by decide))))
      (.map (refuses_number (hne (by decide)) (hpart (f := fun c => '0' ≤ c && c ≤ '9') rfl))))
  have hprimary : Refuses grammar (rule .primary) rest :=
    .rule (.alt (refuses_function (hne (by decide))) (.alt (refuses_parens (hne (by decide)))
      (.alt (refuses_object (hne (by decide))) (.alt (refuses_tuple (hne (by decide)))
        (.alt hliteral (.alt (refuses_keyof (hne (by decide))) (.alt (refuses_genericArray (hne (by decide)))
          (.rule (.act (refuses_ident (hpart rfl)))))))))))
  have hnone {c : Char} (text : String) (htext : text.toList.head? = some c) (hc : c ≠ ']') :
      Reads grammar (.opt (.lit text *> ws)) [] rest (· = none) :=
    .opt_none (.seqRight_left (.lit_of_first c htext (hne hc)))
  have hintersection : Refuses grammar (rule .intersection) rest :=
    .rule (.map (.seqRight_right (hnone "&" rfl (by decide)) (.map (.seq_left
      (.rule (.map (.seq_left hprimary)))))))
  exact .rule (.map (.seqRight_right (hnone "|" rfl (by decide)) (.map (.seq_left hintersection))))

/-- **A printed tuple is read as it is**, place by place. -/
theorem reads_tuple {slots : List Slot}
    (h : ∀ s ∈ slots, ∀ r, (∀ c ∈ first? r, isEnd ['|', '&', '[', '?'] c = true) →
      Reads grammar (rule .elem) (slotText s).toList r (SlotWritten D s))
    (hdense : ∀ s ∈ slots, ∀ r, Dense ((slotText s).toList ++ r)) (rest : Bytes) :
    Reads grammar (rule .primary)
      ((ofString "[").toList ++ (Text.joinWith ", " (slots.map slotText)).toList ++ (ofString "]").toList) rest
      fun v => ∃ es, v = .tuple es ∧ List.Forall₂ (SlotWritten D) slots es := by
  have hfirst := first?_append (s := "]") rfl rest
  have hend : ∀ c ∈ first? ((ofString "]").toList ++ rest), isEnd ['|', '&', '[', '?'] c = true := by
    intro c hc
    obtain rfl := Option.some.inj (hfirst.symm.trans hc)
    rfl
  have helem : Refuses grammar (rule .elem) ((ofString "]").toList ++ rest) := by
    refine .rule (.alt (.act (.seqRight_left (.seqRight_left (.lit_of_first '.' rfl ?_))))
      (.act (.seq_left (.seqLeft_left (refuses_type_of_closed hfirst)))))
    rw [hfirst]
    decide
  have hinside : Reads grammar (orEmpty (rule .elemList)) (Text.joinWith ", " (slots.map slotText)).toList
      ((ofString "]").toList ++ rest) (List.Forall₂ (SlotWritten D) slots) := by
    refine reads_pieces (fun h => .rule h) (fun h => .rule h) (fun _ => reads_comma) h hdense
      (fun _ _ r c hc => ?_) hend (refuses_comma rfl (by decide) rest) helem
    rw [first?_append (c := ',') rfl] at hc
    obtain rfl := Option.some.inj hc
    rfl
  have hclose : Dense ((ofString "]").toList ++ rest) := .of_string ']' rfl rfl rest
  have hread := reads_enclosed "[" "]" (reads_ws (dense_joinWith hdense hclose)) hinside
    (show Reads grammar ws [] _ _ from reads_ws hclose)
  rw [List.append_nil, List.append_nil] at hread
  have hne {c : Char} (hc : c ≠ '[') : first? ((ofString "[").toList ++
      (Text.joinWith ", " (slots.map slotText)).toList ++ (ofString "]").toList ++ rest) ≠ some c := by
    rw [List.append_assoc, List.append_assoc, first?_append (c := '[') rfl]
    exact fun heq => hc (Option.some.inj heq).symm
  exact .rule (.alt_right (refuses_function (hne (by decide))) (.alt_right (refuses_parens (hne (by decide)))
    (.alt_right (refuses_object (hne (by decide))) (.alt_left (.rule (.map hread fun es hes => ⟨es, rfl, hes⟩))))))

/-- Parameters in parentheses. -/
theorem reads_params {ps : List (Param Ty)} (hnames : ∀ p ∈ ps, isIdent p.name = true)
    (h : ∀ p ∈ ps, Legible D p.type) (rest : Bytes) :
    Reads grammar (rule .params)
      ((ofString "(").toList ++ (Text.joinWith ", " (ps.map argText)).toList ++ (ofString ")").toList) rest
      (List.Forall₂ (ParamWritten D) ps) := by
  have hfirst := first?_append (s := ")") rfl rest
  have hend : ∀ c ∈ first? ((ofString ")").toList ++ rest), isEnd ['|', '&', '['] c = true := by
    intro c hc
    obtain rfl := Option.some.inj (hfirst.symm.trans hc)
    rfl
  have hparam : Refuses grammar (rule .param) ((ofString ")").toList ++ rest) := by
    refine refuses_param_of_first (by rw [hfirst]; decide) fun c hc => ?_
    obtain rfl := Option.some.inj (hfirst.symm.trans hc)
    rfl
  have hdense : ∀ p ∈ ps, ∀ r, Dense ((argText p).toList ++ r) := by
    intro p hp r
    simp only [argText, toList_append, List.append_assoc]
    cases p.rest with
    | true => exact .of_string '.' rfl rfl _
    | false => exact dense_name (hnames p hp) _
  have hinside : Reads grammar (orEmpty (rule .paramList)) (Text.joinWith ", " (ps.map argText)).toList
      ((ofString ")").toList ++ rest) (List.Forall₂ (ParamWritten D) ps) :=
    reads_pieces (fun h => .rule h) (fun h => .rule h) (fun _ => reads_comma)
      (fun p hp r hr => reads_param (hnames p hp) (h p hp) hr) hdense (fun _ _ r => .of_string ',' rfl rfl _)
      (.here hend) (refuses_comma rfl (by decide) rest) hparam
  have hclose : Dense ((ofString ")").toList ++ rest) := .of_string ')' rfl rfl rest
  have hread := reads_enclosed "(" ")" (reads_ws (dense_joinWith hdense hclose)) hinside
    (show Reads grammar ws [] _ _ from reads_ws hclose)
  rw [List.append_nil, List.append_nil] at hread
  exact .rule hread

/-- **A printed function is read as it is.** Its result goes on as far as a type can. -/
theorem reads_function {ps : List (Param Ty)} (hnames : ∀ p ∈ ps, isIdent p.name = true)
    (h : ∀ p ∈ ps, Legible D p.type) (ht : Legible D t) (hrest : Ends ['|', '&', '['] rest) :
    Reads grammar (rule .primary) (Ty.function ps t).render.toList rest
      fun v => ∃ qs x, v = .function qs x ∧ List.Forall₂ (ParamWritten D) ps qs ∧ D t x := by
  have harrow : Reads grammar (ws *> .lit "=>" *> ws *> rule .type)
      ((ofString " => ").toList ++ t.render.toList) rest (D t) :=
    (((reads_ws_space (.of_string '=' rfl rfl _)).seqRight (.lit "=>" _)).seqRight
      (reads_ws_space (ht.dense rest))).seqRight (ht.type hrest)
  have hfront : (Ty.function ps t).render.toList = (ofString "(").toList ++
      (Text.joinWith ", " (ps.map argText)).toList ++ (ofString ")").toList ++
        ((ofString " => ").toList ++ t.render.toList) := by
    rw [render, renderParams_eq_map hnames, toList_append, toList_append, toList_append, ← List.append_assoc,
      List.append_assoc _ (ofString ")").toList (ofString " => ").toList]
    rfl
  rw [hfront]
  refine .rule (.alt_left (.rule (.map ((reads_params hnames h _).seq harrow) ?_)))
  rintro ⟨qs, x⟩ ⟨hqs, hx⟩
  exact ⟨qs, x, rfl, hqs, hx⟩

/-- **A type in parentheses is read as the type**: what stands in them is no parameter. -/
theorem reads_parens (ht : Legible D t) (rest : Bytes) :
    Reads grammar (rule .primary) (parens true t.render).toList rest (D t) := by
  have hclose : Dense ((ofString ")").toList ++ rest) := .of_string ')' rfl rfl rest
  have hopen : Reads grammar (.lit "(" *> ws) (ofString "(").toList
      (t.render.toList ++ ((ofString ")").toList ++ rest)) fun _ => True :=
    (Reads.lit "(" _).seqRight (y := []) (reads_ws (ht.dense _))
  have hparams : Refuses grammar (rule .params)
      ((ofString "(").toList ++ (t.render.toList ++ ((ofString ")").toList ++ rest))) := by
    have hnone := reads_orEmpty_nil (p := rule .paramList) (.rule (refuses_listed
      (refuses_param ht.writable ht.canonical (.of_string (s := ")") ')' rfl rfl rest))))
    have hlist := (hopen.seqRight (y := []) hnone).seqLeft (y := []) (reads_ws (ht.dense _))
    exact .rule (.seqLeft_right hlist (.lit_of_first ')' rfl (ht.starts.first?_ne _ rfl)))
  -- functions are tried first, so the parentheses must not open a list of parameters
  have hfunction : Refuses grammar (rule .function)
      ((ofString "(").toList ++ (t.render.toList ++ ((ofString ")").toList ++ rest))) :=
    .rule (.map (.seq_left hparams))
  have hend : Ends ['|', '&', '['] ((ofString ")").toList ++ rest) := .of_string ')' rfl rfl rest
  have hread := ((hopen.seqRight (ht.type hend)).seqLeft (y := []) (reads_ws hclose)).seqLeft (.lit ")" rest)
  rw [List.append_nil] at hread
  rw [parens, if_pos rfl, toList_append, toList_append]
  refine .rule (.alt_right ?_ (.alt_left (.rule hread)))
  rw [List.append_assoc, List.append_assoc]
  exact hfunction

/-! ## The levels of the grammar -/

/-- A type is read as `D` says at each level of the grammar that its print can stand at. -/
structure Levels (D : Ty → TypeExpr → Prop) (t : Ty) : Prop extends Legible D t where
  intersection : ∀ {rest : Bytes}, t.isUnion = false → Ends ['&', '['] rest →
    Reads grammar (rule .intersection) (parens t.isFunction t.render).toList rest (D t)
  suffixed : ∀ {rest : Bytes} (n : Nat), Ends ['['] rest →
    Reads grammar (rule .suffixed) ((parens t.isCompound t.render).toList ++ brackets n) rest
      fun v => ∃ x, D t x ∧ v = arrays n x

theorem reads_lone {s : Text} (hstart : Starts (isLead · = true) s.toList) (hrest : Ends ['|', '&', '['] rest)
    (h : Reads grammar (rule .intersection) s.toList rest Q) : Reads grammar (rule .type) s.toList rest Q :=
  .rule (reads_chain_single rfl ⟨rfl, rfl⟩ hstart h (hrest.refuses rfl (by decide)))

theorem reads_lone_part {s : Text} (hstart : Starts (isLead · = true) s.toList) (hrest : Ends ['&', '['] rest)
    (h : Reads grammar (rule .suffixed) s.toList rest Q) : Reads grammar (rule .intersection) s.toList rest Q :=
  .rule (reads_chain_single rfl ⟨rfl, rfl⟩ hstart h (hrest.refuses rfl (by decide)))

theorem reads_unsuffixed {front : Bytes}
    (h : Reads grammar (rule .suffixed) (front ++ brackets 0) rest fun v => ∃ x, Q x ∧ v = arrays 0 x) :
    Reads grammar (rule .suffixed) front rest Q := by
  rw [brackets, List.append_nil] at h
  refine h.imp ?_
  rintro _ ⟨x, hx, rfl⟩
  exact hx

theorem reads_lone_primary {front : Bytes} (hrest : Ends ['['] rest)
    (h : Reads grammar (rule .primary) front rest Q) : Reads grammar (rule .suffixed) front rest Q :=
  reads_unsuffixed (reads_suffixed 0 hrest h)

/-- A type that is read at the level of the suffixes without parentheses is read everywhere. -/
theorem Levels.of_suffixed (ht : Writable t) (hc : Canonical t) (hcompound : t.isCompound = false)
    (h : ∀ {rest : Bytes} (n : Nat), Ends ['['] rest →
      Reads grammar (rule .suffixed) (t.render.toList ++ brackets n) rest fun v => ∃ x, D t x ∧ v = arrays n x) :
    Levels D t := by
  have hstart := starts_render ht hc
  have hpart {rest : Bytes} (hrest : Ends ['&', '['] rest) :
      Reads grammar (rule .intersection) t.render.toList rest (D t) :=
    reads_lone_part hstart hrest (reads_unsuffixed (h 0 (hrest.mono (by simp))))
  refine ⟨⟨ht, hc, fun hrest => reads_lone hstart hrest (hpart (hrest.mono (by simp)))⟩, fun _ hrest => ?_,
    fun n hrest => ?_⟩
  · have hfunction : t.isFunction = false := by
      cases t with
      | function _ _ => cases hcompound
      | _ => rfl
    rw [parens, hfunction]
    exact hpart hrest
  · rw [parens, hcompound]
    exact h n hrest

theorem Levels.of_primary (ht : Writable t) (hc : Canonical t) (hcompound : t.isCompound = false)
    (h : ∀ {rest : Bytes}, Ends [] rest → Reads grammar (rule .primary) t.render.toList rest (D t)) :
    Levels D t :=
  .of_suffixed ht hc hcompound fun n hrest => reads_suffixed n hrest (h (ends_brackets n hrest))

/-- A compound type is read in parentheses. -/
theorem Legible.suffixed (h : Legible D t) (hcompound : t.isCompound = true) (n : Nat)
    (hrest : Ends ['['] rest) :
    Reads grammar (rule .suffixed) ((parens t.isCompound t.render).toList ++ brackets n) rest
      fun v => ∃ x, D t x ∧ v = arrays n x := by
  rw [hcompound]
  exact reads_suffixed n hrest (reads_parens h _)

/-- A word that is no other form is read everywhere. -/
theorem Levels.of_word (s : String)
    (hs : isIdent s = true ∧ s.toList.head? ≠ some 'k' ∧ s.toList.head? ≠ some 'A') (ht : Writable t)
    (hc : Canonical t) (hrender : t.render = s) (hcompound : t.isCompound = false)
    (h : ∀ offset, D t (.name s offset)) : Levels D t := by
  refine .of_primary ht hc hcompound fun hrest => ?_
  rw [hrender]
  refine (reads_name hs.1 hs.2.1 hs.2.2 hrest.not_part).imp ?_
  rintro _ ⟨offset, rfl⟩
  exact h offset

theorem Legible.starts_array (h : Legible D t) :
    Starts (isLead · = true) (parens t.isCompound t.render ++ "[]" : Text).toList := by
  rw [toList_append]
  exact (starts_parens h.starts).append _

/-- The rest of a tuple is read as an array of what the tuple goes on with. -/
theorem Levels.array (h : Levels D t) (hrest : Ends ['|', '&', '['] rest) :
    Reads grammar (rule .type) (parens t.isCompound t.render ++ "[]" : Text).toList rest
      fun v => ∃ x, v = .array x ∧ D t x := by
  have hread := h.suffixed 1 (hrest.mono (by simp))
  rw [brackets, brackets, List.append_nil, ← toList_append] at hread
  refine reads_lone h.starts_array hrest (reads_lone_part h.starts_array (hrest.mono (by simp))
    (hread.imp ?_))
  rintro _ ⟨x, hx, rfl⟩
  exact ⟨x, rfl, hx⟩

section Forms

variable (hD : ∀ {t : Ty} {x : TypeExpr}, Written D t x → D t x)

include hD

theorem levels_tuple {elems : List (Elem Ty)} {o : Option Ty} (ht : Writable (.tuple elems o))
    (hc : Canonical (.tuple elems o)) (h : ∀ s ∈ (Ty.tuple elems o).parts, Levels D s) :
    Levels D (.tuple elems o) := by
  have helem {e : Elem Ty} (he : e ∈ elems) : Levels D e.type :=
    h _ (List.mem_append_left _ (List.mem_map_of_mem he))
  have hspread {t : Ty} (ht : t ∈ o.toList) : Levels D t := h t (List.mem_append_right _ ht)
  by_cases harray : elems = [] → o = none
  · refine .of_primary ht hc rfl fun {rest} _ => ?_
    rw [render_tuple harray, toList_append, toList_append]
    refine (reads_tuple (D := D) (fun slot hslot r hr => ?_) (fun slot hslot r => ?_) rest).imp ?_
    · rcases List.mem_append.1 hslot with hslot | hslot
      · obtain ⟨e, he, rfl⟩ := List.mem_map.1 hslot
        exact reads_elem (helem he).toLegible hr
      · obtain ⟨t, ht, rfl⟩ := List.mem_map.1 hslot
        have hend : Ends ['|', '&', '['] r := .here fun c hc => isEnd_mono (by decide) (hr c hc)
        rw [slotText, toList_append, toList_append, List.append_assoc, ← toList_append]
        exact reads_spread ((hspread ht).starts_array.dense r) ((hspread ht).array hend)
    · rcases List.mem_append.1 hslot with hslot | hslot
      · obtain ⟨e, he, rfl⟩ := List.mem_map.1 hslot
        rw [slotText, toList_append, List.append_assoc]
        exact (helem he).dense _
      · obtain ⟨t, ht, rfl⟩ := List.mem_map.1 hslot
        rw [slotText, toList_append, toList_append, List.append_assoc, List.append_assoc]
        exact .of_string '.' rfl rfl _
    · rintro _ ⟨es, rfl, hes⟩
      exact hD (.tuple harray hes)
  · -- an array is its element with one pair of brackets more
    obtain ⟨rfl, ho⟩ := Classical.not_imp.1 harray
    obtain ⟨t, rfl⟩ := Option.ne_none_iff_exists'.1 ho
    refine .of_suffixed ht hc rfl fun n hrest => ?_
    rw [render, toList_append, List.append_assoc]
    refine ((hspread (by simp)).suffixed (n + 1) hrest).imp ?_
    rintro _ ⟨x, hx, rfl⟩
    exact ⟨.array x, hD (.array hx), rfl⟩

theorem levels_function {ps : List (Param Ty)} (ht : Writable (.function ps t))
    (hc : Canonical (.function ps t)) (h : ∀ s ∈ (Ty.function ps t).parts, Levels D s) :
    Levels D (.function ps t) := by
  have hstart := starts_render ht hc
  have hlegible : Legible D (.function ps t) := by
    refine ⟨ht, hc, fun hrest => reads_lone hstart hrest (reads_lone_part hstart (hrest.mono (by simp))
      (reads_lone_primary (hrest.mono (by simp)) ?_))⟩
    refine (reads_function (fun p hp => (ht.own.1 p hp).1)
      (fun p hp => (h _ (List.mem_append_left _ (List.mem_map_of_mem hp))).toLegible)
      (h t (List.mem_append_right _ (by simp))).toLegible hrest).imp ?_
    rintro _ ⟨qs, x, rfl, hqs, hx⟩
    exact hD (.function hqs hx)
  -- as a part of anything else it stands in parentheses
  refine ⟨hlegible, fun _ hrest => ?_, fun n => hlegible.suffixed rfl n⟩
  exact reads_lone_part (starts_parens hstart) hrest
    (reads_lone_primary (hrest.mono (by simp)) (reads_parens hlegible _))

theorem levels_union {ms : List Ty} (ht : Writable (.union ms)) (hc : Canonical (.union ms))
    (h : ∀ m ∈ ms, Levels D m) : Levels D (.union ms) := by
  have hlegible : Legible D (.union ms) := by
    refine ⟨ht, hc, fun {rest} hrest => ?_⟩
    have hneat := hc.neat
    obtain ⟨m, ms, rfl⟩ := List.exists_cons_of_ne_nil (List.ne_nil_of_length_pos
      (Nat.lt_of_lt_of_le (by decide) hneat.1))
    rw [render, renderAlternatives_eq_map]
    refine .rule ((reads_chain (R := D) (F := Ends ['&', '[']) (show "|".toList.head? = some '|' from rfl) ⟨rfl, rfl⟩ rfl
      (fun m hm r hr => (h m hm).intersection ?_ hr)
      (fun m hm => starts_parens (starts_render (ht.part hm) (hc.part hm)))
      (fun _ _ r => .of_space (s := "| ") '|' rfl rfl _) (hrest.mono (by simp))
      (hrest.refuses rfl (by decide))).imp ?_)
    · exact (Ty.isMember_iff.1 (hneat.2.2 m hm)).1
    · rintro _ ⟨xs, hxs, rfl⟩
      rw [orSingle_of_two (hxs.length_eq ▸ hneat.1)]
      exact hD (.union hxs)
  exact ⟨hlegible, fun hunion => Bool.noConfusion hunion, fun n => hlegible.suffixed rfl n⟩

theorem levels_inter {ms : List Ty} (ht : Writable (.inter ms)) (hc : Canonical (.inter ms))
    (h : ∀ m ∈ ms, Levels D m) : Levels D (.inter ms) := by
  have hpart {rest : Bytes} (hrest : Ends ['&', '['] rest) :
      Reads grammar (rule .intersection) (Ty.inter ms).render.toList rest (D (.inter ms)) := by
    have hneat := hc.neat
    obtain ⟨m, ms, rfl⟩ := List.exists_cons_of_ne_nil (List.ne_nil_of_length_pos
      (Nat.lt_of_lt_of_le (by decide) hneat.1))
    rw [render, renderParts_eq_map]
    refine .rule ((reads_chain (R := D) (F := Ends ['[']) (show "&".toList.head? = some '&' from rfl) ⟨rfl, rfl⟩ rfl
      (fun m hm r hr => reads_unsuffixed ((h m hm).suffixed 0 hr))
      (fun m hm => starts_parens (starts_render (ht.part hm) (hc.part hm)))
      (fun _ _ r => .of_space (s := "& ") '&' rfl rfl _) (hrest.mono (by simp))
      (hrest.refuses rfl (by decide))).imp ?_)
    rintro _ ⟨xs, hxs, rfl⟩
    rw [orSingle_of_two (hxs.length_eq ▸ hneat.1)]
    exact hD (.inter hxs)
  have hlegible : Legible D (.inter ms) :=
    ⟨ht, hc, fun hrest => reads_lone (starts_render ht hc) hrest (hpart (hrest.mono (by simp)))⟩
  exact ⟨hlegible, fun _ => hpart, fun n => hlegible.suffixed rfl n⟩

/-- **The print of a writable type is read as what it was printed from**, at each level of the grammar. -/
theorem levels_of_writable (ht : Writable t) (hc : Canonical t) : Levels D t := by
  induction t using parts_induction with
  | step t ih =>
    have hpart {s : Ty} (hs : s ∈ t.parts) : Levels D s := ih s hs (ht.part hs) (hc.part hs)
    have hown := ht.own
    cases t with
    | literal l =>
      cases l with
      | text v => exact .of_primary ht hc rfl fun _ => (reads_literal_text v _).imp fun x hx => hx ▸ hD (.text v)
      | number n =>
        cases n with
        | finite negative m e hd =>
          exact .of_primary ht hc rfl fun hrest =>
            (reads_literal_number hd hrest.stops).imp fun x hx => hx ▸ hD (.number _)
        | infinite negative => exact absurd hown id
      | bool b =>
        cases b with
        | true => exact .of_word "true" (by decide) ht hc rfl rfl fun offset => hD (.truth true offset)
        | false => exact .of_word "false" (by decide) ht hc rfl rfl fun offset => hD (.truth false offset)
    | object tag props =>
      obtain ⟨rfl, hnames⟩ := hown
      refine .of_primary ht hc rfl fun _ => ?_
      refine (reads_object hnames (fun p hp => (hpart (List.mem_map_of_mem hp)).toLegible) _).imp ?_
      rintro _ ⟨qs, rfl, hqs⟩
      exact hD (.object hqs)
    | tuple elems o => exact levels_tuple hD ht hc fun s hs => hpart hs
    | function params ret => exact levels_function hD ht hc fun s hs => hpart hs
    | union ms => exact levels_union hD ht hc fun m hm => hpart hm
    | inter ms => exact levels_inter hD ht hc fun m hm => hpart hm
    | var name bound => exact absurd hown id
    | never => exact .of_word "never" (by decide) ht hc rfl rfl fun offset => hD (.atom rfl offset)
    | unknown => exact .of_word "unknown" (by decide) ht hc rfl rfl fun offset => hD (.atom rfl offset)
    | null => exact .of_word "null" (by decide) ht hc rfl rfl fun offset => hD (.atom rfl offset)
    | undefined => exact .of_word "undefined" (by decide) ht hc rfl rfl fun offset => hD (.atom rfl offset)
    | boolean => exact .of_word "boolean" (by decide) ht hc rfl rfl fun offset => hD (.atom rfl offset)
    | number => exact .of_word "number" (by decide) ht hc rfl rfl fun offset => hD (.atom rfl offset)
    | string => exact .of_word "string" (by decide) ht hc rfl rfl fun offset => hD (.atom rfl offset)

/-- **Parsing the print of a writable type** succeeds with what the type may be read as. -/
theorem parse_print (ht : Writable t) (hc : Canonical t) :
    ∃ x, Rule.typeEntry.parse t.render.toList = .ok x ∧ D t x := by
  -- the entry rule allows blanks on either side and wants nothing behind
  have hlevels := levels_of_writable hD ht hc
  have hstart : Dense (t.render.toList ++ []) := hlevels.dense []
  have hnothing : Dense [] := fun c hc => by simp at hc
  have heof : Reads grammar (rule .eof) [] [] fun _ => True := .rule (.not .any)
  have hentry := (((reads_ws hstart).seqRight (hlevels.type (.nil _))).seqLeft (y := [])
    (reads_ws hnothing)).seqLeft (y := []) heof
  rw [List.append_nil, List.append_nil, List.nil_append] at hentry
  have hread : Reads grammar (rule .typeEntry) t.render.toList [] (D t) := .rule hentry
  have hspelled : Spelled (t.render.toList ++ []) := by
    rw [List.append_nil]
    exact Ty.spelled_render ht
  obtain ⟨x, hparse, hx⟩ := hread.parse hspelled fun cur tr more hcur hmore => by
    rw [← hcur] at hmore ⊢
    exact Rule.match?_stepBound _ hmore
  rw [List.append_nil] at hparse
  exact ⟨x, hparse, hx⟩

end Forms

end FlowTyping.Notation.Body
