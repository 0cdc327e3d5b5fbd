import FlowTyping.Notation.Resolve
import FlowTyping.Proofs.Notation.Writable

/-!
# The pieces of a print are read as what they were printed from

Between the brackets of a print stand properties, parameters and places, each with a type in it. If the
type is read as what it was printed from, so is the piece around it. What is no piece is refused: a print
is no parameter, so that a type in parentheses is not taken for the parameters of a function.

* **`Body.Written`** — what a type may be read as, where its parts are read as `D` says.
* **`Body.refuses_param`**
* **`Body.reads_prop`**, **`Body.reads_param`**, **`Body.reads_elem`**, **`Body.reads_spread`**
-/

namespace FlowTyping.Notation.Body

open FlowTyping.Peg FlowTyping.Text
open Ty (Writable Canonical Starts Slot parens propText slotText argText slots render render_object render_tuple parts
  parts_induction renderAlternatives_eq_map renderParts_eq_map toList_joinWith_cons starts_number
  starts_render isLead)

/-! ## Written types -/

/-- A written property for a property. -/
structure PropWritten (D : Ty → TypeExpr → Prop) (p : Property Ty) (q : Property TypeExpr) : Prop where
  name : q.name = p.name
  type : D p.type q.type
  optional : q.optional = p.optional
  readonly : q.readonly = p.readonly

/-- A written parameter for a parameter. A rest parameter is never written as optional. -/
structure ParamWritten (D : Ty → TypeExpr → Prop) (p : Param Ty) (q : ParamExpr TypeExpr) : Prop where
  name : q.name = p.name
  type : D p.type q.type
  optional : q.optional = (!p.rest && p.optional)
  rest : q.rest = p.rest

/-- A written element for a place of a tuple. The rest is written as an array that is spread. -/
inductive SlotWritten (D : Ty → TypeExpr → Prop) : Slot → ElemExpr TypeExpr → Prop where
  | elem {e : Elem Ty} {x : TypeExpr} (h : D e.type x) (offset : Nat) :
    SlotWritten D (.inl e) { type := x, optional := e.optional, offset }
  | rest {t : Ty} {x : TypeExpr} (h : D t x) (offset : Nat) :
    SlotWritten D (.inr t) { type := .array x, rest := true, offset }

/-- A written type for a type, where the parts are written as `D` says. -/
inductive Written (D : Ty → TypeExpr → Prop) : Ty → TypeExpr → Prop where
  | atom {t : Ty} {name : String} (h : atomNames.lookup name = some t) (offset : Nat) :
    Written D t (.name name offset)
  | truth (b : Bool) (offset : Nat) :
    Written D (.literal (.bool b)) (.name (if b then "true" else "false") offset)
  | text (v : Bytes) : Written D (.literal (.text v)) (.text v)
  | number (n : Number) : Written D (.literal (.number n)) (.number n)
  | object {ps : List (Property Ty)} {qs : List (Property TypeExpr)}
    (h : List.Forall₂ (PropWritten D) ps qs) : Written D (.object "" ps) (.object qs)
  | array {t : Ty} {x : TypeExpr} (h : D t x) : Written D (.tuple [] (some t)) (.array x)
  | tuple {elems : List (Elem Ty)} {rest : Option Ty} {es : List (ElemExpr TypeExpr)}
    (harray : elems = [] → rest = none) (h : List.Forall₂ (SlotWritten D) (slots elems rest) es) :
    Written D (.tuple elems rest) (.tuple es)
  | function {ps : List (Param Ty)} {r : Ty} {qs : List (ParamExpr TypeExpr)} {x : TypeExpr}
    (hp : List.Forall₂ (ParamWritten D) ps qs) (hr : D r x) : Written D (.function ps r) (.function qs x)
  | union {ms : List Ty} {xs : List TypeExpr} (h : List.Forall₂ D ms xs) :
    Written D (.union ms) (.union xs)
  | inter {ms : List Ty} {xs : List TypeExpr} (h : List.Forall₂ D ms xs) :
    Written D (.inter ms) (.inter xs)

variable {t : Ty}

theorem not_start_of_digit {c : Char} (hc : ('0' ≤ c && c ≤ '9') = true) :
    c ≠ '.' ∧ isIdentStart c = false :=
  of_digit (P := fun c => c ≠ '.' ∧ isIdentStart c = false) (by decide) hc

/-! ## What is no parameter -/

theorem refuses_param_of_first {bytes : Bytes} (hpoint : first? bytes ≠ some '.')
    (hstart : ∀ c ∈ first? bytes, isIdentStart c = false) : Refuses grammar (rule .param) bytes := by
  have hspread := Reads.opt_none (g := grammar) (p := .lit "..." *> ws)
    (.seqRight_left (.lit_of_first '.' rfl hpoint))
  exact .rule (.act (.seq_skip hspread (.seq_left (.seqLeft_left (refuses_ident hstart)))))

/-- A word without a colon behind it is no parameter. -/
theorem refuses_param_word {word : String} (hword : isIdent word = true) {rest : Bytes}
    (hrest : Ends ['?', ':'] rest) : Refuses grammar (rule .param) ((ofString word).toList ++ rest) := by
  obtain ⟨c, cs, hlist, hc, -⟩ := exists_of_isIdent hword
  have hfirst : first? ((ofString word).toList ++ rest) = some c := first?_append (by rw [hlist]; rfl) rest
  have hspread : Reads grammar (.opt (.lit "..." *> ws)) [] ((ofString word).toList ++ rest) (· = none) :=
    .opt_none (.seqRight_left (.lit_of_first '.' rfl (by
      rw [hfirst]
      rintro heq
      obtain rfl := Option.some.inj heq
      exact absurd hc (by decide))))
  have hname := reads_ident hword hrest.not_part
  obtain ⟨blank, tail, rfl, hblank, htail⟩ := hrest.blanks
  have hmark := Reads.opt_none (g := grammar) (p := .lit "?")
    (.lit_of_first '?' rfl fun heq => isEnd_ne_mark (by decide) (htail '?' heq) rfl)
  have hcolon : Refuses grammar (ws *> .lit ":") tail :=
    Refuses.seqRight_right (reads_ws (dense_of_isEnd htail))
      (.lit_of_first ':' rfl fun heq => isEnd_ne_mark (by decide) (htail ':' heq) rfl)
  have htype : Refuses grammar (.seq (.opt (.lit "?")) (ws *> .lit ":" *> ws *> rule .type)) tail :=
    .seq_skip hmark (.seqRight_left (.seqRight_left hcolon))
  have hrefuse := Refuses.seq_right (hname.seqLeft hblank) htype
  rw [List.append_assoc] at hrefuse
  exact .rule (.act (.seq_skip hspread hrefuse))

/-- What starts with neither a letter nor a point is no parameter. -/
theorem refuses_param_string {s : String} {c : Char} (hs : s.toList.head? = some c)
    (hc : c ≠ '.' ∧ isIdentStart c = false) (tail : Bytes) :
    Refuses grammar (rule .param) ((ofString s).toList ++ tail) := by
  have hfirst := first?_append hs tail
  refine refuses_param_of_first (fun heq => ?_) fun d hd => ?_
  · exact hc.1 (Option.some.inj (hfirst.symm.trans heq))
  · exact Option.some.inj (hfirst.symm.trans hd) ▸ hc.2

theorem refuses_param_parens {needed : Bool} {s : Text} {tail : Bytes}
    (h : Refuses grammar (rule .param) (s.toList ++ tail)) :
    Refuses grammar (rule .param) ((parens needed s).toList ++ tail) := by
  unfold parens
  split
  · rw [toList_append, toList_append, List.append_assoc, List.append_assoc]
    exact refuses_param_string (c := '(') rfl (by decide) _
  · exact h

/-- A joined print is no parameter if the first of its pieces is none. -/
theorem refuses_param_joined {needs : Ty → Bool} {sep : String} {m : Ty} {ms : List Ty} {rest : Bytes}
    (hrest : Ends ['?', ':'] rest) (hsep : ∀ tail, Ends ['?', ':'] ((ofString sep).toList ++ tail))
    (h : ∀ {tail : Bytes}, Ends ['?', ':'] tail → Refuses grammar (rule .param) (m.render.toList ++ tail)) :
    Refuses grammar (rule .param)
      ((Text.joinWith sep ((m :: ms).map fun t => parens (needs t) t.render)).toList ++ rest) := by
  rw [List.map_cons, toList_joinWith_cons, List.append_assoc]
  refine refuses_param_parens (h ?_)
  cases ms with
  | nil => exact hrest
  | cons n ms =>
    rw [List.map_cons, List.flatMap_cons, List.append_assoc, List.append_assoc]
    exact hsep _

theorem refuses_param_literal {l : Literal} (ht : Writable (.literal l)) {rest : Bytes}
    (hrest : Ends ['?', ':'] rest) : Refuses grammar (rule .param) ((Ty.literal l).render.toList ++ rest) := by
  cases l with
  | text v =>
    rw [render]
    show Refuses grammar (rule .param) ((ofString (quote v)).toList ++ rest)
    rw [toList_quote, List.append_assoc]
    exact refuses_param_string (s := "\"") (c := '"') rfl (by decide) _
  | number n =>
    cases n with
    | finite negative m e hd =>
      obtain ⟨c, hfirst, hchar⟩ := (starts_number negative hd).first? rest
      have hsign : c ≠ '.' ∧ isIdentStart c = false := by
        rcases hchar with rfl | hchar
        · decide
        · exact not_start_of_digit hchar
      refine refuses_param_of_first (fun heq => ?_) fun d hd => ?_
      · exact hsign.1 (Option.some.inj (hfirst.symm.trans heq))
      · exact Option.some.inj (hfirst.symm.trans hd) ▸ hsign.2
    | infinite negative => exact absurd ht.own id
  | bool b => cases b <;> exact refuses_param_word (by decide) hrest

/-- **A print is no parameter**, unless a colon follows. -/
theorem refuses_param (ht : Writable t) (hc : Canonical t) {rest : Bytes} (hrest : Ends ['?', ':'] rest) :
    Refuses grammar (rule .param) (t.render.toList ++ rest) := by
  -- a print that starts with a part is settled by what is known of the part, whatever follows it there
  induction t using parts_induction generalizing rest with
  | step t ih =>
    have hpart {s : Ty} (hs : s ∈ t.parts) {rest : Bytes} (hrest : Ends ['?', ':'] rest) :=
      ih s hs (ht.part hs) (hc.part hs) hrest
    have hown := ht.own
    cases t with
    | literal l => exact refuses_param_literal ht hrest
    | object tag props =>
      obtain ⟨rfl, -⟩ := hown
      rw [render_object]
      split
      · exact refuses_param_string (s := "\x7b\x7d") (c := '\x7b') rfl (by decide) _
      · rw [toList_append, toList_append, List.append_assoc, List.append_assoc]
        exact refuses_param_string (s := "\x7b ") (c := '\x7b') rfl (by decide) _
    | tuple elems o =>
      by_cases harray : elems = [] → o = none
      · rw [render_tuple harray, toList_append, toList_append, List.append_assoc, List.append_assoc]
        exact refuses_param_string (s := "[") (c := '[') rfl (by decide) _
      · obtain ⟨rfl, ho⟩ := Classical.not_imp.1 harray
        obtain ⟨r, rfl⟩ := Option.ne_none_iff_exists'.1 ho
        rw [render, toList_append, List.append_assoc]
        exact refuses_param_parens (hpart (by simp [parts]) (.of_string '[' rfl rfl _))
    | function params ret =>
      rw [render]
      simp only [toList_append, List.append_assoc]
      exact refuses_param_string (s := "(") (c := '(') rfl (by decide) _
    | union ms =>
      obtain ⟨m, ms, rfl⟩ := List.exists_cons_of_ne_nil (List.ne_nil_of_length_pos
        (Nat.lt_of_lt_of_le (by decide) hc.neat.1))
      rw [render, renderAlternatives_eq_map]
      exact refuses_param_joined hrest (fun tail => .of_space '|' (s := "| ") rfl rfl tail)
        fun htail => hpart (by simp [parts]) htail
    | inter ms =>
      obtain ⟨m, ms, rfl⟩ := List.exists_cons_of_ne_nil (List.ne_nil_of_length_pos
        (Nat.lt_of_lt_of_le (by decide) hc.neat.1))
      rw [render, renderParts_eq_map]
      exact refuses_param_joined hrest (fun tail => .of_space '&' (s := "& ") rfl rfl tail)
        fun htail => hpart (by simp [parts]) htail
    | var name bound => exact absurd hown id
    | _ => exact refuses_param_word (by decide) hrest

/-! ## Properties and parameters -/

variable {D : Ty → TypeExpr → Prop} {rest : Bytes}

/-- A type whose print is read as `D` says, where neither an alternative nor a part nor brackets follow. -/
structure Legible (D : Ty → TypeExpr → Prop) (t : Ty) : Prop where
  writable : Writable t
  canonical : Canonical t
  type : ∀ {rest : Bytes}, Ends ['|', '&', '['] rest →
    Reads grammar (rule .type) t.render.toList rest (D t)

namespace Legible

theorem starts (h : Legible D t) : Starts (isLead · = true) t.render.toList :=
  starts_render h.writable h.canonical

theorem dense (h : Legible D t) (rest : Bytes) : Dense (t.render.toList ++ rest) := h.starts.dense rest

end Legible

/-- What stands behind a name: its mark, a colon and a type. -/
def typed : Body (Option Unit × TypeExpr) :=
  .seq (.opt (.lit "?")) (ws *> .lit ":" *> ws *> rule .type)

/-- What stands behind a name in print. -/
def typedText (optional : Bool) (t : Ty) : Bytes :=
  (ofString (if optional then "?" else "")).toList ++ ((ofString ": ").toList ++ t.render.toList)

/-- A mark or a colon stands behind a name. -/
theorem first?_typedText (optional : Bool) (t : Ty) (rest : Bytes) :
    ∀ c ∈ first? (typedText optional t ++ rest), c = '?' ∨ c = ':' := by
  intro c hc
  rw [typedText, List.append_assoc, List.append_assoc] at hc
  cases optional with
  | true =>
    rw [first?_append (c := '?') rfl] at hc
    exact .inl (Option.some.inj hc).symm
  | false =>
    rw [show (ofString (if false then "?" else "")).toList = [] from rfl, List.nil_append,
      first?_append (c := ':') rfl] at hc
    exact .inr (Option.some.inj hc).symm

theorem reads_typed (optional : Bool) (h : Legible D t) (hrest : Ends ['|', '&', '['] rest) :
    Reads grammar typed (typedText optional t) rest fun ab => ab.1.isSome = optional ∧ D t ab.2 := by
  have hcolon : Reads grammar (ws *> .lit ":" *> ws *> rule .type)
      ((ofString ": ").toList ++ t.render.toList) rest (D t) :=
    (((reads_ws (.of_string ':' rfl rfl _)).seqRight (.lit ":" _)).seqRight
      (reads_ws_space (h.dense rest))).seqRight (h.type hrest)
  have hmark : Reads grammar (.opt (.lit "?")) (ofString (if optional then "?" else "")).toList
      ((ofString ": ").toList ++ t.render.toList ++ rest) fun mark => mark.isSome = optional := by
    cases optional with
    | true =>
      refine (Reads.opt_some (.lit "?" _)).imp ?_
      rintro _ ⟨_, rfl, -⟩
      rfl
    | false =>
      refine (Reads.opt_none (.lit_of_first '?' rfl ?_)).imp ?_
      · rw [List.append_assoc, first?_append (c := ':') rfl]
        decide
      · rintro _ rfl
        rfl
  exact hmark.seq hcolon

/-- A name and the type behind it. -/
theorem reads_named {α : Type} {name : Body α} {front : Bytes} {P : α → Prop} (optional : Bool)
    (hname : Reads grammar name front (typedText optional t ++ rest) P) (h : Legible D t)
    (hrest : Ends ['|', '&', '['] rest) :
    Reads grammar (.seq (name <* ws) typed) (front ++ typedText optional t) rest
      fun r => P r.1 ∧ r.2.1.isSome = optional ∧ D t r.2.2 := by
  have hblank : Reads grammar ws [] (typedText optional t ++ rest) fun _ => True := by
    refine reads_ws fun c hc => ?_
    rcases first?_typedText optional t rest c hc with rfl | rfl <;> rfl
  have hleft := Reads.seqLeft (y := []) hname hblank
  rw [List.append_nil] at hleft
  exact hleft.seq (reads_typed optional h hrest)

theorem prefix_of_spell {xs ys : List Char} {bytes : Bytes} (hbytes : ∀ c ∈ first? bytes, c ∉ xs)
    (h : spell xs <+: spell ys ++ bytes) : xs <+: ys := by
  induction xs generalizing ys with
  | nil => exact List.nil_prefix
  | cons x xs ih =>
    obtain ⟨tail, htail⟩ := h
    have hfirst := @first?_spell_append (x :: xs) x rfl tail
    rw [htail] at hfirst
    cases ys with
    | nil => exact absurd (by simp) (hbytes x hfirst)
    | cons y ys =>
      rw [first?_spell_append (c := y) rfl] at hfirst
      obtain rfl := Option.some.inj hfirst
      rw [spell_cons, spell_cons, List.append_assoc, List.append_assoc] at htail
      have hrest : spell xs <+: spell ys ++ bytes := ⟨tail, List.append_cancel_left htail⟩
      exact (List.prefix_cons_inj y).2 (ih (fun c hc hmem => hbytes c hc (by simp [hmem])) hrest)

theorem isBlank_of_part {c : Char} (hc : isIdentPart c = true) : isBlank c = false := by
  by_contra hblank
  have hcases : c = ' ' ∨ c = '\t' ∨ c = '\r' ∨ c = '\n' := by
    simpa only [isBlank, Bool.or_eq_true, beq_iff_eq, or_assoc, Bool.not_eq_false] using hblank
  rcases hcases with rfl | rfl | rfl | rfl <;> exact absurd hc (by decide)

theorem reads_ws1_space (hrest : Dense rest) :
    Reads grammar ws1 (ofString " ").toList rest fun _ => True := by
  have hmany := Reads.many1 (g := grammar) (x := String.utf8EncodeChar ' ')
    (.cls "[ \\t\\r\\n]" (f := isBlank) rfl _) (.many_nil (.cls hrest))
  exact .rule (.map hmany fun _ _ => trivial)

/-- A name is not taken for the word that marks a property as read-only, for no blank stands behind. -/
theorem refuses_readonly {s : String} (hs : isIdent s = true) {bytes : Bytes}
    (hbytes : ∀ c ∈ first? bytes, c = '?' ∨ c = ':') :
    Refuses grammar (.lit "readonly" *> ws1) ((ofString s).toList ++ bytes) := by
  by_cases hprefix : (ofString "readonly").toList <+: (ofString s).toList ++ bytes
  · have hword : "readonly".toList <+: s.toList := by
      rw [toList_ofString, toList_ofString] at hprefix
      refine prefix_of_spell (fun c hc => ?_) hprefix
      rcases hbytes c hc with rfl | rfl <;> decide
    obtain ⟨ds, hds⟩ := hword
    obtain ⟨c, cs, hlist, hc, hcs⟩ := exists_of_isIdent hs
    rw [toList_ofString, ← hds, spell_append, List.append_assoc, ← toList_ofString]
    refine .seqRight_right (.lit "readonly" _) (.rule (.map (.many1 (.cls fun d hd => ?_))))
    cases ds with
    | nil => rcases hbytes d hd with rfl | rfl <;> rfl
    | cons e es =>
      rw [first?_spell_append (c := e) rfl] at hd
      obtain rfl := Option.some.inj hd
      have hmem : e ∈ cs := by
        obtain ⟨rfl, htail⟩ := List.cons.inj (hlist.symm.trans hds.symm)
        rw [htail]
        simp
      exact isBlank_of_part (hcs e hmem)
  · exact .seqRight_left (.lit hprefix)

/-- **A printed property is read as it is.** -/
theorem reads_prop {p : Property Ty} {s : String} (hname : p.name = s) (hs : isIdent s = true)
    (h : Legible D p.type) (hrest : Ends ['|', '&', '['] rest) :
    Reads grammar (rule .prop) (propText p).toList rest (PropWritten D p) := by
  have hfollow := first?_typedText p.optional p.type rest
  have hpart : ∀ c ∈ first? (typedText p.optional p.type ++ rest), isIdentPart c = false := by
    intro c hc
    rcases hfollow c hc with rfl | rfl <;> rfl
  have hpropName : Reads grammar (rule .propName) (ofString s).toList
      (typedText p.optional p.type ++ rest) (· = p.name) := by
    refine .rule (.alt_left (.map (reads_ident hs hpart) ?_))
    rintro _ rfl
    exact hname.symm
  have hmark : Reads grammar (.opt (.lit "readonly" *> ws1))
      (ofString (if p.readonly then "readonly " else "")).toList
      ((ofString s).toList ++ typedText p.optional p.type ++ rest) fun mark => mark.isSome = p.readonly := by
    rw [List.append_assoc]
    cases p.readonly with
    | true =>
      obtain ⟨c, cs, hlist, hc, -⟩ := exists_of_isIdent hs
      have hdense : Dense ((ofString s).toList ++ (typedText p.optional p.type ++ rest)) := by
        refine .of_string c (by rw [hlist]; rfl) (isBlank_of_part ?_) _
        rw [isIdentPart, hc, Bool.true_or]
      refine (Reads.opt_some (.seqRight (.lit "readonly" _) (reads_ws1_space hdense))).imp ?_
      rintro _ ⟨_, rfl, -⟩
      rfl
    | false =>
      refine (Reads.opt_none (refuses_readonly hs hfollow)).imp ?_
      rintro _ rfl
      rfl
  have hfront : (propText p).toList = (ofString (if p.readonly then "readonly " else "")).toList ++
      ((ofString s).toList ++ typedText p.optional p.type) := by
    simp only [propText, hname, toList_append, typedText, List.append_assoc]
  rw [hfront]
  refine .rule (.map (hmark.seq (reads_named p.optional hpropName h hrest)) ?_)
  rintro ⟨readonly, name, mark, x⟩ ⟨hreadonly, rfl, hoptional, hx⟩
  exact ⟨rfl, hx, hoptional, hreadonly⟩

/-- **A printed parameter is read as it is.** -/
theorem reads_param {p : Param Ty} (hs : isIdent p.name = true) (h : Legible D p.type)
    (hrest : Ends ['|', '&', '['] rest) :
    Reads grammar (rule .param) (argText p).toList rest (ParamWritten D p) := by
  have hpart : ∀ c ∈ first? (typedText (!p.rest && p.optional) p.type ++ rest), isIdentPart c = false := by
    intro c hc
    rcases first?_typedText _ p.type rest c hc with rfl | rfl <;> rfl
  obtain ⟨c, cs, hlist, hc, -⟩ := exists_of_isIdent hs
  have hfirst (bytes : Bytes) : first? ((ofString p.name).toList ++ bytes) = some c :=
    first?_append (by rw [hlist]; rfl) bytes
  have hspread : Reads grammar (.opt (.lit "..." *> ws)) (ofString (if p.rest then "..." else "")).toList
      ((ofString p.name).toList ++ typedText (!p.rest && p.optional) p.type ++ rest)
      fun spread => spread.isSome = p.rest := by
    rw [List.append_assoc]
    cases p.rest with
    | true =>
      have hblank : Reads grammar ws [] ((ofString p.name).toList ++
          (typedText (!true && p.optional) p.type ++ rest)) fun _ => True := by
        refine reads_ws fun d hd => ?_
        obtain rfl := Option.some.inj ((hfirst _).symm.trans hd)
        exact isBlank_of_part (by rw [isIdentPart, hc, Bool.true_or])
      refine (Reads.opt_some (.seqRight (.lit "..." _) hblank)).imp ?_
      rintro _ ⟨_, rfl, -⟩
      rfl
    | false =>
      refine (Reads.opt_none (.seqRight_left (.lit_of_first '.' rfl ?_))).imp ?_
      · rw [hfirst]
        rintro heq
        obtain rfl := Option.some.inj heq
        exact absurd hc (by decide)
      · rintro _ rfl
        rfl
  have hfront : (argText p).toList = (ofString (if p.rest then "..." else "")).toList ++
      ((ofString p.name).toList ++ typedText (!p.rest && p.optional) p.type) := by
    simp only [argText, toList_append, typedText, List.append_assoc]
  rw [hfront]
  refine .rule (.act (hspread.seq (reads_named _ (reads_ident hs hpart) h hrest)) ?_)
  rintro offset ⟨spread, name, mark, x⟩ ⟨hrest, hname, hoptional, hx⟩
  exact ⟨rfl, hname, hx, hoptional, hrest⟩

/-! ## Places of tuples -/

/-- **A printed element is read as it is.** -/
theorem reads_elem {e : Elem Ty} (h : Legible D e.type)
    (hrest : ∀ c ∈ first? rest, isEnd ['|', '&', '[', '?'] c = true) :
    Reads grammar (rule .elem) (slotText (.inl e)).toList rest (SlotWritten D (.inl e)) := by
  have hmark : Reads grammar (.opt (.lit "?")) (ofString (if e.optional then "?" else "")).toList rest
      fun mark => mark.isSome = e.optional := by
    cases e.optional with
    | true =>
      refine (Reads.opt_some (.lit "?" _)).imp ?_
      rintro _ ⟨_, rfl, -⟩
      rfl
    | false =>
      refine (Reads.opt_none (.lit_of_first '?' rfl fun heq => ?_)).imp ?_
      · exact isEnd_ne_mark (by decide) (hrest '?' heq) rfl
      · rintro _ rfl
        rfl
  -- the mark, or what follows, ends the type
  have hend : ∀ c ∈ first? ((ofString (if e.optional then "?" else "")).toList ++ rest),
      isEnd ['|', '&', '['] c = true := by
    intro c hc
    cases heq : e.optional with
    | true =>
      rw [heq, first?_append (c := '?') rfl] at hc
      obtain rfl := Option.some.inj hc
      rfl
    | false =>
      rw [heq] at hc
      exact isEnd_mono (by decide) (hrest c hc)
  have htype := Reads.seqLeft (y := []) (h.type (.here hend)) (reads_ws (dense_of_isEnd hend))
  rw [List.append_nil] at htype
  rw [slotText, toList_append]
  refine .rule (.alt_right (.act (.seqRight_left (.seqRight_left (.lit_of_first '.' rfl ?_))))
    (.act (htype.seq hmark) ?_))
  · rw [List.append_assoc]
    exact h.starts.first?_ne _ rfl
  · rintro offset ⟨x, mark⟩ ⟨hx, hoptional⟩
    have hoptional : mark.isSome = e.optional := hoptional
    refine ⟨rfl, ?_⟩
    show SlotWritten D (.inl e) { type := x, optional := mark.isSome, offset }
    rw [hoptional]
    exact .elem hx offset

/-- **A printed rest is read as an array that is spread.** -/
theorem reads_spread {front : Bytes} (hdense : Dense (front ++ rest))
    (h : Reads grammar (rule .type) front rest fun v => ∃ x, v = .array x ∧ D t x) :
    Reads grammar (rule .elem) ((ofString "...").toList ++ front) rest (SlotWritten D (.inr t)) := by
  have hspread := ((Reads.lit (g := grammar) "..." _).seqRight (y := []) (reads_ws hdense)).seqRight h
  rw [List.append_nil] at hspread
  refine .rule (.alt_left (.act hspread ?_))
  rintro offset _ ⟨x, rfl, hx⟩
  exact ⟨rfl, .rest hx offset⟩

/-! ## Enclosed lists -/

theorem reads_enclosed {α : Type} {p : Body (List α)} {front before after : Bytes} {Q : List α → Prop}
    (opening closing : String)
    (hbefore : Reads grammar ws before (front ++ (after ++ ((ofString closing).toList ++ rest))) fun _ => True)
    (h : Reads grammar (orEmpty p) front (after ++ ((ofString closing).toList ++ rest)) Q)
    (hafter : Reads grammar ws after ((ofString closing).toList ++ rest) fun _ => True) :
    Reads grammar (.lit opening *> ws *> orEmpty p <* ws <* .lit closing)
      ((ofString opening).toList ++ before ++ front ++ after ++ (ofString closing).toList) rest Q :=
  ((((Reads.lit opening _).seqRight hbefore).seqRight h).seqLeft hafter).seqLeft (.lit closing rest)

end FlowTyping.Notation.Body
