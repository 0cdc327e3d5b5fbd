import FlowTyping.Proofs.Notation.Tokens
import FlowTyping.Proofs.Relation.Canonical
import FlowTyping.Ty.Printer

/-!
# Types that can be written down

Not every type can be read back from its print. A class prints as its name, a type parameter as its own,
and a name that is no identifier as it stands. What remains are the writable types; this module says what
their prints are made of and how they start, which is what a reader chooses by.

* **`Ty.Writable`**
* `Ty.propText`, `Ty.slotText`, `Ty.argText` — the pieces between the marks of a print.
* **`Ty.spelled_render`** — a print is made of characters.
* **`Ty.starts_render`** — the first character of a print is no blank and no mark.
-/

namespace FlowTyping.Ty

open Peg Text Notation Notation.Body

/-! ## Writable types -/

/-- What stands at the type itself reads back as it was written: there are no class tags and no type
parameters, names are identifiers, rest parameters are arrays and stand last, numbers are finite. -/
def OwnWritable : Ty → Prop
  | .literal (.number (.infinite _)) => False
  | .object tag props => tag = "" ∧ ∀ p ∈ props, ∃ s : String, p.name = s ∧ isIdent s = true
  | .function params _ =>
    (∀ p ∈ params, isIdent p.name = true ∧ (p.rest = true → p.type.isArray = true)) ∧
      params.Pairwise fun p _ => p.rest = false
  | .var _ _ => False
  | _ => True

/-- All of the type reads back as it was written. -/
inductive Writable : Ty → Prop where
  | intro {t : Ty} (hown : t.OwnWritable) (hparts : ∀ s ∈ t.parts, Writable s) : Writable t

namespace Writable

variable {s t : Ty}

theorem own (ht : Writable t) : t.OwnWritable := by
  cases ht with
  | intro hown _ => exact hown

theorem part (ht : Writable t) (hs : s ∈ t.parts) : Writable s := by
  cases ht with
  | intro _ hparts => exact hparts s hs

end Writable

/-! ## The pieces of a print -/

/-- A property in print. -/
def propText (p : Property Ty) : Text :=
  (if p.readonly then "readonly " else "") ++ p.name ++ (if p.optional then "?" else "") ++ ": " ++
    p.type.render

theorem renderProps_eq_map (ps : List (Property Ty)) : renderProps ps = ps.map propText := by
  induction ps with
  | nil => rfl
  | cons p ps ih => rw [renderProps, ih, List.map_cons, propText]

theorem render_object (props : List (Property Ty)) :
    (Ty.object "" props).render =
      if props.isEmpty then ("\x7b\x7d" : Text) else "\x7b " ++ Text.joinWith "; " (props.map propText) ++ " \x7d" := by
  rw [← renderProps_eq_map, render]
  rfl

/-- A place of a tuple: an element, or the type of all elements from there on. -/
abbrev Slot := Elem Ty ⊕ Ty

/-- The places of a tuple. -/
def slots (elems : List (Elem Ty)) (rest : Option Ty) : List Slot :=
  elems.map .inl ++ rest.toList.map .inr

/-- A place of a tuple in print. -/
def slotText : Slot → Text
  | .inl e => e.type.render ++ if e.optional then "?" else ""
  | .inr t => "..." ++ parens t.isCompound t.render ++ "[]"

theorem renderElems_eq_map (es : List (Elem Ty)) : renderElems es = es.map fun e => slotText (.inl e) := by
  induction es with
  | nil => rfl
  | cons e es ih => rw [renderElems, ih, List.map_cons, slotText]

/-- A tuple other than an array is printed as the list of its places. -/
theorem render_tuple {elems : List (Elem Ty)} {rest : Option Ty} (h : elems = [] → rest = none) :
    (Ty.tuple elems rest).render = "[" ++ Text.joinWith ", " ((slots elems rest).map slotText) ++ "]" := by
  have hmap (elems : List (Elem Ty)) : (elems.map Sum.inl).map slotText = renderElems elems := by
    rw [renderElems_eq_map, List.map_map]
    rfl
  rw [slots, List.map_append, hmap]
  cases rest with
  | none =>
    rw [render]
    simp
  | some t =>
    obtain ⟨e, es, rfl⟩ := List.exists_cons_of_ne_nil fun hnil => Option.some_ne_none t (h hnil)
    rw [render]
    · simp [slotText]
    · simp

/-- A named parameter in print. -/
def argText (p : Param Ty) : Text :=
  (if p.rest then "..." else "") ++ p.name ++ (if !p.rest && p.optional then "?" else "") ++ ": " ++
    p.type.render

theorem isEmpty_of_isIdent {s : String} (hs : isIdent s = true) : s.isEmpty = false := by
  by_contra hempty
  obtain rfl : s = "" := String.isEmpty_iff.1 (by simpa using hempty)
  exact absurd hs (by decide)

/-- Parameters with names are printed with them, whatever their positions are. -/
theorem renderParams_eq_map {ps : List (Param Ty)} (hps : ∀ p ∈ ps, isIdent p.name = true) (index : Nat) :
    renderParams index ps = ps.map argText := by
  induction ps generalizing index with
  | nil => rfl
  | cons p ps ih =>
    rw [renderParams, ih (fun q hq => hps q (by simp [hq])), List.map_cons, argText, paramName,
      isEmpty_of_isIdent (hps p (by simp))]
    rfl

theorem renderAlternatives_eq_map (ts : List Ty) :
    renderAlternatives ts = ts.map fun t => parens t.isFunction t.render := by
  induction ts with
  | nil => rfl
  | cons t ts ih => rw [renderAlternatives, ih, List.map_cons]

theorem renderParts_eq_map (ts : List Ty) :
    renderParts ts = ts.map fun t => parens t.isCompound t.render := by
  induction ts with
  | nil => rfl
  | cons t ts ih => rw [renderParts, ih, List.map_cons]

/-! ## Characters -/

theorem spelled_parens {needed : Bool} {s : Text} (hs : Spelled s.toList) :
    Spelled (parens needed s).toList := by
  unfold parens
  split
  · rw [toList_append, toList_append]
    exact ((spelled_ofString "(").append hs).append (spelled_ofString ")")
  · exact hs

theorem spelled_joinWith {sep : String} {ts : List Text} (hts : ∀ t ∈ ts, Spelled t.toList) :
    Spelled (Text.joinWith sep ts).toList := by
  induction ts with
  | nil => exact spelled_ofString ""
  | cons t ts ih =>
    cases ts with
    | nil => exact hts t (by simp)
    | cons u ts =>
      rw [Text.joinWith, toList_append, toList_append]
      exact ((hts t (by simp)).append (spelled_ofString sep)).append
        (ih fun s hs => hts s (by simp [hs]))
      · simp

variable {t : Ty}

theorem spelled_propText {p : Property Ty} {name : String} (hname : p.name = name)
    (hp : Spelled p.type.render.toList) : Spelled (propText p).toList := by
  simp only [propText, toList_append, hname]
  refine (Spelled.append ?_ (spelled_ofString _)).append hp
  exact ((spelled_ofString _).append (spelled_ofString _)).append (spelled_ofString _)

theorem spelled_argText {p : Param Ty} (hp : Spelled p.type.render.toList) : Spelled (argText p).toList := by
  simp only [argText, toList_append]
  refine (Spelled.append ?_ (spelled_ofString _)).append hp
  exact ((spelled_ofString _).append (spelled_ofString _)).append (spelled_ofString _)

theorem spelled_slotText {elems : List (Elem Ty)} {rest : Option Ty}
    (hparts : ∀ s ∈ (Ty.tuple elems rest).parts, Spelled s.render.toList) {slot : Slot}
    (hslot : slot ∈ slots elems rest) : Spelled (slotText slot).toList := by
  rcases List.mem_append.1 hslot with hslot | hslot
  · obtain ⟨e, he, rfl⟩ := List.mem_map.1 hslot
    rw [slotText, toList_append]
    exact (hparts _ (List.mem_append_left _ (List.mem_map_of_mem he))).append (spelled_ofString _)
  · obtain ⟨r, hr, rfl⟩ := List.mem_map.1 hslot
    rw [slotText, toList_append, toList_append]
    have harray : Spelled (parens r.isCompound r.render).toList :=
      spelled_parens (hparts r (List.mem_append_right _ hr))
    exact ((spelled_ofString _).append harray).append (spelled_ofString _)

/-- **A print is made of characters.** -/
theorem spelled_render (ht : Writable t) : Spelled t.render.toList := by
  induction t using parts_induction with
  | step t ih =>
    have hpart {s : Ty} (hs : s ∈ t.parts) : Spelled s.render.toList := ih s hs (ht.part hs)
    have hown := ht.own
    cases t with
    | literal l => exact spelled_ofString _
    | object tag props =>
      obtain ⟨rfl, hnames⟩ := hown
      have hprops : ∀ s ∈ props.map propText, Spelled s.toList := by
        intro s hs
        obtain ⟨p, hp, rfl⟩ := List.mem_map.1 hs
        obtain ⟨name, hname, -⟩ := hnames p hp
        exact spelled_propText hname (hpart (List.mem_map_of_mem hp))
      rw [render_object]
      split
      · exact spelled_ofString _
      · rw [toList_append, toList_append]
        exact ((spelled_ofString _).append (spelled_joinWith hprops)).append (spelled_ofString _)
    | tuple elems rest =>
      have hslots : ∀ s ∈ (slots elems rest).map slotText, Spelled s.toList := by
        intro s hs
        obtain ⟨slot, hslot, rfl⟩ := List.mem_map.1 hs
        exact spelled_slotText (fun s hs => hpart hs) hslot
      -- a rest without elements is printed as an array, by its element
      by_cases harray : elems = [] → rest = none
      · rw [render_tuple harray, toList_append, toList_append]
        exact ((spelled_ofString _).append (spelled_joinWith hslots)).append (spelled_ofString _)
      · obtain ⟨rfl, hrest⟩ := Classical.not_imp.1 harray
        obtain ⟨r, rfl⟩ := Option.ne_none_iff_exists'.1 hrest
        rw [render, toList_append]
        exact (spelled_parens (hpart (by simp [parts]))).append (spelled_ofString _)
    | function params ret =>
      have hparams : ∀ s ∈ params.map argText, Spelled s.toList := by
        intro s hs
        obtain ⟨p, hp, rfl⟩ := List.mem_map.1 hs
        exact spelled_argText (hpart (List.mem_append_left _ (List.mem_map_of_mem hp)))
      rw [render, renderParams_eq_map fun p hp => (hown.1 p hp).1]
      simp only [toList_append]
      exact (((spelled_ofString _).append (spelled_joinWith hparams)).append (spelled_ofString _)).append
        (hpart (List.mem_append_right _ (by simp)))
    | union ms =>
      rw [render, renderAlternatives_eq_map]
      refine spelled_joinWith fun s hs => ?_
      obtain ⟨m, hm, rfl⟩ := List.mem_map.1 hs
      exact spelled_parens (hpart hm)
    | inter ms =>
      rw [render, renderParts_eq_map]
      refine spelled_joinWith fun s hs => ?_
      obtain ⟨m, hm, rfl⟩ := List.mem_map.1 hs
      exact spelled_parens (hpart hm)
    | var name bound => exact absurd hown id
    | _ => exact spelled_ofString _

/-! ## The start of a print -/

/-- A character of a kind stands first. -/
def Starts (P : Char → Prop) (bytes : Bytes) : Prop :=
  ∃ c tail, bytes = String.utf8EncodeChar c ++ tail ∧ P c

theorem Starts.append {P : Char → Prop} {bytes : Bytes} (h : Starts P bytes) (rest : Bytes) :
    Starts P (bytes ++ rest) := by
  obtain ⟨c, tail, rfl, hc⟩ := h
  exact ⟨c, tail ++ rest, List.append_assoc .., hc⟩

theorem Starts.first? {P : Char → Prop} {bytes : Bytes} (h : Starts P bytes) (rest : Bytes) :
    ∃ c, first? (bytes ++ rest) = some c ∧ P c := by
  obtain ⟨c, tail, rfl, hc⟩ := h
  exact ⟨c, by rw [List.append_assoc, first?_utf8], hc⟩

/-- Whether a character is neither a blank nor one of the marks that may stand before a type. -/
def isLead (c : Char) : Bool := !Body.isBlank c && !(['|', '&', '.', ')'].contains c)

/-- No blank stands before a lead. -/
theorem Starts.dense {bytes : Bytes} (h : Starts (isLead · = true) bytes) (rest : Bytes) :
    Dense (bytes ++ rest) := by
  intro c hc
  obtain ⟨d, hd, hlead⟩ := h.first? rest
  obtain rfl := Option.some.inj (hc.symm.trans hd)
  simp only [isLead, Bool.and_eq_true, Bool.not_eq_true'] at hlead
  exact hlead.1

/-- No mark stands before a lead. -/
theorem Starts.first?_ne {bytes : Bytes} (h : Starts (isLead · = true) bytes) (rest : Bytes) {c : Char}
    (hmark : isLead c = false) : Text.first? (bytes ++ rest) ≠ some c := by
  obtain ⟨d, hd, hlead⟩ := h.first? rest
  rw [hd]
  rintro heq
  obtain rfl := Option.some.inj heq
  exact Bool.noConfusion (hmark.symm.trans hlead)

theorem starts_string (s : String) (hs : s.toList.head?.any isLead = true) :
    Starts (isLead · = true) (ofString s).toList := by
  obtain ⟨c, hc, hlead⟩ := (Option.any_eq_true _ _).1 hs
  obtain ⟨cs, hcs⟩ := List.head?_eq_some_iff.1 hc
  exact ⟨c, spell cs, by rw [toList_ofString, hcs, spell_cons], hlead⟩

/-- A finite number starts with its sign or with a digit. -/
theorem starts_number (negative : Bool) {m : Nat} {e : Int} (hd : Number.IsDouble m e) :
    Starts (fun c => c = '-' ∨ ('0' ≤ c && c ≤ '9') = true)
      (ofString (Number.finite negative m e hd).render).toList := by
  obtain ⟨whole, fraction, o, hw, hne, -, hrender⟩ := Number.render_parts negative hd
  rw [toList_ofString, hrender]
  cases negative with
  | true => exact ⟨'-', _, rfl, .inl rfl⟩
  | false =>
    obtain ⟨c, cs, rfl⟩ := List.exists_cons_of_ne_nil hne
    exact ⟨c, _, rfl, .inr (test_digit (hw c (by simp)))⟩

theorem starts_parens {needed : Bool} {s : Text} (hs : Starts (isLead · = true) s.toList) :
    Starts (isLead · = true) (parens needed s).toList := by
  unfold parens
  split
  · rw [toList_append, toList_append]
    exact ((starts_string "(" rfl).append _).append _
  · exact hs

theorem starts_joinWith {P : Char → Prop} {sep t : Text} (ts : List Text) (ht : Starts P t.toList) :
    Starts P (Text.joinWith sep (t :: ts)).toList := by
  rw [toList_joinWith_cons]
  exact ht.append _

/-- **The first character of a print** is no blank and no mark. -/
theorem starts_render (ht : Writable t) (hc : Canonical t) : Starts (isLead · = true) t.render.toList := by
  induction t using parts_induction with
  | step t ih =>
    have hpart {s : Ty} (hs : s ∈ t.parts) : Starts (isLead · = true) s.render.toList :=
      ih s hs (ht.part hs) (hc.part hs)
    have hown := ht.own
    cases t with
    | literal l =>
      cases l with
      | text v =>
        rw [render]
        show Starts _ (ofString (quote v)).toList
        rw [toList_quote]
        exact ⟨'"', _, rfl, rfl⟩
      | number n =>
        cases n with
        | finite negative m e hd =>
          obtain ⟨c, tail, hbytes, hchar⟩ := starts_number negative hd
          refine ⟨c, tail, hbytes, ?_⟩
          rcases hchar with rfl | hchar
          · rfl
          · exact of_digit (P := (isLead · = true)) (by decide) hchar
        | infinite negative => exact absurd hown id
      | bool b => cases b <;> exact starts_string _ rfl
    | object tag props =>
      obtain ⟨rfl, -⟩ := hown
      rw [render_object]
      split
      · exact starts_string "\x7b\x7d" rfl
      · rw [toList_append, toList_append]
        exact ((starts_string "\x7b " rfl).append _).append _
    | tuple elems rest =>
      -- a rest without elements is printed as an array, by its element
      by_cases harray : elems = [] → rest = none
      · rw [render_tuple harray, toList_append, toList_append]
        exact ((starts_string "[" rfl).append _).append _
      · obtain ⟨rfl, hrest⟩ := Classical.not_imp.1 harray
        obtain ⟨r, rfl⟩ := Option.ne_none_iff_exists'.1 hrest
        rw [render, toList_append]
        exact (starts_parens (hpart (by simp [parts]))).append _
    | function params ret =>
      rw [render]
      simp only [toList_append]
      exact (((starts_string "(" rfl).append _).append _).append _
    | union ms =>
      obtain ⟨m, ms, rfl⟩ := List.exists_cons_of_ne_nil (List.ne_nil_of_length_pos
        (Nat.lt_of_lt_of_le (by decide) hc.neat.1))
      rw [render, renderAlternatives_eq_map]
      exact starts_joinWith _ (starts_parens (hpart (by simp [parts])))
    | inter ms =>
      obtain ⟨m, ms, rfl⟩ := List.exists_cons_of_ne_nil (List.ne_nil_of_length_pos
        (Nat.lt_of_lt_of_le (by decide) hc.neat.1))
      rw [render, renderParts_eq_map]
      exact starts_joinWith _ (starts_parens (hpart (by simp [parts])))
    | var name bound => exact absurd hown id
    | _ => exact starts_string _ rfl

end FlowTyping.Ty
