import FlowTyping.Proofs.Text.Reading
import FlowTyping.Proofs.Ty.Keys
import FlowTyping.Proofs.Ty.Measure
import Mathlib.Data.List.Forall2

/-!
# Keys can be read back

As long as all names in a type are words, its key tells everything about it but the names of function
parameters. So two trees with one key have the same outline, and their parts have the same keys.

* **`Ty.Named`** — all names of properties, type parameters and class tags in the type are words.
* **`Ty.Mirrors R`** — two types have the same outline, and their parts are related by `R`.
* **`Ty.mirrors_of_key_eq`** — named types with one key mirror each other by keys. The proof reads both
  keys from the left, with something behind them that cannot belong to a key.
-/

namespace FlowTyping

/-- Each member of the second of two related lists is related to one of the first. -/
theorem exists_mem_left {α β : Type} {R : α → β → Prop} {xs : List α} {ys : List β}
    (h : List.Forall₂ R xs ys) {y : β} (hy : y ∈ ys) : ∃ x ∈ xs, R x y := by
  induction h with
  | nil => simp at hy
  | @cons a b as bs hab _ ih =>
    rcases List.mem_cons.1 hy with rfl | hy
    · exact ⟨a, by simp, hab⟩
    · obtain ⟨x, hx, hxy⟩ := ih hy
      exact ⟨x, by simp [hx], hxy⟩

theorem exists_mem_right {α β : Type} {R : α → β → Prop} {xs : List α} {ys : List β}
    (h : List.Forall₂ R xs ys) {x : α} (hx : x ∈ xs) : ∃ y ∈ ys, R x y :=
  exists_mem_left h.flip hx

theorem forall₂_imp_of_mem {α β : Type} {R S : α → β → Prop} {xs : List α} {ys : List β}
    (h : List.Forall₂ R xs ys) (hRS : ∀ x ∈ xs, ∀ y ∈ ys, R x y → S x y) : List.Forall₂ S xs ys := by
  induction h with
  | nil => exact .nil
  | cons hab _ ih =>
    exact .cons (hRS _ (by simp) _ (by simp) hab)
      (ih fun x hx y hy => hRS x (by simp [hx]) y (by simp [hy]))

theorem optionRel_imp {α β : Type} {R S : α → β → Prop} {o : Option α} {o' : Option β}
    (h : Option.Rel R o o') (hRS : ∀ x y, R x y → S x y) : Option.Rel S o o' := by
  cases h with
  | none => exact .none
  | some h => exact .some (hRS _ _ h)

/-! ## Outlines -/

/-- Two properties differ in their types alone, and these are related. -/
structure Property.Mirrors (R : Ty → Ty → Prop) (p q : Property Ty) : Prop where
  name : p.name = q.name
  type : R p.type q.type
  optional : p.optional = q.optional
  readonly : p.readonly = q.readonly

structure Elem.Mirrors (R : Ty → Ty → Prop) (e f : Elem Ty) : Prop where
  type : R e.type f.type
  optional : e.optional = f.optional

/-- Two parameters with related types. Whether a rest parameter is optional makes no difference. -/
structure Param.Mirrors (R : Ty → Ty → Prop) (p q : Param Ty) : Prop where
  type : R p.type q.type
  rest : p.rest = q.rest
  optional : p.rest = false → p.optional = q.optional

namespace Ty

/-- Two types have the same outline, and their parts are related. -/
inductive Mirrors (R : Ty → Ty → Prop) : Ty → Ty → Prop where
  | atom {t : Ty} (ht : t ∈ atoms) : Mirrors R t t
  | text {v w : Text.Bytes} (hv : Text.decode v = Text.decode w) :
    Mirrors R (.literal (.text v)) (.literal (.text w))
  | numeral {m n : Number} (hn : m.render = n.render) :
    Mirrors R (.literal (.number m)) (.literal (.number n))
  | truth (b : Bool) : Mirrors R (.literal (.bool b)) (.literal (.bool b))
  | object (tag : String) {ps qs : List (Property Ty)}
    (hp : List.Forall₂ (Property.Mirrors R) ps qs) : Mirrors R (.object tag ps) (.object tag qs)
  | tuple {es fs : List (Elem Ty)} {r s : Option Ty} (he : List.Forall₂ (Elem.Mirrors R) es fs)
    (hr : Option.Rel R r s) : Mirrors R (.tuple es r) (.tuple fs s)
  | function {ps qs : List (Param Ty)} {r s : Ty} (hp : List.Forall₂ (Param.Mirrors R) ps qs)
    (hr : R r s) : Mirrors R (.function ps r) (.function qs s)
  | union {ms ns : List Ty} (hm : List.Forall₂ R ms ns) : Mirrors R (.union ms) (.union ns)
  | inter {ms ns : List Ty} (hm : List.Forall₂ R ms ns) : Mirrors R (.inter ms) (.inter ns)
  | var (name : String) {b c : Option Ty} (hb : Option.Rel R b c) :
    Mirrors R (.var name b) (.var name c)

/-! ## Names -/

/-- The names that stand at the type itself are words. -/
def OwnNamed : Ty → Prop
  | .object tag props => Text.IsWord tag ∧ ∀ p ∈ props, p.name.IsWord
  | .var name _ => Text.IsWord name
  | _ => True

/-- All names of properties, type parameters and class tags in the type are words. -/
inductive Named : Ty → Prop where
  | intro {t : Ty} (hown : t.OwnNamed) (hparts : ∀ s ∈ t.parts, Named s) : Named t

namespace Named

variable {s t : Ty}

theorem own (ht : Named t) : t.OwnNamed := by
  cases ht with
  | intro hown _ => exact hown

theorem part (ht : Named t) (hs : s ∈ t.parts) : Named s := by
  cases ht with
  | intro _ hparts => exact hparts s hs

end Named

/-! ## Reading lists of pieces -/

section Lists

variable {α : Type} {enc : α → Text.Bytes} {sep : UInt8} {R : α → α → Prop} {T : Text.Bytes → Prop}

/-- Pieces that each follow a separator are read one by one, up to what does not start like one. -/
theorem separated_inj (hsep : ∀ z, T (sep :: z)) {xs ys : List α} {x y : Text.Bytes} (hx : T x)
    (hy : T y) (hendx : ∀ a z, x ≠ sep :: (enc a ++ z)) (hendy : ∀ a z, y ≠ sep :: (enc a ++ z))
    (hread : ∀ a ∈ xs, ∀ b ∈ ys, ∀ r s, T r → T s → enc a ++ r = enc b ++ s → R a b ∧ r = s)
    (h : xs.flatMap (fun a => sep :: enc a) ++ x = ys.flatMap (fun a => sep :: enc a) ++ y) :
    List.Forall₂ R xs ys ∧ x = y := by
  have htail (xs : List α) {x : Text.Bytes} (hx : T x) :
      T (xs.flatMap (fun a => sep :: enc a) ++ x) := by
    cases xs with
    | nil => exact hx
    | cons a xs => exact hsep _
  induction xs generalizing ys with
  | nil =>
    cases ys with
    | nil => exact ⟨.nil, h⟩
    | cons b ys => exact absurd (by simpa using h) (hendx b _)
  | cons a xs ih =>
    cases ys with
    | nil => exact absurd (by simpa using h.symm) (hendy a _)
    | cons b ys =>
      simp only [List.flatMap_cons, List.cons_append, List.append_assoc, List.cons.injEq, true_and] at h
      obtain ⟨hab, hrest⟩ := hread a (by simp) b (by simp) _ _ (htail xs hx) (htail ys hy) h
      obtain ⟨hxs, rfl⟩ := ih (fun a ha b hb => hread a (by simp [ha]) b (by simp [hb])) hrest
      exact ⟨.cons hab hxs, rfl⟩

theorem toList_joinWith_cons (sep t : Text) (ts : List Text) :
    (Text.joinWith sep (t :: ts)).toList =
      t.toList ++ ts.flatMap fun u => sep.toList ++ u.toList := by
  induction ts generalizing t with
  | nil => simp [Text.joinWith]
  | cons u ts ih => simp [Text.joinWith, ih]

/-- Pieces with separators between them are read one by one. -/
theorem joined_inj {write : α → Text} {sepText : Text} (hs : sepText.toList = [sep])
    (hsep : ∀ z, T (sep :: z)) {xs ys : List α} {x y : Text.Bytes} (hx : T x) (hy : T y)
    (hendx : ∀ a z, x ≠ (write a).toList ++ z ∧ x ≠ sep :: ((write a).toList ++ z))
    (hendy : ∀ a z, y ≠ (write a).toList ++ z ∧ y ≠ sep :: ((write a).toList ++ z))
    (hread : ∀ a ∈ xs, ∀ b ∈ ys, ∀ r s, T r → T s → (write a).toList ++ r = (write b).toList ++ s →
      R a b ∧ r = s)
    (h : (Text.joinWith sepText (xs.map write)).toList ++ x =
      (Text.joinWith sepText (ys.map write)).toList ++ y) : List.Forall₂ R xs ys ∧ x = y := by
  have hjoin (a : α) (xs : List α) : (Text.joinWith sepText ((a :: xs).map write)).toList =
      (write a).toList ++ xs.flatMap fun b => sep :: (write b).toList := by
    rw [List.map_cons, toList_joinWith_cons, List.flatMap_map, hs]
    rfl
  cases xs with
  | nil =>
    cases ys with
    | nil => exact ⟨.nil, by simpa [Text.joinWith] using h⟩
    | cons b ys =>
      rw [hjoin, List.append_assoc] at h
      exact absurd h (hendx b _).1
  | cons a xs =>
    rw [hjoin, List.append_assoc] at h
    cases ys with
    | nil => exact absurd h.symm (hendy a _).1
    | cons b ys =>
      rw [hjoin, List.append_assoc] at h
      have htail (xs : List α) {x : Text.Bytes} (hx : T x) :
          T (xs.flatMap (fun a => sep :: (write a).toList) ++ x) := by
        cases xs with
        | nil => exact hx
        | cons a xs => exact hsep _
      obtain ⟨hab, hrest⟩ := hread a (by simp) b (by simp) _ _ (htail xs hx) (htail ys hy) h
      obtain ⟨hxs, rfl⟩ := separated_inj hsep hx hy (fun a z => (hendx a z).2)
        (fun a z => (hendy a z).2) (fun a ha b hb => hread a (by simp [ha]) b (by simp [hb])) hrest
      exact ⟨.cons hab hxs, rfl⟩

end Lists

/-! ## Reading keys -/

/-- Every key starts with a letter. -/
theorem key_start (t : Ty) : ∃ b z, t.key.toList = b :: z ∧ Text.isWordByte b = true := by
  cases t with
  | never | unknown | null | undefined | boolean | number | string => exact ⟨_, _, rfl, rfl⟩
  | literal l =>
    simp only [key, Text.toList_append, List.append_assoc]
    exact ⟨_, _, rfl, rfl⟩
  | object tag props =>
    simp only [key, Text.toList_append, List.append_assoc]
    exact ⟨_, _, rfl, rfl⟩
  | tuple elems rest =>
    cases rest <;> simp only [key, Text.toList_append, List.append_assoc] <;> exact ⟨_, _, rfl, rfl⟩
  | function params ret =>
    simp only [key, Text.toList_append, List.append_assoc]
    exact ⟨_, _, rfl, rfl⟩
  | union ms | inter ms =>
    simp only [key, Text.toList_append, List.append_assoc]
    exact ⟨_, _, rfl, rfl⟩
  | var name bound =>
    cases bound <;> simp only [key, Text.toList_append, List.append_assoc] <;> exact ⟨_, _, rfl, rfl⟩

/-- No key starts with a byte that is not of a word. -/
theorem ne_key_append {b : UInt8} {x : Text.Bytes} (hb : Text.isWordByte b = false) (t : Ty)
    (z : Text.Bytes) : b :: x ≠ t.key.toList ++ z := by
  intro h
  obtain ⟨c, y, hkey, hc⟩ := key_start t
  rw [hkey] at h
  obtain rfl : b = c := (List.cons.inj h).1
  rw [hb] at hc
  exact absurd hc (by decide)

/-- Where the key of the type stands, followed by what ends it, no other key is. -/
def Reads (t : Ty) : Prop :=
  ∀ u : Ty, Named u → ∀ r s, Text.Stops r → Text.Stops s →
    t.key.toList ++ r = u.key.toList ++ s → t.key = u.key ∧ r = s

/-- Related by having one key. -/
def SameKey (a b : Ty) : Prop := a.key = b.key

/-! ### Properties -/

/-- What the key of a property has after the name. -/
def afterName (p : Property Ty) (rest : Text.Bytes) : Text.Bytes :=
  (if p.optional then [63] else []) ++ ((if p.readonly then [33] else []) ++
    (58 :: (p.type.key.toList ++ 59 :: rest)))

theorem toList_keyProps_cons (p : Property Ty) (ps : List (Property Ty)) (rest : Text.Bytes) :
    (keyProps (p :: ps)).toList ++ rest =
      p.name.toList ++ afterName p ((keyProps ps).toList ++ rest) := by
  obtain ⟨name, t, optional, readonly⟩ := p
  rw [keyProps, afterName]
  cases optional <;> cases readonly <;> simp only [Text.toList_append, List.append_assoc] <;> rfl

theorem afterName_head (p : Property Ty) (rest : Text.Bytes) :
    ∃ b x, afterName p rest = b :: x ∧ b ≠ 125 ∧ Text.isWordByte b = false := by
  rw [afterName]
  cases p.optional with
  | true => exact ⟨_, _, rfl, by decide, rfl⟩
  | false => cases p.readonly <;> exact ⟨_, _, rfl, by decide, rfl⟩

theorem afterName_inj {p q : Property Ty} {r s : Text.Bytes} (hread : Reads p.type)
    (hq : Named q.type) (h : afterName p r = afterName q s) :
    p.optional = q.optional ∧ p.readonly = q.readonly ∧ p.type.key = q.type.key ∧ r = s := by
  have htype (h : p.type.key.toList ++ 59 :: r = q.type.key.toList ++ 59 :: s) :
      p.type.key = q.type.key ∧ r = s := by
    obtain ⟨hk, hrest⟩ := hread _ hq _ _ (.cons rfl _) (.cons rfl _) h
    exact ⟨hk, (List.cons.inj hrest).2⟩
  rw [afterName, afterName] at h
  cases ho : p.optional <;> cases ho' : q.optional <;> cases hr : p.readonly <;>
    cases hr' : q.readonly <;> simp [ho, ho', hr, hr'] at h <;> simpa using htype h

theorem keyProps_inj {ps qs : List (Property Ty)} {r s : Text.Bytes}
    (hread : ∀ p ∈ ps, Reads p.type) (hps : ∀ p ∈ ps, p.name.IsWord)
    (hqs : ∀ q ∈ qs, q.name.IsWord ∧ Named q.type)
    (h : (keyProps ps).toList ++ 125 :: r = (keyProps qs).toList ++ 125 :: s) :
    List.Forall₂ (Property.Mirrors SameKey) ps qs ∧ r = s := by
  -- a name ends before the byte that follows it, and that is not the closing brace
  have hword (p : Property Ty) (x : Text.Bytes) :
      ∀ b ∈ (afterName p x).head?, Text.isWordByte b = false := by
    obtain ⟨b, y, heq, -, hb⟩ := afterName_head p x
    rw [heq]
    simpa using hb
  have hbrace {q : Property Ty} {x y : Text.Bytes} (hq : q.name.IsWord) :
      125 :: x ≠ q.name.toList ++ afterName q y := by
    intro h
    obtain ⟨-, heq⟩ := Text.span_inj (x := []) (by simp) hq (by simp; rfl) (hword q y) h
    obtain ⟨b, z, heq', hne, -⟩ := afterName_head q y
    rw [heq'] at heq
    exact hne (List.cons.inj heq).1.symm
  induction ps generalizing qs with
  | nil =>
    cases qs with
    | nil => exact ⟨.nil, by simpa [keyProps] using h⟩
    | cons q qs =>
      rw [toList_keyProps_cons] at h
      exact absurd h (hbrace (hqs q (by simp)).1)
  | cons p ps ih =>
    rw [toList_keyProps_cons] at h
    cases qs with
    | nil => exact absurd h.symm (hbrace (hps p (by simp)))
    | cons q qs =>
      rw [toList_keyProps_cons] at h
      obtain ⟨hname, hafter⟩ := Text.span_inj (hps p (by simp)) (hqs q (by simp)).1 (hword p _)
        (hword q _) h
      obtain ⟨ho, hr, hk, hrest⟩ := afterName_inj (hread p (by simp)) (hqs q (by simp)).2 hafter
      obtain ⟨hps', rfl⟩ := ih (fun p hp => hread p (by simp [hp])) (fun p hp => hps p (by simp [hp]))
        (fun q hq => hqs q (by simp [hq])) hrest
      exact ⟨.cons ⟨Text.toList_injective hname, hk, ho, hr⟩ hps', rfl⟩

/-! ### Elements and parameters -/

/-- How an element is written in a key. -/
def elemText (e : Elem Ty) : Text := e.type.key ++ if e.optional then "?" else ""

theorem keyElems_eq_map (es : List (Elem Ty)) : keyElems es = es.map elemText := by
  induction es with
  | nil => rfl
  | cons e es ih => rw [keyElems, ih, List.map_cons, elemText]

/-- What can follow an element: the next one, or the end of the tuple. -/
def EndsElem (rest : Text.Bytes) : Prop := ∀ b ∈ rest.head?, b = 44 ∨ b = 93

theorem EndsElem.stops {rest : Text.Bytes} (hr : EndsElem rest) : Text.Stops rest := by
  intro b hb
  rcases hr b hb with rfl | rfl <;> rfl

theorem elemText_inj {e f : Elem Ty} {r s : Text.Bytes} (hread : Reads e.type) (hf : Named f.type)
    (hr : EndsElem r) (hs : EndsElem s) (h : (elemText e).toList ++ r = (elemText f).toList ++ s) :
    Elem.Mirrors SameKey e f ∧ r = s := by
  have hbytes (e : Elem Ty) (r : Text.Bytes) : (elemText e).toList ++ r =
      e.type.key.toList ++ ((if e.optional then [63] else []) ++ r) := by
    rw [elemText]
    cases e.optional <;> simp only [Text.toList_append, List.append_assoc] <;> rfl
  have hstop {r : Text.Bytes} (e : Elem Ty) (hr : EndsElem r) :
      Text.Stops ((if e.optional then [63] else []) ++ r) := by
    cases e.optional
    · exact hr.stops
    · exact .cons rfl _
  have hmark {r s : Text.Bytes} (hs : EndsElem s) : 63 :: r ≠ s := by
    rintro rfl
    simpa using hs 63 rfl
  rw [hbytes, hbytes] at h
  obtain ⟨hk, hrest⟩ := hread _ hf _ _ (hstop e hr) (hstop f hs) h
  cases he : e.optional <;> cases hf : f.optional <;> simp only [he, hf] at hrest
  · exact ⟨⟨hk, by rw [he, hf]⟩, hrest⟩
  · exact absurd hrest.symm (hmark hr)
  · exact absurd hrest (hmark hs)
  · exact ⟨⟨hk, by rw [he, hf]⟩, (List.cons.inj hrest).2⟩

/-- How a parameter is written in a key. -/
def paramText (p : Param Ty) : Text :=
  (if p.rest then "..." else if p.optional then "?" else "") ++ p.type.key

theorem keyParams_eq_map (ps : List (Param Ty)) : keyParams ps = ps.map paramText := by
  induction ps with
  | nil => rfl
  | cons p ps ih => rw [keyParams, ih, List.map_cons, paramText]

theorem paramText_inj {p q : Param Ty} {r s : Text.Bytes} (hread : Reads p.type) (hq : Named q.type)
    (hr : Text.Stops r) (hs : Text.Stops s)
    (h : (paramText p).toList ++ r = (paramText q).toList ++ s) :
    Param.Mirrors SameKey p q ∧ r = s := by
  have hbytes (p : Param Ty) (r : Text.Bytes) : (paramText p).toList ++ r =
      (if p.rest then [46, 46, 46] else if p.optional then [63] else []) ++
        (p.type.key.toList ++ r) := by
    rw [paramText]
    cases p.rest <;> cases p.optional <;> simp only [Text.toList_append, List.append_assoc] <;> rfl
  rw [hbytes, hbytes] at h
  have hkey := hread q.type hq r s hr hs
  have hdot {b : UInt8} {x : Text.Bytes} (hb : Text.isWordByte b = false) := ne_key_append (x := x) hb
  cases hp : p.rest <;> cases hp' : q.rest <;> simp only [hp, hp', if_true] at h
  · cases ho : p.optional <;> cases ho' : q.optional <;> simp only [ho, ho', if_true] at h
    · obtain ⟨hk, rfl⟩ := hkey h
      exact ⟨⟨hk, by rw [hp, hp'], fun _ => by rw [ho, ho']⟩, rfl⟩
    · exact absurd h.symm (hdot rfl _ _)
    · exact absurd h (hdot rfl _ _)
    · obtain ⟨hk, rfl⟩ := hkey (List.cons.inj h).2
      exact ⟨⟨hk, by rw [hp, hp'], fun _ => by rw [ho, ho']⟩, rfl⟩
  · cases ho : p.optional <;> simp only [ho, if_true] at h
    · exact absurd h.symm (hdot rfl _ _)
    · exact absurd (List.cons.inj h).1 (by decide)
  · cases ho : q.optional <;> simp only [ho, if_true] at h
    · exact absurd h (hdot rfl _ _)
    · exact absurd (List.cons.inj h).1 (by decide)
  · obtain ⟨hk, rfl⟩ := hkey (List.append_cancel_left h)
    exact ⟨⟨hk, by rw [hp, hp'], by simp [hp]⟩, rfl⟩

/-! ### Members -/

/-- The members of a union or an intersection, up to the closing bracket. -/
theorem members_inj {sepText : Text} {sep : UInt8} (hs : sepText.toList = [sep])
    (hsep : Text.isStop sep = true) (hne : sep ≠ 41) {ms ns : List Ty} {r s : Text.Bytes}
    (hread : ∀ m ∈ ms, Reads m) (hns : ∀ n ∈ ns, Named n)
    (h : (Text.joinWith sepText (keys ms)).toList ++ 41 :: r =
      (Text.joinWith sepText (keys ns)).toList ++ 41 :: s) : List.Forall₂ SameKey ms ns ∧ r = s := by
  have hend (r : Text.Bytes) (t : Ty) (z : Text.Bytes) :
      41 :: r ≠ t.key.toList ++ z ∧ 41 :: r ≠ sep :: (t.key.toList ++ z) :=
    ⟨ne_key_append rfl t z, fun h => hne (List.cons.inj h).1.symm⟩
  rw [keys_eq_map, keys_eq_map] at h
  obtain ⟨hms, hrest⟩ := joined_inj hs (fun z => Text.Stops.cons hsep z) (.cons rfl _) (.cons rfl _)
    (hend r) (hend s) (fun m hm n hn => hread m hm n (hns n hn)) h
  exact ⟨hms, (List.cons.inj hrest).2⟩

/-! ### Whole keys -/

section Constructors

variable {r s : Text.Bytes}

theorem literal_inj {l k : Literal} (hhead : (Ty.literal l).head = (Ty.literal k).head)
    (hr : Text.Stops r) (hs : Text.Stops s)
    (h : (Ty.literal l).key.toList ++ r = (Ty.literal k).key.toList ++ s) :
    Mirrors SameKey (.literal l) (.literal k) ∧ r = s := by
  have hbase : l.base.kind = k.base.kind := by
    cases l <;> cases k <;> first | rfl | simp [head] at hhead
  simp only [key, Text.toList_append, List.append_assoc, hbase] at h
  have h := List.append_cancel_left (List.append_cancel_left (List.append_cancel_left h))
  cases l with
  | text v =>
    cases k with
    | text w =>
      obtain ⟨hv, rfl⟩ := Text.quote_append_inj h
      exact ⟨.text hv, rfl⟩
    | _ => simp [head] at hhead
  | number m =>
    cases k with
    | number n =>
      have hclass (n : Number) : ∀ b ∈ (Text.ofString n.render).toList,
          (!Text.isStop b) = true := by simpa using n.isStop_render
      have hstop {r : Text.Bytes} (hr : Text.Stops r) : ∀ b ∈ r.head?, (!Text.isStop b) = false :=
        fun b hb => by simp [hr b hb]
      obtain ⟨hn, rfl⟩ := Text.span_inj (hclass m) (hclass n) (hstop hr) (hstop hs) h
      exact ⟨.numeral (Text.ofString_injective (Text.toList_injective hn)), rfl⟩
    | _ => simp [head] at hhead
  | bool b =>
    cases k with
    | bool c =>
      -- the two words differ in their first letters
      have hne {r s : Text.Bytes} :
          (Text.ofString "true").toList ++ r ≠ (Text.ofString "false").toList ++ s :=
        fun h => absurd (List.cons.inj h).1 (by decide)
      cases b <;> cases c
      · exact ⟨.truth false, List.append_cancel_left h⟩
      · exact absurd h.symm hne
      · exact absurd h hne
      · exact ⟨.truth true, List.append_cancel_left h⟩
    | _ => simp [head] at hhead

theorem object_inj {tag tag' : String} {ps qs : List (Property Ty)}
    (hread : ∀ p ∈ ps, Reads p.type) (ha : Named (.object tag ps)) (hb : Named (.object tag' qs))
    (h : (Ty.object tag ps).key.toList ++ r = (Ty.object tag' qs).key.toList ++ s) :
    Mirrors SameKey (.object tag ps) (.object tag' qs) ∧ r = s := by
  have hopen : (Text.ofString ">\x7b").toList = [62, 123] := rfl
  have hclose : (Text.ofString "\x7d").toList = [125] := rfl
  simp only [key, Text.toList_append, List.append_assoc, hopen, hclose] at h
  obtain ⟨htag, hrest⟩ := Text.span_inj ha.own.1 hb.own.1 (by simp; rfl) (by simp; rfl)
    (List.append_cancel_left h)
  obtain rfl := Text.ofString_injective (Text.toList_injective htag)
  obtain ⟨hps, rfl⟩ := keyProps_inj hread ha.own.2
    (fun q hq => ⟨hb.own.2 q hq, hb.part (List.mem_map_of_mem hq)⟩) (List.append_cancel_left hrest)
  exact ⟨.object tag hps, rfl⟩

/-- What stands behind the elements of a tuple. -/
def afterElems : Option Ty → Text.Bytes → Text.Bytes
  | none, r => 93 :: r
  | some rest, r => 44 :: 46 :: 46 :: 46 :: (rest.key.toList ++ 93 :: r)

theorem toList_key_tuple (es : List (Elem Ty)) (rest : Option Ty) (r : Text.Bytes) :
    (Ty.tuple es rest).key.toList ++ r = (Text.ofString "tup[").toList ++
      ((Text.joinWith "," (es.map elemText)).toList ++ afterElems rest r) := by
  cases rest <;> simp only [key, keyElems_eq_map, Text.toList_append, List.append_assoc] <;> rfl

theorem afterElems_inj {o o' : Option Ty} (hread : ∀ t ∈ o, Reads t) (hn : ∀ t ∈ o', Named t)
    (h : afterElems o r = afterElems o' s) : Option.Rel SameKey o o' ∧ r = s := by
  cases o with
  | none =>
    cases o' with
    | none => exact ⟨.none, (List.cons.inj h).2⟩
    | some t => exact absurd (List.cons.inj h).1 (by decide)
  | some t =>
    cases o' with
    | none => exact absurd (List.cons.inj h).1 (by decide)
    | some t' =>
      simp only [afterElems, List.cons.injEq, true_and] at h
      obtain ⟨hk, hrest⟩ := hread t rfl t' (hn t' rfl) _ _ (.cons rfl _) (.cons rfl _) h
      exact ⟨.some hk, (List.cons.inj hrest).2⟩

theorem tuple_inj {es fs : List (Elem Ty)} {o o' : Option Ty}
    (hread : ∀ t ∈ (Ty.tuple es o).parts, Reads t) (hb : Named (.tuple fs o'))
    (h : (Ty.tuple es o).key.toList ++ r = (Ty.tuple fs o').key.toList ++ s) :
    Mirrors SameKey (.tuple es o) (.tuple fs o') ∧ r = s := by
  have hfollow (o : Option Ty) (r : Text.Bytes) : EndsElem (afterElems o r) := by
    cases o <;> simp [afterElems, EndsElem]
  have hend (o : Option Ty) (r : Text.Bytes) (e : Elem Ty) (z : Text.Bytes) :
      afterElems o r ≠ (elemText e).toList ++ z ∧
        afterElems o r ≠ 44 :: ((elemText e).toList ++ z) := by
    rw [elemText, Text.toList_append, List.append_assoc]
    cases o with
    | none => exact ⟨ne_key_append rfl _ _, fun h => absurd (List.cons.inj h).1 (by decide)⟩
    | some t => exact ⟨ne_key_append rfl _ _, fun h => ne_key_append rfl _ _ (List.cons.inj h).2⟩
  rw [toList_key_tuple, toList_key_tuple] at h
  obtain ⟨hes, hrest⟩ := joined_inj rfl (fun z => by simp [EndsElem]) (hfollow o r) (hfollow o' s)
    (hend o r) (hend o' s) (fun e he f hf r s hr hs => elemText_inj (hread e.type
      (List.mem_append_left _ (List.mem_map_of_mem he)))
      (hb.part (List.mem_append_left _ (List.mem_map_of_mem hf))) hr hs) (List.append_cancel_left h)
  obtain ⟨ho, rfl⟩ := afterElems_inj
    (fun t ht => hread t (List.mem_append_right _ (by simpa using ht)))
    (fun t ht => hb.part (List.mem_append_right _ (by simpa using ht))) hrest
  exact ⟨.tuple hes ho, rfl⟩

theorem function_inj {ps qs : List (Param Ty)} {t t' : Ty}
    (hread : ∀ u ∈ (Ty.function ps t).parts, Reads u) (hb : Named (.function qs t'))
    (hr : Text.Stops r) (hs : Text.Stops s)
    (h : (Ty.function ps t).key.toList ++ r = (Ty.function qs t').key.toList ++ s) :
    Mirrors SameKey (.function ps t) (.function qs t') ∧ r = s := by
  have harrow : (Text.ofString ")=>").toList = [41, 61, 62] := rfl
  have hend (r : Text.Bytes) (p : Param Ty) (z : Text.Bytes) :
      41 :: r ≠ (paramText p).toList ++ z ∧ 41 :: r ≠ 44 :: ((paramText p).toList ++ z) := by
    refine ⟨?_, fun h => absurd (List.cons.inj h).1 (by decide)⟩
    rw [paramText, Text.toList_append, List.append_assoc]
    cases p.rest with
    | true => exact fun h => absurd (List.cons.inj h).1 (by decide)
    | false =>
      cases p.optional with
      | true => exact fun h => absurd (List.cons.inj h).1 (by decide)
      | false => exact ne_key_append rfl _ _
  simp only [key, keyParams_eq_map, Text.toList_append, List.append_assoc, harrow] at h
  obtain ⟨hps, hrest⟩ := joined_inj rfl (fun z => Text.Stops.cons rfl z) (.cons rfl _) (.cons rfl _)
    (hend _) (hend _) (fun p hp q hq r s hr hs => paramText_inj (hread p.type
      (List.mem_append_left _ (List.mem_map_of_mem hp)))
      (hb.part (List.mem_append_left _ (List.mem_map_of_mem hq))) hr hs) (List.append_cancel_left h)
  have hret : [41, 61, 62] ++ (t.key.toList ++ r) = [41, 61, 62] ++ (t'.key.toList ++ s) := hrest
  obtain ⟨hk, rfl⟩ := hread t (List.mem_append_right _ (by simp)) t'
    (hb.part (List.mem_append_right _ (by simp))) r s hr hs (List.append_cancel_left hret)
  exact ⟨.function hps hk, rfl⟩

/-- What stands behind the name of a type parameter. -/
def afterVar : Option Ty → Text.Bytes → Text.Bytes
  | none, r => r
  | some bound, r => 60 :: 58 :: (bound.key.toList ++ r)

theorem var_inj {name name' : String} {o o' : Option Ty} (hread : ∀ t ∈ o, Reads t)
    (ha : Named (.var name o)) (hb : Named (.var name' o')) (hr : Text.Stops r) (hs : Text.Stops s)
    (h : (Ty.var name o).key.toList ++ r = (Ty.var name' o').key.toList ++ s) :
    Mirrors SameKey (.var name o) (.var name' o') ∧ r = s := by
  have hbytes (name : String) (o : Option Ty) (r : Text.Bytes) :
      (Ty.var name o).key.toList ++ r = (Text.ofString "var:").toList ++
        ((Text.ofString name).toList ++ afterVar o r) := by
    cases o <;> simp only [key, Text.toList_append, List.append_assoc] <;> rfl
  have hword (o : Option Ty) {r : Text.Bytes} (hr : Text.Stops r) :
      ∀ b ∈ (afterVar o r).head?, Text.isWordByte b = false := by
    cases o with
    | none => exact fun b hb => Text.isWordByte_of_isStop (hr b hb)
    | some t => simp [afterVar]; rfl
  have hbound {t : Ty} {r s : Text.Bytes} (hr : Text.Stops r) : r ≠ afterVar (some t) s := by
    rintro rfl
    exact absurd (hr 60 rfl) (by decide)
  rw [hbytes, hbytes] at h
  obtain ⟨hname, hrest⟩ := Text.span_inj ha.own hb.own (hword o hr) (hword o' hs)
    (List.append_cancel_left h)
  obtain rfl := Text.ofString_injective (Text.toList_injective hname)
  cases o with
  | none =>
    cases o' with
    | none => exact ⟨.var name .none, hrest⟩
    | some t => exact absurd hrest (hbound hr)
  | some t =>
    cases o' with
    | none => exact absurd hrest.symm (hbound hs)
    | some t' =>
      simp only [afterVar, List.cons.injEq, true_and] at hrest
      obtain ⟨hk, rfl⟩ := hread t rfl t' (hb.part (by simp [parts])) r s hr hs hrest
      exact ⟨.var name (.some hk), rfl⟩

end Constructors

/-- Keys that stand at the same place have the same outline, if the keys of parts can be read. -/
theorem mirrors_of_append {a b : Ty} {r s : Text.Bytes} (hread : ∀ t ∈ a.parts, Reads t)
    (ha : Named a) (hb : Named b) (hr : Text.Stops r) (hs : Text.Stops s)
    (h : a.key.toList ++ r = b.key.toList ++ s) : Mirrors SameKey a b ∧ r = s := by
  have hhead : a.head = b.head := by
    rw [← headOfBytes_key_append a r, h, headOfBytes_key_append]
  have hatom (hatom : a ∈ atoms) : Mirrors SameKey a b ∧ r = s := by
    obtain rfl := eq_of_head_eq_atom hatom hhead.symm
    exact ⟨.atom hatom, List.append_cancel_left h⟩
  -- the first bytes tell the constructor, so only equal ones are left
  cases a with
  | never | unknown | null | undefined | boolean | number | string => exact hatom (by simp [atoms])
  | literal l =>
    cases b with
    | literal l' => exact literal_inj hhead hr hs h
    | _ => cases l <;> simp [head] at hhead
  | object tag ps =>
    cases b with
    | object tag' qs => exact object_inj (fun p hp => hread _ (List.mem_map_of_mem hp)) ha hb h
    | literal l => cases l <;> simp [head] at hhead
    | _ => simp [head] at hhead
  | tuple es rest =>
    cases b with
    | tuple fs rest' => exact tuple_inj hread hb h
    | literal l => cases l <;> simp [head] at hhead
    | _ => simp [head] at hhead
  | function ps ret =>
    cases b with
    | function qs ret' => exact function_inj hread hb hr hs h
    | literal l => cases l <;> simp [head] at hhead
    | _ => simp [head] at hhead
  | union ms =>
    cases b with
    | union ns =>
      simp only [key, Text.toList_append, List.append_assoc] at h
      obtain ⟨hms, rfl⟩ := members_inj rfl rfl (by decide) hread (fun n hn => hb.part hn)
        (List.append_cancel_left h)
      exact ⟨.union hms, rfl⟩
    | literal l => cases l <;> simp [head] at hhead
    | _ => simp [head] at hhead
  | inter ms =>
    cases b with
    | inter ns =>
      simp only [key, Text.toList_append, List.append_assoc] at h
      obtain ⟨hms, rfl⟩ := members_inj rfl rfl (by decide) hread (fun n hn => hb.part hn)
        (List.append_cancel_left h)
      exact ⟨.inter hms, rfl⟩
    | literal l => cases l <;> simp [head] at hhead
    | _ => simp [head] at hhead
  | var name bound =>
    cases b with
    | var name' bound' =>
      exact var_inj (fun t ht => hread t (by simpa [parts] using ht)) ha hb hr hs h
    | literal l => cases l <;> simp [head] at hhead
    | _ => simp [head] at hhead

/-! ## What an outline tells -/

namespace Mirrors

variable {R : Ty → Ty → Prop} {a b : Ty}

/-- The outline stays if the parts are related otherwise. -/
theorem imp {S : Ty → Ty → Prop} (hm : Mirrors R a b)
    (hRS : ∀ s ∈ a.parts, ∀ t ∈ b.parts, R s t → S s t) : Mirrors S a b := by
  cases hm with
  | atom ht => exact .atom ht
  | text hv => exact .text hv
  | numeral hn => exact .numeral hn
  | truth b => exact .truth b
  | object tag hp =>
    exact .object tag (forall₂_imp_of_mem hp fun p hp q hq h =>
      ⟨h.name, hRS _ (List.mem_map_of_mem hp) _ (List.mem_map_of_mem hq) h.type, h.optional,
        h.readonly⟩)
  | tuple he hr =>
    refine .tuple (forall₂_imp_of_mem he fun e he f hf h => ⟨hRS _ ?_ _ ?_ h.type, h.optional⟩) ?_
    · exact List.mem_append_left _ (List.mem_map_of_mem he)
    · exact List.mem_append_left _ (List.mem_map_of_mem hf)
    · cases hr with
      | none => exact .none
      | some h => exact .some (hRS _ (by simp [Ty.parts]) _ (by simp [Ty.parts]) h)
  | function hp hr =>
    refine .function (forall₂_imp_of_mem hp fun p hp q hq h =>
      ⟨hRS _ ?_ _ ?_ h.type, h.rest, h.optional⟩) (hRS _ (by simp [Ty.parts]) _ (by simp [Ty.parts]) hr)
    · exact List.mem_append_left _ (List.mem_map_of_mem hp)
    · exact List.mem_append_left _ (List.mem_map_of_mem hq)
  | union hm => exact .union (forall₂_imp_of_mem hm hRS)
  | inter hm => exact .inter (forall₂_imp_of_mem hm hRS)
  | var name hb =>
    cases hb with
    | none => exact .var name .none
    | some h => exact .var name (.some (hRS _ (by simp [Ty.parts]) _ (by simp [Ty.parts]) h))

/-- The parts are related one by one. -/
theorem parts (hm : Mirrors R a b) : List.Forall₂ R a.parts b.parts := by
  have hrel {o o' : Option Ty} (ho : Option.Rel R o o') : List.Forall₂ R o.toList o'.toList := by
    cases ho with
    | none => exact .nil
    | some h => exact .cons h .nil
  cases hm with
  | atom ht =>
    have hnil : a.parts = [] := by
      simp only [atoms, List.mem_cons, List.not_mem_nil, or_false] at ht
      rcases ht with rfl | rfl | rfl | rfl | rfl | rfl | rfl <;> rfl
    rw [hnil]
    exact .nil
  | text _ | numeral _ | truth _ => exact .nil
  | object tag hp =>
    exact List.forall₂_map_left_iff.2 (List.forall₂_map_right_iff.2 (hp.imp fun _ _ h => h.type))
  | tuple he hr =>
    exact List.rel_append (List.forall₂_map_left_iff.2
      (List.forall₂_map_right_iff.2 (he.imp fun _ _ h => h.type))) (hrel hr)
  | function hp hr =>
    exact List.rel_append (List.forall₂_map_left_iff.2
      (List.forall₂_map_right_iff.2 (hp.imp fun _ _ h => h.type))) (.cons hr .nil)
  | union hm | inter hm => exact hm
  | var name hb => exact hrel hb

theorem ownNamed (hm : Mirrors R a b) (ha : a.OwnNamed) : b.OwnNamed := by
  cases hm with
  | object tag hp =>
    refine ⟨ha.1, fun q hq => ?_⟩
    obtain ⟨p, hp, h⟩ := exists_mem_left hp hq
    rw [← h.name]
    exact ha.2 p hp
  | atom _ => exact ha
  | var name _ => exact ha
  | _ => trivial

/-- A key is made of the outline and the keys of the parts. -/
theorem key_eq (hm : Mirrors R a b) (hR : ∀ s t, R s t → s.key = t.key) : a.key = b.key := by
  have hkeys {ms ns : List Ty} (hm : List.Forall₂ R ms ns) : keys ms = keys ns := by
    induction hm with
    | nil => rfl
    | cons h _ ih => rw [keys, keys, hR _ _ h, ih]
  have hprops {ps qs : List (Property Ty)} (hp : List.Forall₂ (Property.Mirrors R) ps qs) :
      keyProps ps = keyProps qs := by
    induction hp with
    | nil => rfl
    | cons h _ ih => rw [keyProps, keyProps, h.name, h.optional, h.readonly, hR _ _ h.type, ih]
  have helems {es fs : List (Elem Ty)} (he : List.Forall₂ (Elem.Mirrors R) es fs) :
      keyElems es = keyElems fs := by
    induction he with
    | nil => rfl
    | cons h _ ih => rw [keyElems, keyElems, h.optional, hR _ _ h.type, ih]
  have hparams {ps qs : List (Param Ty)} (hp : List.Forall₂ (Param.Mirrors R) ps qs) :
      keyParams ps = keyParams qs := by
    induction hp with
    | nil => rfl
    | @cons p q _ _ h _ ih =>
      rw [keyParams, keyParams, ← h.rest, hR _ _ h.type, ih]
      cases hr : p.rest with
      | true => rfl
      | false => rw [h.optional hr]
  cases hm with
  | atom _ => rfl
  | text hv => simp [key, Literal.base, Literal.render, Text.quote, hv]
  | numeral hn => simp [key, Literal.base, Literal.render, hn]
  | truth b => rfl
  | object tag hp => rw [key, key, hprops hp]
  | tuple he hr =>
    cases hr with
    | none => rw [key, key, helems he]
    | some h => rw [key, key, helems he, hR _ _ h]
  | function hp hr => rw [key, key, hparams hp, hR _ _ hr]
  | union hm => rw [key, key, hkeys hm]
  | inter hm => rw [key, key, hkeys hm]
  | var name hb =>
    cases hb with
    | none => rfl
    | some h => rw [key, key, hR _ _ h]

end Mirrors

theorem Named.reads {t : Ty} (ht : Named t) : Reads t := by
  induction t using parts_induction with
  | step t ih =>
    intro u hu r s hr hs h
    obtain ⟨hm, hrest⟩ := mirrors_of_append (fun t' ht' => ih t' ht' (ht.part ht')) ht hu hr hs h
    exact ⟨hm.key_eq fun _ _ h => h, hrest⟩

/-- Named types with one key have the same outline, and their parts have the same keys. -/
theorem mirrors_of_key_eq {a b : Ty} (ha : Named a) (hb : Named b) (hk : a.key = b.key) :
    Mirrors SameKey a b := by
  have h : a.key.toList ++ [] = b.key.toList ++ [] := by rw [hk]
  exact (mirrors_of_append (fun t ht => (ha.part ht).reads) ha hb (by simp [Text.Stops])
    (by simp [Text.Stops]) h).1

end Ty
end FlowTyping
