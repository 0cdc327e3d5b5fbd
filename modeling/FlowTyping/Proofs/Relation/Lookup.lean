import FlowTyping.Proofs.Relation.Contravariant
import FlowTyping.Proofs.Relation.Exclusion

/-!
# Properties found and properties asked for

A type can be asked for a property, and it can be compared with the shape that wants it. The first puts the
properties of the members of a union together into one; the second compares member by member. Both look through
the bounds of type parameters, and both know the length of texts and tuples.

* **`Ty.Overt`** — the types for which the two agree: none of the types that unions and bounds lead to is an
  intersection or a type parameter with the bound `never`.
* **`Universe.Sound.union_subtype_iff_of_stands`** — what is found in the members of a union need not be entries,
  but there are entries that stand for it. So the union of their types is below another exactly if each of them is.
* **`Universe.Sound.subtype_wanting_iff`** — the agreement, by induction over the type, and
  **`Universe.History.lookup_iff`**, in what a universe answers.
* **`Universe.veiled_not_found`** — where the name is no word, a shape fits that has no such property.
-/

namespace FlowTyping

open Ty

namespace Ty

variable {s t m : Ty} {ms : List Ty} {name : String}

/-- Opening unions and bounds leads from a type to another. -/
inductive Reaches : Ty → Ty → Prop where
  | self (t : Ty) : Reaches t t
  | member {m t : Ty} {ms : List Ty} (hm : m ∈ ms) (ht : Reaches m t) : Reaches (.union ms) t
  | bound {b t : Ty} {name : String} (ht : Reaches b t) : Reaches (.var name (some b)) t

/-- A type that is not `never`, and contains neither an intersection nor a type parameter with the bound
`never`, bounds included. -/
structure Overt (t : Ty) : Prop where
  ne_never : t ≠ .never
  no_inter : ∀ ms, ¬ Reaches t (.inter ms)
  no_empty : ∀ name, ¬ Reaches t (.var name (some .never))

theorem Overt.member (ht : Overt (.union ms)) (hm : m ∈ ms) (hn : m ≠ .never) : Overt m :=
  ⟨hn, fun _ hr => ht.no_inter _ (.member hm hr), fun _ hr => ht.no_empty _ (.member hm hr)⟩

theorem Overt.bound (ht : Overt (.var name (some t))) : Overt t := by
  refine ⟨?_, fun _ hr => ht.no_inter _ (.bound hr), fun _ hr => ht.no_empty _ (.bound hr)⟩
  rintro rfl
  exact ht.no_empty name (.self _)

/-- The shape that asks for one property, which is required and may be written. -/
def wanting (name : Text) (t : Ty) : Ty := .object "" [{ name, type := t }]

end Ty

/-! ## One property -/

namespace Hierarchy

variable {h : Hierarchy} {a b t T : Ty} {name : Text} {ms : List Ty}

/-- The type has a property of this name that is required and may be written, within a type. -/
def Offers (h : Hierarchy) (t : Ty) (name : Text) (T : Ty) : Prop :=
  ∃ p, h.propertyOf t name = some p ∧ p.optional = false ∧ p.readonly = false ∧ h.subtype p.type T = true

theorem objectSubtype_wanting_iff (ht : t ≠ .null) (ht' : t ≠ .undefined) :
    (Rules.objectSubtype h.answers t "" [{ name, type := T }]).run = true ↔ h.Offers t name T := by
  rw [Rules.run_objectSubtype _ _ ht ht', Bool.and_eq_true, Rules.propsSubtype_iff]
  simp only [Offers, List.forall_mem_singleton, Ideal.run_answers_propertyOf, Ideal.run_answers_subtype]
  cases h.propertyOf t name with
  | none => simp
  | some p => simp

theorem not_offers (hp : h.propertyOf t name = none) : ¬ h.Offers t name T := by
  rintro ⟨p, hp', -⟩
  simp [hp] at hp'

/-- A union offers a property if all of its members have one, none of them optional or readonly, and the union of
their types is within the type. -/
theorem offers_union_iff : h.Offers (.union ms) name T ↔ ∃ ps : List (Property Ty),
    (ms.map fun m => h.propertyOf m name) = ps.map some ∧ (∀ p ∈ ps, p.optional = false ∧ p.readonly = false) ∧
      h.subtype (h.union (ps.map (·.type))) T = true := by
  have hstep : h.propertyOf (.union ms) name = (Rules.sharedProps h.answers name ms).run.map fun ps =>
      { name, type := h.union (ps.map (·.type)), optional := ps.any (·.optional), readonly := ps.any (·.readonly) } := by
    rw [propertyOf_knot, Rules.propertyStep, Ideal.run_bind]
    cases (Rules.sharedProps h.answers name ms).run <;> rfl
  have hshared (ps : List (Property Ty)) : (Rules.sharedProps h.answers name ms).run = some ps ↔ _ :=
    Rules.sharedProps_some h.answers
  simp only [Ideal.run_answers_propertyOf] at hshared
  rw [Offers, hstep]
  constructor
  · rintro ⟨p, hp, ho, hr, hs⟩
    obtain ⟨ps, hps, rfl⟩ := Option.map_eq_some_iff.1 hp
    refine ⟨ps, (hshared ps).1 hps, fun p hp => ?_, hs⟩
    simp only [List.any_eq_false] at ho hr
    exact ⟨by simpa using ho p hp, by simpa using hr p hp⟩
  · rintro ⟨ps, hps, hflags, hs⟩
    refine ⟨_, Option.map_eq_some_iff.2 ⟨ps, (hshared ps).2 hps, rfl⟩, ?_, ?_, hs⟩
    · simpa using fun p hp => (hflags p hp).1
    · simpa using fun p hp => (hflags p hp).2

end Hierarchy

/-! ## Universes -/

namespace Universe

open Hierarchy

variable {h : Hierarchy} {u v : Universe} {c s t T : Ty} {ts us ms : List Ty} {name : Text}

/-- What is below an entry does not depend on the tree that stands for it. -/
theorem Sound.subtype_congr_left (hu : u.Sound h) (hs : u.Stands s t) (hc : u.Keeps c) :
    h.subtype t c = h.subtype s c :=
  (says_subtype hs (hu.stands hc)).unique hu (says_subtype (hu.stands (hu.keeps_of_stands hs)) (hu.stands hc))

/-- **A union of types that entries stand for is below an entry exactly if each of them is.** -/
theorem Sound.union_subtype_iff_of_stands (hu : u.Sound h) (hts : List.Forall₂ u.Stands ts us) (hc : u.Keeps c) :
    h.subtype (h.union us) c = true ↔ ∀ t ∈ us, h.subtype t c = true := by
  have hkeeps (t) (ht : t ∈ ts) : u.Keeps t := by
    obtain ⟨s, -, hs⟩ := exists_mem_right hts ht
    exact hu.keeps_of_stands hs
  -- one answer stands for both unions
  obtain ⟨hv, huv, hus⟩ := yields_union hts u hu (.refl h u)
  obtain ⟨-, -, hts'⟩ := yields_union (hu.stands_all hkeeps) u hu (.refl h u)
  rw [hv.subtype_congr_left hus (huv.keeps hc), ← hv.subtype_congr_left hts' (huv.keeps hc),
    hu.union_subtype_iff hkeeps hc]
  constructor
  · intro hall t ht
    obtain ⟨s, hmem, hs⟩ := exists_mem_left hts ht
    rw [hu.subtype_congr_left hs hc]
    exact hall s hmem
  · intro hall t ht
    obtain ⟨s, hmem, hs⟩ := exists_mem_right hts ht
    rw [← hu.subtype_congr_left hs hc]
    exact hall s hmem

/-- The types of the properties that entries have are stood for in some universe that comes of this one. -/
theorem Sound.exists_stands_props (hu : u.Sound h) (hms : ∀ m ∈ ms, u.Keeps m) {ps : List (Property Ty)}
    (hps : (ms.map fun m => h.propertyOf m name) = ps.map some) :
    ∃ v ts, v.Sound h ∧ u.Grows h v ∧ List.Forall₂ v.Stands ts (ps.map (·.type)) := by
  induction ms generalizing u ps with
  | nil =>
    obtain rfl : ps = [] := by simpa using hps.symm
    exact ⟨u, [], hu, .refl h u, .nil⟩
  | cons m ms ih =>
    cases ps with
    | nil => simp at hps
    | cons p ps =>
      obtain ⟨hp, hrest⟩ := List.cons_eq_cons.1 hps
      obtain ⟨hv, huv, hfound⟩ := yields_propertyOf (hu.stands (hms m (by simp))) name u hu (.refl h u)
      rw [show h.propertyOf m name = some p from hp] at hfound
      generalize ((TypeStore.propertyOf m name : InUniverse _).run u).1 = found at hfound
      cases hfound with
      | @some q _ hq =>
        obtain ⟨w, ts, hw, hvw, hts⟩ := ih hv (fun m hm => huv.keeps (hms m (by simp [hm]))) hrest
        exact ⟨w, q.type :: ts, hw, huv.trans hvw, .cons (hq.type.grows hvw) hts⟩

/-- An entry with the key of the shape is that shape, and so offers the property. -/
theorem Sound.offers_of_key_eq (hu : u.Sound h) (ht : u.Keeps t) (hT : u.Keeps T) (hname : name.IsWord)
    (hk : t.key = (wanting name T).key) : h.Offers t name T := by
  have hnamed : Named (wanting name T) := by
    refine .intro ⟨by decide, by simpa [wanting] using hname⟩ fun s hs => ?_
    obtain rfl : s = T := by simpa [wanting, parts] using hs
    exact hu.named hT
  obtain ⟨qs, rfl, hqs⟩ := (mirrors_of_key_eq (hu.named ht) hnamed hk).flip.object_inv
  obtain ⟨q, rest, hq, hrest, rfl⟩ := List.forall₂_cons_left_iff.1 hqs
  obtain rfl := List.forall₂_nil_left_iff.1 hrest
  have htype : q.type = T := (hu.part ht q.type (by simp [parts])).eq_of_key_eq hT hq.type
  refine ⟨q, ?_, hq.optional.symm, hq.readonly.symm, by rw [htype, h.subtype_self]⟩
  rw [propertyOf_knot]
  simp [Rules.propertyStep, findProp?, ← hq.name]

/-- **A type is below the shape that asks for a property exactly if it offers the property.** -/
theorem Sound.subtype_wanting_iff (hu : u.Sound h) (ht : u.Keeps t) (hT : u.Keeps T) (hname : name.IsWord)
    (ho : Overt t) : h.subtype t (wanting name T) = true ↔ h.Offers t name T := by
  induction t using parts_induction with
  | step t ih =>
    -- a type with the key of that shape is a shape with just that property
    by_cases hk : t.key = (wanting name T).key
    · exact iff_of_true (h.subtype_of_key_eq hk) (hu.offers_of_key_eq ht hT hname hk)
    have hrule : h.subtype t (wanting name T) = (Rules.subtypeRule h.answers t (wanting name T)).run := by
      rw [subtype_eq, decide_eq_false hk, Bool.false_or]
    have hnone (hp : (Rules.propertyStep h.answers t name).run = none) : ¬ h.Offers t name T :=
      not_offers (by rw [propertyOf_knot, hp])
    have hobject (hn : t ≠ .null) (hn' : t ≠ .undefined) :
        (Rules.objectSubtype h.answers t "" [{ name, type := T }]).run = true ↔ h.Offers t name T :=
      objectSubtype_wanting_iff hn hn'
    cases t with
    | never => exact absurd rfl ho.ne_never
    | inter ms => exact absurd (.self _) (ho.no_inter ms)
    | unknown | null | undefined => exact iff_of_false (by rw [hrule]; exact Bool.false_ne_true) (hnone rfl)
    | var name' bound =>
      have hvar : h.subtype (.var name' bound) (wanting name T) =
          bound.any fun c => h.subtype c (wanting name T) := by
        rw [hrule]
        exact Rules.run_varSubtype h.answers (.var name' bound) (wanting name T) bound
      cases bound with
      | none => exact iff_of_false (by rw [hvar]; exact Bool.false_ne_true) (hnone rfl)
      | some c =>
        have hbound : h.propertyOf (.var name' (some c)) name = h.propertyOf c name := by
          rw [propertyOf_knot]
          rfl
        rw [hvar, Offers, hbound]
        exact ih c (by simp [parts]) (hu.part ht c (by simp [parts])) ho.bound
    | union ms =>
      have hmember (m) (hm : m ∈ ms) : h.subtype m (wanting name T) = true ↔ h.Offers m name T := by
        have hne : m ≠ .never := by
          rintro rfl
          exact absurd ((hu.canonical ht).flat _ hm) (by decide)
        exact ih m hm (hu.part ht m hm) (ho.member hm hne)
      have hall : h.subtype (.union ms) (wanting name T) = true ↔ ∀ m ∈ ms, h.subtype m (wanting name T) = true :=
        ⟨fun hs m hm => subtype_of_mem_members hk hs hm, h.union_subtype rfl⟩
      have hunion {ps : List (Property Ty)} (hps : (ms.map fun m => h.propertyOf m name) = ps.map some) :
          h.subtype (h.union (ps.map (·.type))) T = true ↔ ∀ p ∈ ps, h.subtype p.type T = true := by
        obtain ⟨v, ts, hv, huv, hts⟩ := hu.exists_stands_props (fun m hm => hu.part ht m hm) hps
        rw [hv.union_subtype_iff_of_stands hts (huv.keeps hT), List.forall_mem_map]
      -- what the members offer is joined, and lies below `T` if all of it does
      rw [hall, offers_union_iff]
      constructor
      · intro hms
        have : Nonempty (Property Ty) := ⟨{ name, type := T }⟩
        choose! p hp hoptional hreadonly hs using fun m hm => (hmember m hm).1 (hms m hm)
        have hps : (ms.map fun m => h.propertyOf m name) = (ms.map p).map some := by
          rw [List.map_map]
          exact List.map_congr_left hp
        refine ⟨ms.map p, hps, List.forall_mem_map.2 fun m hm => ⟨hoptional m hm, hreadonly m hm⟩, ?_⟩
        exact (hunion hps).2 (List.forall_mem_map.2 hs)
      · rintro ⟨ps, hps, hflags, hs⟩ m hm
        obtain ⟨p, hp, hpm⟩ := List.mem_map.1 (hps ▸ List.mem_map_of_mem hm)
        exact (hmember m hm).2 ⟨p, hpm.symm, (hflags p hp).1, (hflags p hp).2, (hunion hps).1 hs p hp⟩
    | _ =>
      rw [hrule]
      exact hobject (by simp) (by simp)

/-- **A type is below the shape that asks for a property exactly if the property is found in it**, is neither
optional nor readonly, and has a type below the one that is asked for: in every universe that comes of a new one
by calls with words for names, by declarations of classes that leave what is remembered right, and by passes over
bodies, for every word as name. -/
theorem History.lookup_iff (hu : u.History) (t T : Ty) (ht : u.Keeps t) (hT : u.Keeps T) (ho : Overt t)
    (name : Text) (hname : name.IsWord) :
    ((do TypeStore.subtype t (← TypeStore.object "" [{ name, type := T }]) : InUniverse Bool).run u).1 = true ↔
      ∃ p v, (TypeStore.propertyOf t name : InUniverse _).run u = (some p, v) ∧ p.optional = false ∧
        p.readonly = false ∧ v.Below p.type T := by
  have hsound := hu.sound.1
  have hshape : u.Yields u.classes (TypeStore.object "" [{ name, type := T }]) fun v r =>
      v.Stands r (wanting name T) :=
    yields_object (by decide) (by simpa using hname) (.cons ⟨rfl, hsound.stands hT, rfl, rfl⟩ .nil)
  have hanswer : u.Says u.classes (do TypeStore.subtype t (← TypeStore.object "" [{ name, type := T }]))
      (u.classes.subtype t (wanting name T)) :=
    hshape.bind fun v r hv huv hr => says_subtype (hv.stands (huv.keeps ht)) hr
  rw [(hanswer u hsound (.refl _ u)).2.2, hsound.subtype_wanting_iff ht hT hname ho]
  obtain ⟨hv, huv, hfound⟩ := yields_propertyOf (hsound.stands ht) name u hsound (.refl _ u)
  generalize (TypeStore.propertyOf t name : InUniverse _).run u = answer at hv huv hfound
  obtain ⟨found, v⟩ := answer
  dsimp only at hv huv hfound
  rw [Offers]
  generalize u.classes.propertyOf t name = found' at hfound
  cases hfound with
  | none => exact iff_of_false (by simp) (by rintro ⟨p, w, heq, -⟩; cases heq)
  | @some p p' hp =>
    have hbelow : v.Below p.type T ↔ u.classes.subtype p'.type T = true := by
      rw [hv.below_iff (hv.keeps_of_stands hp.type) (huv.keeps hT), hv.subtype_congr_left hp.type (huv.keeps hT)]
    constructor
    · rintro ⟨q, heq, ho, hr, hs⟩
      obtain rfl := Option.some.inj heq
      exact ⟨p, v, rfl, hp.optional.trans ho, hp.readonly.trans hr, hbelow.2 hs⟩
    · rintro ⟨q, w, heq, ho, hr, hs⟩
      cases heq
      exact ⟨p', rfl, hp.optional.symm.trans ho, hp.readonly.symm.trans hr, hbelow.1 hs⟩

/-- Making a union of entries is part of a history. -/
theorem history_union (ts : List Ty) {entries entries' : List Ty} (hu : (holding entries).History)
    (hentries : (entries.map Ty.key).Nodup) (hts : ∀ t ∈ ts, t ∈ entries)
    (hrun : ((TypeStore.union ts : InUniverse Ty).run (holding entries)).2 = holding entries') :
    (holding entries').History := by
  have hcall : ((Call.union ts).serve.run (holding entries)).2 = holding entries' := hrun
  rw [← hcall]
  exact .call hu _ (fun t ht => (lookup?_holding hentries).2 ⟨hts t ht, rfl⟩) (by simp [Call.names])

/-- A shape with a number or another with a text under the same name. -/
def mixed : Ty := .union [numeric, textual]

/-- What the name stands for in either of the shapes. -/
def mixture : Ty := .union [.number, .string]

/-- The entries after the two shapes were put together by a union. -/
def mixedEntries : List Ty := clashing ++ [.literal (.bool true)] ++ [.literal (.bool false)] ++ [mixed]

theorem mixed_history : (holding (mixedEntries ++ [mixture])).History := by
  have hpair {a b : Ty} (hle : a.key ≤ b.key) : Ty.sortByKey [a, b] = [a, b] :=
    Ty.sortByKey_of_pairwise (by simpa using hle)
  have hmixed : (holding mixedEntries).History := by
    refine history_union [numeric, textual] clashing_history (by decide) (by simp [clashing]) ?_
    rw [run_union_of_simplified rfl (show Ty.simplified _ = [numeric, textual] from rfl),
      hpair (by with_unfolding_all decide), intern_of_not_mem (by decide) (by decide),
      intern_of_not_mem (by decide) (by decide), intern_of_not_mem (by decide) (by decide), mixedEntries, mixed]
  refine history_union [.number, .string] hmixed (by decide) (by simp [mixedEntries, clashing, atoms]) ?_
  rw [run_union_holding (by decide) (by simp [mixedEntries])
    (show alternativesAll _ = some [.number, .string] from rfl) rfl (hpair (by with_unfolding_all decide)), intern_of_not_mem (by decide) (by decide), mixture]

theorem mixed_overt : Overt mixed := by
  have hreaches {t : Ty} (ht : Reaches mixed t) : t = mixed ∨ t = numeric ∨ t = textual := by
    cases ht with
    | self _ => exact .inl rfl
    | member hm ht =>
      rcases (by simpa using hm : _ = numeric ∨ _ = textual) with rfl | rfl <;> cases ht <;> simp
  refine ⟨by simp [mixed], fun ms hr => ?_, fun name hr => ?_⟩ <;>
    simpa [mixed, numeric, textual] using hreaches hr

/-- The property of the union has a type of its own, which the shape asks for. -/
theorem mixed_lookup : (holding (mixedEntries ++ [mixture])).History ∧
    (holding (mixedEntries ++ [mixture])).Keeps mixed ∧ (holding (mixedEntries ++ [mixture])).Keeps mixture ∧
    Overt mixed ∧ Text.IsWord "a" ∧ ∃ p v,
      (TypeStore.propertyOf mixed "a" : InUniverse _).run (holding (mixedEntries ++ [mixture])) = (some p, v) ∧
        p.optional = false ∧ p.readonly = false ∧ v.Below p.type mixture := by
  have hkept (t : Ty) (ht : t ∈ mixedEntries ++ [mixture]) : (holding (mixedEntries ++ [mixture])).Keeps t :=
    (lookup?_holding (by decide)).2 ⟨ht, rfl⟩
  have hmixed := hkept mixed (by simp [mixedEntries])
  have hmixture := hkept mixture (by simp)
  have hbelow : ((do TypeStore.subtype mixed (← TypeStore.object "" [{ name := "a", type := mixture }]) :
      InUniverse Bool).run (holding (mixedEntries ++ [mixture]))).1 = true := by
    have hmade : (TypeStore.object "" [{ name := "a", type := mixture }] : InUniverse Ty).run
        (holding (mixedEntries ++ [mixture])) =
          (wanting "a" mixture, holding (mixedEntries ++ [mixture] ++ [wanting "a" mixture])) :=
      intern_of_not_mem (by decide) (by decide)
    rw [run_bind_of_run hmade]
    with_unfolding_all rfl
  exact ⟨mixed_history, hmixed, hmixture, mixed_overt, by decide,
    (mixed_history.lookup_iff mixed mixture hmixed hmixture mixed_overt "a" (by decide)).1 hbelow⟩

/-! ## A name that is no word -/

/-- A shape with a property for each of two names is taken for one with a single property, whose name reads like
the first of them with its type and the second. It is below the shape that asks for that property, and has none
of this name. -/
theorem veiled_not_found : (holding shapes).History ∧ (holding shapes).Keeps shapeAB ∧ (holding shapes).Keeps .number ∧
    Overt shapeAB ∧
    ((do TypeStore.subtype shapeAB (← TypeStore.object "" [{ name := "a:string;b", type := .number }]) :
      InUniverse Bool).run (holding shapes)).1 = true ∧
    ((TypeStore.propertyOf shapeAB "a:string;b" : InUniverse _).run (holding shapes)).1 = none := by
  have hkept (t : Ty) (ht : t ∈ shapes) : (holding shapes).Keeps t := (lookup?_holding (by decide)).2 ⟨ht, rfl⟩
  have hreaches {t : Ty} (ht : Reaches shapeAB t) : t = shapeAB := by
    cases ht
    rfl
  have hovert : Overt shapeAB :=
    ⟨by simp [shapeAB], fun _ hr => by simpa [shapeAB] using hreaches hr,
      fun _ hr => by simpa [shapeAB] using hreaches hr⟩
  refine ⟨shapes_history, hkept _ (by simp [shapes]), hkept _ (by simp [shapes, atoms]), hovert, ?_, rfl⟩
  have hmade : (TypeStore.object "" [{ name := "a:string;b", type := .number }] : InUniverse Ty).run
      (holding shapes) = (shapeAB, holding shapes) := by
    have hkey : (Ty.object "" [{ name := "a:string;b", type := .number }]).key = shapeAB.key := by decide
    exact intern_of_mem (by decide) (by simp [shapes]) hkey
  rw [run_bind_of_run hmade, subtype_self_eq]
  rfl

end Universe
end FlowTyping
