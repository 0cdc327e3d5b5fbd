import FlowTyping.Proofs.Relation.Order
import FlowTyping.Proofs.Store.Session

/-!
# What the table of a universe holds

After every session the table of a universe represents types: each entry stands under its own key, with
its parts, and in the form that the constructors give it. Of the members of an intersection no two
implied or excluded each other or could be merged when it was added.

* **`Universe.Represented`** — the form of a table.
* **`Universe.SideBySide`** — two types that the universe holds apart, by the answers that it gives.
* **`Session.run_represented`** — every session leaves such a table, and each intersection in it was added
  by a call after which its members stood side by side.
-/

namespace FlowTyping

namespace Ty

/-- Whether two types are object shapes with tags that allow merging them. -/
def mergeable (h : Hierarchy) : Ty → Ty → Bool
  | .object tagA _, .object tagB _ => (Rules.mergedTag h tagA tagB).isSome
  | _, _ => false

/-- With distinct names a property is found exactly if it is there. -/
theorem findProp?_eq_some_iff {props : List (Property Ty)} {name : Text} {p : Property Ty}
    (hprops : props.Pairwise fun p q => p.name < q.name) :
    findProp? props name = some p ↔ p ∈ props ∧ p.name = name := by
  refine ⟨findProp?_some, ?_⟩
  rintro ⟨hp, hname⟩
  induction props with
  | nil => simp at hp
  | cons q props ih =>
    obtain ⟨hq, hprops⟩ := List.pairwise_cons.1 hprops
    rw [findProp?, List.find?_cons]
    rcases List.mem_cons.1 hp with rfl | hp
    · simp [hname]
    · have hne : q.name ≠ name := by
        intro heq
        have hlt := hq p hp
        rw [hname, heq] at hlt
        exact Text.lt_irrefl _ hlt
      rw [show (q.name == name) = false by simpa using hne]
      exact ih hprops hp

end Ty

/-! ## The order of two types does not matter -/

namespace Rules

variable {h : Hierarchy}

theorem mergedTag_isSome_comm (tagA tagB : String) :
    (mergedTag h tagA tagB).isSome = (mergedTag h tagB tagA).isSome := by
  rw [mergedTag, mergedTag]
  by_cases heq : tagA = tagB
  · simp [heq]
  · cases hA : tagA.isEmpty <;> cases hB : tagB.isEmpty <;> cases hAB : h.derives tagA tagB <;>
      cases hBA : h.derives tagB tagA <;> simp [heq, Ne.symm heq]

theorem elemsDisjoint_comm {r : Rules (Ideal h)} {elemsA elemsB : List (Elem Ty)}
    (hdis : ∀ ea ∈ elemsA, ∀ eb ∈ elemsB, (r.disjoint ea.type eb.type).run =
      (r.disjoint eb.type ea.type).run) :
    (elemsDisjoint r elemsA elemsB).run = (elemsDisjoint r elemsB elemsA).run := by
  induction elemsA generalizing elemsB with
  | nil => cases elemsB <;> rfl
  | cons ea as ih =>
    cases elemsB with
    | nil => rfl
    | cons eb bs =>
      have hih := @ih bs fun e he f hf => hdis e (by simp [he]) f (by simp [hf])
      simp [elemsDisjoint, hih, hdis ea (by simp) eb (by simp), Bool.and_comm]

theorem propsDisjoint_iff {r : Rules (Ideal h)} {propsA propsB : List (Property Ty)}
    (hB : propsB.Pairwise fun p q => p.name < q.name) :
    (propsDisjoint r propsA propsB).run = true ↔ ∃ pa ∈ propsA, ∃ pb ∈ propsB, pa.name = pb.name ∧
      pa.optional = false ∧ pb.optional = false ∧ (r.disjoint pa.type pb.type).run = true := by
  rw [propsDisjoint, Ideal.run_anyM, List.any_eq_true]
  refine exists_congr fun pa => and_congr_right fun _ => ?_
  have hfind (pb) := @Ty.findProp?_eq_some_iff propsB pa.name pb hB
  cases hfound : Ty.findProp? propsB pa.name with
  | none =>
    simp only [Ideal.run_pure, Bool.false_eq_true, false_iff]
    rintro ⟨pb, hpb, hname, -⟩
    simp [(hfind pb).2 ⟨hpb, hname.symm⟩] at hfound
  | some pb =>
    obtain ⟨hpb, hname⟩ := (hfind pb).1 hfound
    simp only [Ideal.run_ite, Ideal.run_pure]
    constructor
    · intro hdis
      split at hdis
      · simp at hdis
      · rename_i hrequired
        simp only [Bool.or_eq_true, not_or, Bool.not_eq_true] at hrequired
        exact ⟨pb, hpb, hname.symm, hrequired.1, hrequired.2, hdis⟩
    · rintro ⟨pb', hpb', hname', hoa, hob, hdis⟩
      obtain rfl : pb = pb' := by simpa [hfound] using (hfind pb').2 ⟨hpb', hname'.symm⟩
      simpa [hoa, hob] using hdis

theorem propsDisjoint_comm {r : Rules (Ideal h)} {propsA propsB : List (Property Ty)}
    (hA : propsA.Pairwise fun p q => p.name < q.name)
    (hB : propsB.Pairwise fun p q => p.name < q.name)
    (hdis : ∀ pa ∈ propsA, ∀ pb ∈ propsB, (r.disjoint pa.type pb.type).run =
      (r.disjoint pb.type pa.type).run) :
    (propsDisjoint r propsA propsB).run = (propsDisjoint r propsB propsA).run := by
  rw [Bool.eq_iff_iff, propsDisjoint_iff hB, propsDisjoint_iff hA]
  constructor
  · rintro ⟨pa, hpa, pb, hpb, hname, hoa, hob, hd⟩
    exact ⟨pb, hpb, pa, hpa, hname.symm, hob, hoa, hdis pa hpa pb hpb ▸ hd⟩
  · rintro ⟨pb, hpb, pa, hpa, hname, hob, hoa, hd⟩
    exact ⟨pa, hpa, pb, hpb, hname.symm, hoa, hob, (hdis pa hpa pb hpb).symm ▸ hd⟩

/-- Two members stay side by side if neither implies the other, they do not exclude each other, and they
cannot be merged. -/
theorem combine_eq_apart_iff {a b : Ty} :
    (combine h.answers a b).run = .apart ↔ h.subtype a b = false ∧ h.subtype b a = false ∧
      h.disjoint a b = false ∧ Ty.mergeable h a b = false := by
  have hmerge : (mergeObjects h.answers a b).run = .apart ↔ Ty.mergeable h a b = false := by
    rw [mergeObjects.eq_def]
    split
    · rename_i tagA propsA tagB propsB
      simp only [Ideal.run_bind, Ideal.run_hierarchy, Ty.mergeable]
      cases mergedTag h tagA tagB with
      | none => simp
      | some tag =>
        simp only [Ideal.run_bind]
        cases (mergedProps h.answers propsB propsA).run <;> simp
    · rename_i hno
      rw [Ty.mergeable]
      · simp
      · exact hno
  rw [run_combine, Ideal.run_answers_subtype, Ideal.run_answers_subtype, Ideal.run_answers_disjoint,
    ← hmerge]
  cases h.subtype a b <;> cases h.subtype b a <;> cases h.disjoint a b <;> simp

end Rules

namespace Universe

open Ty Rules

variable {h : Hierarchy} {u : Universe} {a b : Ty}

/-- An entry is told by its key. -/
theorem Keeps.eq_of_key_eq (ha : u.Keeps a) (hb : u.Keeps b) (hkey : a.key = b.key) : a = b := by
  rw [Keeps, hkey, hb] at ha
  exact (Option.some.inj ha).symm

/-- What stands for a type with the key of an entry is that entry. -/
theorem Stands.eq_of_keeps {r s t : Ty} (hs : u.Stands r s) (ht : u.Keeps t) (hk : s.key = t.key) : r = t := by
  have hlookup := hs.lookup?
  rw [hk, ht] at hlookup
  exact (Option.some.inj hlookup).symm

theorem partsDisjoint_comm {P : Ty → Prop}
    (hordered : ∀ {tag : String} {props : List (Property Ty)}, P (.object tag props) →
      props.Pairwise fun p q => p.name < q.name) (ha : P a) (hb : P b)
    (ih : ∀ s ∈ a.parts, ∀ t ∈ b.parts,
      (h.answers.disjoint s t).run = (h.answers.disjoint t s).run) :
    (partsDisjoint h.answers a b).run = (partsDisjoint h.answers b a).run := by
  rw [partsDisjoint.eq_def _ a b]
  split
  · rfl
  · rw [partsDisjoint]
    exact propsDisjoint_comm (hordered ha) (hordered hb) fun pa hpa pb hpb =>
      ih _ (List.mem_map_of_mem hpa) _ (List.mem_map_of_mem hpb)
  · rename_i elemsA restA elemsB restB
    have helems : (elemsDisjoint h.answers elemsA elemsB).run =
        (elemsDisjoint h.answers elemsB elemsA).run :=
      elemsDisjoint_comm fun ea hea eb heb => ih _ (List.mem_append_left _ (List.mem_map_of_mem hea)) _
        (List.mem_append_left _ (List.mem_map_of_mem heb))
    have hfixed : (restA.isNone && restB.isNone && allRequired elemsA && allRequired elemsB &&
        elemsA.length != elemsB.length) = (restB.isNone && restA.isNone && allRequired elemsB &&
        allRequired elemsA && elemsB.length != elemsA.length) := by
      rw [bne_comm, Bool.and_comm restA.isNone, Bool.and_assoc _ (allRequired elemsA),
        Bool.and_comm (allRequired elemsA), ← Bool.and_assoc]
    rw [partsDisjoint, hfixed, Ideal.run_ite, Ideal.run_ite, helems]
  · rename_i hliteral hobject htuple
    rw [partsDisjoint]
    · exact fun _ _ hb ha => hliteral _ _ ha hb
    · exact fun _ _ _ _ hb ha => hobject _ _ _ _ ha hb
    · exact fun _ _ _ _ hb ha => htuple _ _ _ _ ha hb

/-- A member is no larger than the type, and smaller than a union. -/
theorem size_le_of_mem_members {m t : Ty} (hm : m ∈ t.members) :
    m.size ≤ t.size ∧ (t.isUnion = true → m.size < t.size) := by
  cases t with
  | never => simp [members] at hm
  | union ms =>
    have hlt : m.size < (Ty.union ms).size := size_lt_of_mem_parts hm
    exact ⟨Nat.le_of_lt hlt, fun _ => hlt⟩
  | _ =>
    obtain rfl := List.mem_singleton.1 hm
    exact ⟨Nat.le_refl _, by simp [isUnion]⟩

/-- Whether two types are disjoint does not depend on their order, if properties stand in order. -/
theorem disjoint_comm_of_ordered {P : Ty → Prop} (hpart : ∀ {t : Ty}, P t → ∀ s ∈ t.parts, P s)
    (hordered : ∀ {tag : String} {props : List (Property Ty)}, P (.object tag props) →
      props.Pairwise fun p q => p.name < q.name) (ha : P a) (hb : P b) : h.disjoint a b = h.disjoint b a := by
  have hmember {s t : Ty} (ht : P t) (hs : s ∈ t.members) : P s := of_mem_members ht (hpart ht) hs
  generalize hn : a.size + b.size = n
  induction n using Nat.strongRecOn generalizing a b with
  | ind n ih =>
    subst hn
    -- parts are smaller than their types, and so is a member of a union
    have hparts : (partsDisjoint h.answers a b).run = (partsDisjoint h.answers b a).run := by
      refine partsDisjoint_comm hordered ha hb fun s hs t ht => ?_
      have hs' := size_lt_of_mem_parts hs
      have ht' := size_lt_of_mem_parts ht
      rw [Ideal.run_answers_disjoint, Ideal.run_answers_disjoint]
      exact ih _ (by omega) (hpart ha s hs) (hpart hb t ht) rfl
    have hmembers (hunion : (a.isUnion || b.isUnion) = true) :
        (a.members.all fun s => b.members.all fun t => h.disjoint s t) =
          b.members.all fun t => a.members.all fun s => h.disjoint t s := by
      have hswap (s) (hs : s ∈ a.members) (t) (ht : t ∈ b.members) :
          h.disjoint s t = h.disjoint t s := by
        have hs' := size_le_of_mem_members hs
        have ht' := size_le_of_mem_members ht
        refine ih _ ?_ (hmember ha hs) (hmember hb ht) rfl
        rcases Bool.or_eq_true_iff.1 hunion with hunion | hunion
        · have := hs'.2 hunion
          omega
        · have := ht'.2 hunion
          omega
      rw [Bool.eq_iff_iff]
      simp only [List.all_eq_true]
      exact ⟨fun hall t ht s hs => hswap s hs t ht ▸ hall s hs t ht,
        fun hall s hs t ht => (hswap s hs t ht).symm ▸ hall t ht s hs⟩
    -- types of one key are disjoint to each other if they are `never`
    by_cases hkey : a.key = b.key
    · have hnever {x y : Ty} (hxy : x.key = y.key) (hx : x.isNever = true) : y.isNever = true := by
        cases x <;> simp [isNever] at hx
        rw [eq_of_key_eq_atom (by simp [atoms]) hxy.symm]
        rfl
      rw [h.disjoint_knot, h.disjoint_knot, run_disjointStep, run_disjointStep, if_pos (by simpa [same] using hkey),
        if_pos (by simpa [same] using hkey.symm), Bool.eq_iff_iff]
      exact ⟨hnever hkey, hnever hkey.symm⟩
    · rw [h.disjoint_knot, h.disjoint_knot, run_disjointStep, run_disjointStep]
      simp only [same, beq_iff_eq, hkey, Ne.symm hkey, if_false, Ideal.run_answers_subtype,
        Ideal.run_answers_disjoint, hparts, differInSort_comm b a, Bool.or_comm b.isNever,
        Bool.or_comm b.isUnion]
      split
      · rfl
      · split
        · exact hmembers ‹_›
        · by_cases hab : h.subtype a b = true <;> by_cases hba : h.subtype b a = true <;>
            simp [hab, hba]

/-- Whether two entries are disjoint does not depend on their order. -/
theorem Sound.disjoint_comm (hu : u.Sound h) (ha : u.Keeps a) (hb : u.Keeps b) :
    h.disjoint a b = h.disjoint b a :=
  disjoint_comm_of_ordered hu.part hu.orderly ha hb

/-! ## Tables -/

/-- A table that represents types. -/
structure Represented (u : Universe) : Prop where
  /-- Every entry stands under its own key. -/
  key_eq : ∀ k t, u.lookup? k = some t → t.key = k
  /-- The parts of an entry are entries. -/
  part : ∀ k t, u.lookup? k = some t → ∀ s ∈ t.parts, u.lookup? s.key = some s
  /-- Unions have two or more members, in the strict order of their keys: none is `never`, `unknown` or
  a union, no literal stands beside its atom, and not both booleans are there. -/
  union : ∀ k ms, u.lookup? k = some (.union ms) → UnionForm ms
  /-- Intersections have two or more members, in the strict order of their keys, none of which is
  `never`, `unknown`, a union or an intersection. -/
  inter : ∀ k ms, u.lookup? k = some (.inter ms) → InterForm ms
  /-- Properties stand in the strict order of their names. -/
  props : ∀ k tag props, u.lookup? k = some (.object tag props) →
    props.Pairwise fun p q => p.name < q.name
  /-- No required element stands after an optional one. -/
  elems : ∀ k elems rest, u.lookup? k = some (.tuple elems rest) →
    elems.Pairwise fun e f => e.optional = true → f.optional = true

theorem Sound.represented (hu : u.Sound h) : u.Represented := by
  have hkeeps {k : Text} {t : Ty} (hk : u.lookup? k = some t) : u.Keeps t := by
    rw [Keeps, hu.key_eq hk]
    exact hk
  exact
    { key_eq := fun _ _ hk => hu.key_eq hk
      part := fun _ _ hk => hu.part (hkeeps hk)
      union := fun _ _ hk => hu.orderly (hkeeps hk)
      inter := fun _ _ hk => hu.orderly (hkeeps hk)
      props := fun _ _ _ hk => hu.orderly (hkeeps hk)
      elems := fun _ _ _ hk => hu.orderly (hkeeps hk) }

/-- The universe answers that neither type is below the other and that they are not disjoint, whichever
is asked about first, and they cannot be merged. -/
structure SideBySide (u : Universe) (a b : Ty) : Prop where
  not_subtype : ((TypeStore.subtype a b : InUniverse Bool).run u).1 = false
  not_supertype : ((TypeStore.subtype b a : InUniverse Bool).run u).1 = false
  not_disjoint : ((TypeStore.disjoint a b : InUniverse Bool).run u).1 = false
  not_disjoint' : ((TypeStore.disjoint b a : InUniverse Bool).run u).1 = false
  not_mergeable : mergeable u.classes a b = false
  not_mergeable' : mergeable u.classes b a = false

theorem SideBySide.symm (hab : u.SideBySide a b) : u.SideBySide b a :=
  ⟨hab.not_supertype, hab.not_subtype, hab.not_disjoint', hab.not_disjoint, hab.not_mergeable',
    hab.not_mergeable⟩

theorem mergeable_comm (h : Hierarchy) (a b : Ty) : mergeable h a b = mergeable h b a := by
  cases a <;> cases b <;> first | rfl | exact mergedTag_isSome_comm ..

/-- Entries that do not combine stand side by side. -/
theorem Sound.sideBySide (hu : u.Sound h) (ha : u.Keeps a) (hb : u.Keeps b)
    (hapart : (combine h.answers a b).run = .apart) : u.SideBySide a b := by
  obtain ⟨hab, hba, hdis, hmerge⟩ := combine_eq_apart_iff.1 hapart
  have hsubtype {x y : Ty} (hx : u.Keeps x) (hy : u.Keeps y) :
      ((TypeStore.subtype x y : InUniverse Bool).run u).1 = h.subtype x y :=
    (says_subtype (hu.stands hx) (hu.stands hy) u hu (.refl h u)).2.2
  have hdisjoint {x y : Ty} (hx : u.Keeps x) (hy : u.Keeps y) :
      ((TypeStore.disjoint x y : InUniverse Bool).run u).1 = h.disjoint x y :=
    (says_disjoint (hu.stands hx) (hu.stands hy) u hu (.refl h u)).2.2
  refine ⟨?_, ?_, ?_, ?_, ?_, ?_⟩
  · rw [hsubtype ha hb, hab]
  · rw [hsubtype hb ha, hba]
  · rw [hdisjoint ha hb, hdis]
  · rw [hdisjoint hb ha, hu.disjoint_comm hb ha, hdis]
  · rw [hu.classes_eq, hmerge]
  · rw [hu.classes_eq, mergeable_comm, hmerge]

end Universe

/-! ## Sessions -/

namespace Session

open Universe

/-- The members of an intersection that a call adds stand side by side after it. -/
theorem sideBySide_of_call {s : Session} {c : Call} {ms : List Ty} (hs : s.Sound)
    (htypes : ∀ t ∈ c.types, t ∈ s.answered) (hnames : ∀ w ∈ c.names, w.IsWord)
    (hnew : ¬ s.store.Keeps (.inter ms)) (hkept : (s.call c).store.Keeps (.inter ms)) :
    ms.Pairwise (s.call c).store.SideBySide := by
  obtain ⟨⟨h, hv, -⟩, huv⟩ := call_sound hs htypes hnames
  rw [hv.classes_eq] at huv
  have hsettled := (huv.settled hkept).resolve_left hnew
  refine hsettled.imp_of_mem fun {a b} ha hb hab => ?_
  have ha := hv.part hkept a ha
  have hb := hv.part hkept b hb
  rcases hab with hab | hab
  · exact hv.sideBySide ha hb hab
  · exact (hv.sideBySide hb ha hab).symm

/-- An intersection that was not there at first was added by one of the calls. -/
theorem exists_call_of_run {s : Session} {calls : List Call} {ms : List Ty} (hs : s.Sound)
    (hcalls : s.Proper calls) (hnew : ¬ s.store.Keeps (.inter ms))
    (hkept : (s.run calls).store.Keeps (.inter ms)) :
    ∃ before c after, calls = before ++ c :: after ∧ ¬ (s.run before).store.Keeps (.inter ms) ∧
      (s.run (before ++ [c])).store.Keeps (.inter ms) ∧
      ms.Pairwise (s.run (before ++ [c])).store.SideBySide := by
  induction calls generalizing s with
  | nil => exact absurd hkept hnew
  | cons c calls ih =>
    obtain ⟨htypes, hnames, hrest⟩ := hcalls
    by_cases hadded : (s.call c).store.Keeps (.inter ms)
    · exact ⟨[], c, calls, rfl, hnew, hadded, sideBySide_of_call hs htypes hnames hnew hadded⟩
    · obtain ⟨before, c', after, rfl, hadded⟩ := ih (call_sound hs htypes hnames).1 hrest hadded hkept
      exact ⟨c :: before, c', after, rfl, hadded⟩

/-- Every session leaves a table that represents types. Each intersection in it was added by one of the
calls, and right after that call its members stood side by side. Sessions are made of the universe's own
operations; a class that is declared in its hierarchy alone, without a shape, is no part of one. -/
theorem run_represented (memory : Nat) (calls : List Call) (hcalls : (start memory).Proper calls) :
    ((start memory).run calls).store.Represented ∧
      ∀ ms, ((start memory).run calls).store.Keeps (.inter ms) →
        ∃ before c after, calls = before ++ c :: after ∧
          ¬ ((start memory).run before).store.Keeps (.inter ms) ∧
          ((start memory).run (before ++ [c])).store.Keeps (.inter ms) ∧
          ms.Pairwise ((start memory).run (before ++ [c])).store.SideBySide := by
  obtain ⟨h, hu, -⟩ := run_sound (start_sound memory) hcalls
  refine ⟨hu.represented, fun ms hms => exists_call_of_run (start_sound memory) hcalls ?_ hms⟩
  intro hnew
  have hatom := (lookup?_new.1 hnew).1
  simp [Ty.atoms] at hatom

/-! ### A session with an intersection -/

/-- Makes a type parameter and intersects it with an atom. -/
def meeting : List Call := [.typeVar "T" none, .intersect [.var "T" none, .string]]

/-- The type parameter is new. -/
theorem call_typeVar : (start 0).call (.typeVar "T" none) =
    { store := holding (Ty.atoms ++ [.var "T" none]), answered := .var "T" none :: Ty.atoms } := by
  show ({ store := ((holding Ty.atoms).intern (.var "T" none)).2
          answered := [((holding Ty.atoms).intern (.var "T" none)).1] ++ Ty.atoms } : Session) = _
  rw [intern_of_not_mem (by decide) (by decide)]
  rfl

theorem meeting_proper : (start 0).Proper meeting := by
  refine ⟨by simp [Call.types], ?_, ?_, by simp [Call.names], trivial⟩
  · simp only [Call.names, List.mem_singleton, forall_eq]
    exact List.all_eq_true.1 (by decide)
  · rw [call_typeVar]
    simp [Call.types, Ty.atoms]

/-- A type parameter without a bound and an atom stay side by side. -/
theorem intersect_typeVar : ({} : Hierarchy).intersect [.var "T" none, .string] =
    .inter (Ty.sortByKey [.var "T" none, .string]) := by
  have hsub : ({} : Hierarchy).subtype (.var "T" none) .string = false := by
    rw [Hierarchy.subtype_knot]
    rfl
  have hsub' : ({} : Hierarchy).subtype .string (.var "T" none) = false := by
    rw [Hierarchy.subtype_knot]
    rfl
  have hdis : ({} : Hierarchy).disjoint (.var "T" none) .string = false := by
    rw [Hierarchy.disjoint_knot, Rules.run_disjointStep]
    simp only [Ideal.run_answers_subtype, hsub, hsub']
    rfl
  have hapart : (Rules.combine ({} : Hierarchy).answers (.var "T" none) .string).run = .apart :=
    Rules.combine_eq_apart_iff.2 ⟨hsub, hsub', hdis, rfl⟩
  have hopened : Ty.conjunctsAll [Ty.var "T" none, .string] = some [.var "T" none, .string] := rfl
  have hdistinct : Ty.dedup [Ty.var "T" none, .string] = [.var "T" none, .string] := rfl
  rw [Hierarchy.intersect_knot, Rules.intersectStep]
  simp only [hopened, hdistinct, Ty.firstUnion?, Option.map, Rules.fuseAll, List.length,
    Rules.fuseFirst, Rules.fuseWith, Ideal.run_bind, hapart]
  rfl

theorem meeting_keeps : ∃ ms, ((start 0).run meeting).store.Keeps (.inter ms) := by
  obtain ⟨-, hnames, htypes, -⟩ := meeting_proper
  obtain ⟨h, hu, hanswered⟩ := (call_sound (start_sound 0) (by simp [Call.types]) hnames).1
  obtain rfl : h = {} := by
    rw [← hu.classes_eq, call_typeVar]
    rfl
  rw [Call.types] at htypes
  obtain ⟨hv, -, hmet⟩ :=
    yields_intersect (hu.stands_all fun t ht => hanswered t (htypes t ht)) _ hu (.refl _ _)
  have hkept := hv.keeps_of_stands hmet
  rw [intersect_typeVar] at hmet
  obtain ⟨ms, heq, -⟩ := (hv.mirroring.mirrors hmet).flip.inter_inv
  rw [heq] at hkept
  exact ⟨ms, hkept⟩

theorem meeting_represented : (start 0).Proper meeting ∧
    ((start 0).run meeting).store.Represented ∧
      ∃ ms, ((start 0).run meeting).store.Keeps (.inter ms) ∧
        ∃ before c after, meeting = before ++ c :: after ∧
          ms.Pairwise ((start 0).run (before ++ [c])).store.SideBySide := by
  obtain ⟨hrepresented, hinter⟩ := run_represented 0 meeting meeting_proper
  obtain ⟨ms, hms⟩ := meeting_keeps
  obtain ⟨before, c, after, heq, -, -, hsides⟩ := hinter ms hms
  exact ⟨meeting_proper, hrepresented, ms, hms, before, c, after, heq, hsides⟩

end Session
end FlowTyping
