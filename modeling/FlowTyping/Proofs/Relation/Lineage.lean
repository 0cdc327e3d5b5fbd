import FlowTyping.Proofs.Relation.Hereditary
import Mathlib.Logic.Relation

/-!
# What the relations know of classes

Of the declared classes the four questions about types ask one thing only: which class derives from which.
The shapes of the classes play no part, and neither does the order in which they were declared. So two
hierarchies with the same lineage answer alike.

* **`Hierarchy.derives_iff`** — a class derives from those that it reaches by parent links. One sweep finds
  them all, since a class is declared after its parents (`Hierarchy.Declared`).
* **`Hierarchy.derives_antisymm`**, **`Hierarchy.derives_declare_of_ne`**,
  **`Hierarchy.derives_declare_self`** — no two classes derive from each other, and what a class derives from
  is settled when it is declared.
* **`Rules.Matches P r q`** — answers over two hierarchies that are the same on all types with a property,
  which has to be hereditary.
* **`Rules.matches_upTo`** — each rule, given such answers to the smaller questions, gives such an answer.
* **`Hierarchy.subtype_eq_of_derives`**, … — the public operations.
-/

namespace FlowTyping

open Relation

/-! ## Lineage -/

namespace Hierarchy

variable {h k : Hierarchy} {c : ClassDecl} {cs : List ClassDecl} {x y z : String}

/-- A class with one of its parents. -/
def Parent (cs : List ClassDecl) (x y : String) : Prop := ∃ c ∈ cs, c.name = x ∧ y ∈ c.parents

/-- The classes are declared one after the other, the newest first: none is declared again, and the
parents of each are declared before it. -/
def Declared : List ClassDecl → Prop
  | [] => True
  | c :: cs => (∀ d ∈ cs, d.name ≠ c.name) ∧ (∀ p ∈ c.parents, ∃ d ∈ cs, d.name = p) ∧ Declared cs

/-- A class that is declared comes before the others. -/
theorem eq_of_declare (hk : h.declare c = .ok k) : k = { classes := c :: h.classes } := by
  rw [declare] at hk
  split at hk
  · simp at hk
  · split at hk
    · simp at hk
    · exact (Except.ok.inj hk).symm

theorem declared_of_declare (hh : Declared h.classes) (hk : h.declare c = .ok k) :
    k.classes = c :: h.classes ∧ Declared k.classes := by
  have hmem {name : String} (hfind : (h.find? name).isSome) : ∃ d ∈ h.classes, d.name = name := by
    obtain ⟨d, hd⟩ := Option.isSome_iff_exists.1 hfind
    exact ⟨d, List.mem_of_find?_eq_some hd, by simpa using List.find?_some hd⟩
  rw [declare] at hk
  split at hk
  · simp at hk
  rename_i hnew
  split at hk
  · simp at hk
  rename_i hparents
  obtain rfl := Except.ok.inj hk
  refine ⟨rfl, fun d hd heq => hnew ?_, fun p hp => hmem ?_, hh⟩
  · rw [find?, List.find?_isSome]
    exact ⟨d, hd, by simpa using heq⟩
  · simpa [Option.isSome_iff_ne_none] using List.find?_eq_none.1 hparents p hp

theorem find?_eq_some_iff (hh : Declared h.classes) : h.find? x = some c ↔ c ∈ h.classes ∧ c.name = x := by
  constructor
  · intro hc
    exact ⟨List.mem_of_find?_eq_some hc, by simpa using List.find?_some hc⟩
  · rintro ⟨hc, rfl⟩
    unfold find?
    generalize h.classes = cs at hh hc
    induction cs with
    | nil => simp at hc
    | cons d ds ih =>
      obtain ⟨hnew, -, hds⟩ := hh
      rcases List.mem_cons.1 hc with rfl | hc
      · simp
      · rw [List.find?_cons_of_neg (by simpa using (hnew c hc).symm)]
        exact ih hds hc

/-- No class is a parent of one that was declared before it, so a chain of parents that does not begin with
the newest class never comes to it. -/
theorem chain_of_ne (hcs : Declared (c :: cs)) (hx : x ≠ c.name)
    (hchain : ReflTransGen (Parent (c :: cs)) x y) : ReflTransGen (Parent cs) x y ∧ y ≠ c.name := by
  obtain ⟨hnew, -, hcs⟩ := hcs
  have hdeclared {cs : List ClassDecl} (hcs : Declared cs) {x y : String} (hxy : Parent cs x y) :
      ∃ d ∈ cs, d.name = y := by
    induction cs with
    | nil => simp [Parent] at hxy
    | cons d ds ih =>
      obtain ⟨-, hparents, hds⟩ := hcs
      obtain ⟨e, he, rfl, hy⟩ := hxy
      rcases List.mem_cons.1 he with rfl | he
      · obtain ⟨d', hd', heq⟩ := hparents y hy
        exact ⟨d', List.mem_cons_of_mem _ hd', heq⟩
      · obtain ⟨d', hd', heq⟩ := ih hds ⟨e, he, rfl, hy⟩
        exact ⟨d', List.mem_cons_of_mem _ hd', heq⟩
  induction hchain with
  | refl => exact ⟨.refl, hx⟩
  | tail _ hlink ih =>
    obtain ⟨hbefore, hne⟩ := ih
    obtain ⟨d, hd, rfl, hy⟩ := hlink
    rcases List.mem_cons.1 hd with rfl | hd
    · exact absurd rfl hne
    · have hlink : Parent cs d.name _ := ⟨d, hd, rfl, hy⟩
      obtain ⟨e, he, rfl⟩ := hdeclared hcs hlink
      exact ⟨hbefore.tail hlink, hnew e he⟩

/-- A chain of parents stays one when a class is added. -/
theorem chain_mono (hchain : ReflTransGen (Parent cs) x y) : ReflTransGen (Parent (c :: cs)) x y :=
  ReflTransGen.mono (fun _ _ ⟨d, hd, hlink⟩ => ⟨d, List.mem_cons_of_mem _ hd, hlink⟩) _ _ hchain

/-- Only the first link of a chain may be one of the newest class. -/
theorem chain_newest_iff (hcs : Declared (c :: cs)) :
    ReflTransGen (Parent (c :: cs)) c.name y ↔
      y = c.name ∨ ∃ p ∈ c.parents, ReflTransGen (Parent cs) p y := by
  constructor
  · intro hchain
    rcases hchain.cases_head with rfl | ⟨z, ⟨d, hd, hname, hz⟩, hzy⟩
    · exact .inl rfl
    · obtain rfl : d = c := by
        rcases List.mem_cons.1 hd with rfl | hd
        · rfl
        · exact absurd hname (hcs.1 d hd)
      obtain ⟨e, he, rfl⟩ := hcs.2.1 z hz
      exact .inr ⟨e.name, hz, (chain_of_ne hcs (hcs.1 e he) hzy).1⟩
  · rintro (rfl | ⟨p, hp, hchain⟩)
    · exact .refl
    · exact .head ⟨c, by simp, rfl, hp⟩ (chain_mono hchain)

/-- A sweep collects all that is reached by parent links. -/
theorem mem_sweep (hcs : Declared cs) (reached : List String) :
    y ∈ sweep cs reached ↔ ∃ x ∈ reached, ReflTransGen (Parent cs) x y := by
  induction cs generalizing reached with
  | nil =>
    rw [sweep]
    constructor
    · intro hy
      exact ⟨y, hy, .refl⟩
    · rintro ⟨x, hx, hxy⟩
      rcases hxy.cases_head with rfl | ⟨z, hlink, -⟩
      · exact hx
      · simp [Parent] at hlink
  | cons c cs ih =>
    rw [sweep]
    refine (ih hcs.2.2 _).trans ?_
    constructor
    · -- the newest class is no parent, so only a chain from itself goes through it
      rintro ⟨x, hx, hxy⟩
      by_cases hc : reached.contains c.name = true
      · rw [if_pos hc] at hx
        rcases List.mem_append.1 hx with hx | hx
        · exact ⟨c.name, by simpa using hc, (chain_newest_iff hcs).2 (.inr ⟨x, hx, hxy⟩)⟩
        · exact ⟨x, hx, chain_mono hxy⟩
      · rw [if_neg hc] at hx
        exact ⟨x, hx, chain_mono hxy⟩
    · rintro ⟨x, hx, hxy⟩
      have hkept (z : String) (hz : z ∈ reached) :
          z ∈ if reached.contains c.name = true then c.parents ++ reached else reached := by
        split
        · exact List.mem_append_right _ hz
        · exact hz
      by_cases hne : x = c.name
      · subst hne
        rcases (chain_newest_iff hcs).1 hxy with rfl | ⟨z, hz, hzy⟩
        · exact ⟨c.name, hkept _ hx, .refl⟩
        · refine ⟨z, ?_, hzy⟩
          rw [if_pos (by simpa using hx)]
          exact List.mem_append_left _ hz
      · exact ⟨x, hkept x hx, (chain_of_ne hcs hne hxy).1⟩

/-- Two classes that reach each other are one: of two, the newer is not reached by the older. -/
theorem chain_antisymm (hcs : Declared cs) (hxy : ReflTransGen (Parent cs) x y)
    (hyx : ReflTransGen (Parent cs) y x) : x = y := by
  induction cs with
  | nil =>
    rcases hxy.cases_head with rfl | ⟨z, hlink, -⟩
    · rfl
    · simp [Parent] at hlink
  | cons c cs ih =>
    by_cases hx : x = c.name
    · by_contra hne
      exact (chain_of_ne hcs (fun hy => hne (hx.trans hy.symm)) hyx).2 hx
    · obtain ⟨hbefore, hy⟩ := chain_of_ne hcs hx hxy
      exact ih hcs.2.2 hbefore (chain_of_ne hcs hy hyx).1

/-- **A class derives from those that it reaches by parent links.** -/
theorem derives_iff (hh : Declared h.classes) :
    h.derives x y = true ↔ ReflTransGen (Parent h.classes) x y := by
  rw [derives, Bool.or_eq_true, beq_iff_eq, List.contains_iff_mem, mem_sweep hh]
  constructor
  · rintro (rfl | ⟨z, hz, hzy⟩)
    · exact .refl
    · obtain rfl : z = x := by simpa using hz
      exact hzy
  · intro hxy
    exact .inr ⟨x, by simp, hxy⟩

theorem derives_refl (h : Hierarchy) (x : String) : h.derives x x = true := by
  rw [derives, beq_self_eq_true, Bool.true_or]

theorem derives_trans (hh : Declared h.classes) (hxy : h.derives x y = true)
    (hyz : h.derives y z = true) : h.derives x z = true :=
  (derives_iff hh).2 (((derives_iff hh).1 hxy).trans ((derives_iff hh).1 hyz))

theorem derives_antisymm (hh : Declared h.classes) (hxy : h.derives x y = true)
    (hyx : h.derives y x = true) : x = y :=
  chain_antisymm hh ((derives_iff hh).1 hxy) ((derives_iff hh).1 hyx)

/-- A class that is declared changes nothing about what the others derive from. -/
theorem derives_declare_of_ne (hh : Declared h.classes) (hk : h.declare c = .ok k) (hx : x ≠ c.name)
    (y : String) : k.derives x y = h.derives x y := by
  obtain ⟨hclasses, hdeclared⟩ := declared_of_declare hh hk
  rw [Bool.eq_iff_iff, derives_iff hdeclared, derives_iff hh, hclasses]
  exact ⟨fun hchain => (chain_of_ne (hclasses ▸ hdeclared) hx hchain).1, chain_mono⟩

/-- It derives from itself and from what its parents derive from. -/
theorem derives_declare_self (hh : Declared h.classes) (hk : h.declare c = .ok k) (y : String) :
    k.derives c.name y = true ↔ y = c.name ∨ ∃ p ∈ c.parents, h.derives p y = true := by
  obtain ⟨hclasses, hdeclared⟩ := declared_of_declare hh hk
  simp only [derives_iff hdeclared, derives_iff hh, hclasses]
  exact chain_newest_iff (hclasses ▸ hdeclared)

/-- The lineage is the same if each name has the same parents. -/
theorem derives_eq_of_parents (hh : Declared h.classes) (hk : Declared k.classes)
    (hparents : ∀ name, (h.find? name).map (·.parents) = (k.find? name).map (·.parents)) :
    h.derives = k.derives := by
  have hparent {h : Hierarchy} (hh : Declared h.classes) (x y : String) :
      Parent h.classes x y ↔ ∃ ps ∈ (h.find? x).map (·.parents), y ∈ ps := by
    simp only [Option.mem_def, Option.map_eq_some_iff, find?_eq_some_iff hh, Parent]
    constructor
    · rintro ⟨c, hc, hx, hy⟩
      exact ⟨c.parents, ⟨c, ⟨hc, hx⟩, rfl⟩, hy⟩
    · rintro ⟨_, ⟨c, ⟨hc, hx⟩, rfl⟩, hy⟩
      exact ⟨c, hc, hx, hy⟩
  have hlinks : Parent h.classes = Parent k.classes := by
    funext x y
    rw [hparent hh, hparent hk, hparents]
  funext x y
  rw [Bool.eq_iff_iff, derives_iff hh, derives_iff hk, hlinks]

end Hierarchy

/-! ## Rules -/

namespace Rules

variable {h k : Hierarchy} {P : Ty → Prop} {a b : Ty} {r : Rules (Ideal h)} {q : Rules (Ideal k)}

/-- The classes that tag shapes with the property derive from one another alike. -/
structure SameLineage (P : Ty → Prop) (h k : Hierarchy) : Prop where
  derives : ∀ {s t : String} {propsS propsT : List (Property Ty)}, P (.object s propsS) →
    P (.object t propsT) → s ≠ "" → t ≠ "" → h.derives s t = k.derives s t

/-- The answers about types with the property are the same, over two hierarchies. -/
structure Matches (P : Ty → Prop) (r : Rules (Ideal h)) (q : Rules (Ideal k)) : Prop where
  subtype : ∀ {a b : Ty}, P a → P b → (r.subtype a b).run = (q.subtype a b).run
  disjoint : ∀ {a b : Ty}, P a → P b → (r.disjoint a b).run = (q.disjoint a b).run
  propertyOf : ∀ {t : Ty} (name : Text), P t → (r.propertyOf t name).run = (q.propertyOf t name).run
  intersect : ∀ {ts : List Ty}, (∀ t ∈ ts, P t) → (r.intersect ts).run = (q.intersect ts).run

namespace Matches

/-- Here the lineage is asked for. -/
theorem tagFits_eq (hd : SameLineage P h k) {tag : String} {props : List (Property Ty)} (ha : P a)
    (hb : P (.object tag props)) : (tag.isEmpty || tagFits h tag a) = (tag.isEmpty || tagFits k tag a) := by
  by_cases htag : tag = ""
  · rw [htag]
    rfl
  · cases a with
    | object own _ =>
      by_cases hown : own = ""
      · rw [hown]
        rfl
      · rw [tagFits, tagFits, hd.derives ha hb hown htag]
    | _ => rfl

/-- Here it is asked for once more. -/
theorem mergedTag_eq (hd : SameLineage P h k) {tagA tagB : String} {propsA propsB : List (Property Ty)}
    (ha : P (.object tagA propsA)) (hb : P (.object tagB propsB)) :
    mergedTag h tagA tagB = mergedTag k tagA tagB := by
  by_cases hA : tagA = ""
  · subst hA
    rfl
  · by_cases hB : tagB = ""
    · subst hB
      rfl
    · rw [mergedTag, mergedTag, hd.derives ha hb hA hB, hd.derives hb ha hB hA]

variable (hP : Ty.Hereditary P) (hr : Matches P r q) (hi : Inherits P r) (hd : SameLineage P h k)

include hP hr

section Subtype

include hi hd

theorem objectSubtype {tag : String} {props : List (Property Ty)} (ha : P a) (hb : P (.object tag props)) :
    (r.objectSubtype a tag props).run = (q.objectSubtype a tag props).run := by
  by_cases hnull : a = .null
  · subst hnull
    rfl
  by_cases hundefined : a = .undefined
  · subst hundefined
    rfl
  have hprop {pb : Property Ty} (hpb : pb ∈ props) : P pb.type := hP.part hb (List.mem_map_of_mem hpb)
  rw [run_objectSubtype r a hnull hundefined, run_objectSubtype q a hnull hundefined, tagFits_eq hd ha hb,
    propsSubtype_congr (fun name => hr.propertyOf name ha) fun pb hpb pa hpa =>
      hr.subtype (hi.property ha hpa) (hprop hpb)]

theorem plainSubtype (ha : P a) (hb : P b) : (r.plainSubtype a b).run = (q.plainSubtype a b).run := by
  unfold Rules.plainSubtype
  split
  · exact hr.objectSubtype hP hi hd ha hb
  · exact elemsSubtype_congr fun s hs t ht => hr.subtype (hP.part ha hs) (hP.part hb ht)
  · rename_i paramsA retA paramsB retB
    have hargs : ∀ pa ∈ paramsA, ∀ pb ∈ paramsB,
        (r.subtype (argType pb) (argType pa)).run = (q.subtype (argType pb) (argType pa)).run :=
      fun pa hpa pb hpb => hr.subtype (hP.argType (hP.part hb (List.mem_append_left _ (List.mem_map_of_mem hpb))))
        (hP.argType (hP.part ha (List.mem_append_left _ (List.mem_map_of_mem hpa))))
    have hret : (r.subtype retA retB).run = (q.subtype retA retB).run :=
      hr.subtype (hP.part ha (List.mem_append_right _ (by simp)))
        (hP.part hb (List.mem_append_right _ (by simp)))
    simp [functionSubtype, paramsSubtype_congr hargs, hret]
  all_goals rfl

theorem rightSubtype (ha : P a) (hb : P b) : (r.rightSubtype a b).run = (q.rightSubtype a b).run := by
  -- one side is taken apart
  have hright {bs : List Ty} (heq : b = .union bs) : (bs.any fun t => (r.subtype a t).run) =
      bs.any fun t => (q.subtype a t).run := by
    subst heq
    exact any_congr_of_mem fun t ht => hr.subtype ha (hP.part hb ht)
  have hleft {as : List Ty} (heq : a = .inter as) : (as.any fun t => (r.subtype t b).run) =
      as.any fun t => (q.subtype t b).run := by
    subst heq
    exact any_congr_of_mem fun t ht => hr.subtype (hP.part ha ht) hb
  unfold Rules.rightSubtype
  split
  · simp [hright rfl, hleft rfl]
  · simp [hright rfl]
  · simp [hleft rfl, hr.objectSubtype hP hi hd ha hb]
  · simp [hleft rfl]
  · exact hr.plainSubtype hP hi hd ha hb

omit hi hd in
theorem varSubtype {v : String} {bound : Option Ty} (ha : P (.var v bound)) (hb : P b) :
    (r.varSubtype (.var v bound) bound b).run = (q.varSubtype (.var v bound) bound b).run := by
  have hmembers : (b.members.any fun t => (r.subtype (.var v bound) t).run) =
      b.members.any fun t => (q.subtype (.var v bound) t).run :=
    any_congr_of_mem fun t ht => hr.subtype ha (hP.member hb ht)
  have hbound : (bound.any fun c => (r.subtype c b).run) = bound.any fun c => (q.subtype c b).run := by
    cases bound with
    | none => rfl
    | some c => exact hr.subtype (hP.part ha (by simp [Ty.parts])) hb
  rw [run_varSubtype, run_varSubtype, hmembers, hbound]

theorem subtypeRule (ha : P a) (hb : P b) : (r.subtypeRule a b).run = (q.subtypeRule a b).run := by
  unfold Rules.subtypeRule
  split
  · rfl
  · rfl
  · rfl
  · rfl
  · rename_i as _ _
    rw [Ideal.run_allM, Ideal.run_allM]
    exact all_congr_of_mem fun t ht => hr.subtype (hP.part ha ht) hb
  · rename_i bs _ _ _
    rw [Ideal.run_allM, Ideal.run_allM]
    exact all_congr_of_mem fun t ht => hr.subtype ha (hP.part hb ht)
  · exact hr.varSubtype hP ha hb
  · exact hr.rightSubtype hP hi hd ha hb

end Subtype

theorem partsDisjoint (ha : P a) (hb : P b) : (r.partsDisjoint a b).run = (q.partsDisjoint a b).run := by
  unfold Rules.partsDisjoint
  split
  · rfl
  · exact propsDisjoint_congr fun pa hpa pb hpb =>
      hr.disjoint (hP.part ha (List.mem_map_of_mem hpa)) (hP.part hb (List.mem_map_of_mem hpb))
  · have helems := elemsDisjoint_congr fun ea hea eb heb =>
      hr.disjoint (hP.part ha (List.mem_append_left _ (List.mem_map_of_mem hea)))
        (hP.part hb (List.mem_append_left _ (List.mem_map_of_mem heb)))
    rw [Ideal.run_ite, Ideal.run_ite, helems]
    rfl
  · rfl

theorem disjointStep (ha : P a) (hb : P b) : (r.disjointStep a b).run = (q.disjointStep a b).run := by
  have hmembers : (a.members.all fun s => b.members.all fun t => (r.disjoint s t).run) =
      a.members.all fun s => b.members.all fun t => (q.disjoint s t).run :=
    all_congr_of_mem fun s hs => all_congr_of_mem fun t ht => hr.disjoint (hP.member ha hs) (hP.member hb ht)
  rw [run_disjointStep, run_disjointStep, hmembers, hr.subtype ha hb, hr.subtype hb ha,
    hr.partsDisjoint hP ha hb]

include hi

theorem propertyStep {t : Ty} (name : Text) (ht : P t) :
    (r.propertyStep t name).run = (q.propertyStep t name).run := by
  unfold Rules.propertyStep
  split
  · rfl
  · rfl
  · rfl
  · split <;> rfl
  · exact hr.propertyOf _ (hP.part ht (by simp [Ty.parts]))
  · rename_i ms
    have hfound := foundProps_congr fun t (hm : t ∈ ms) => hr.propertyOf name (hP.part ht hm)
    have hinherit : ∀ p ∈ (foundProps r name ms).run, P p.type := by
      intro p hp
      rw [run_foundProps] at hp
      obtain ⟨m, hm, hp⟩ := List.mem_filterMap.1 hp
      exact hi.property (hP.part ht hm) hp
    simp only [Ideal.run_bind, ← hfound]
    split
    · rfl
    · rename_i p ps hlist
      rw [hlist] at hinherit
      rw [Ideal.run_bind, Ideal.run_bind, meetProps_congr (P := P) (fun s t hs ht => hi.intersect (by simp [hs, ht]))
        (fun s t hs ht => hr.intersect (by simp [hs, ht])) p ps (hinherit p (by simp))
        fun p hp => hinherit p (by simp [hp])]
      rfl
  · rename_i ms
    simp only [Ideal.run_bind, sharedProps_congr fun t (hm : t ∈ ms) => hr.propertyOf name (hP.part ht hm)]
    split <;> rfl
  · rfl

include hd

omit hi in
theorem combine (ha : P a) (hb : P b) : (r.combine a b).run = (q.combine a b).run := by
  have hmerge : (r.mergeObjects a b).run = (q.mergeObjects a b).run := by
    refine mergeObjects_congr ?_ fun s hs t ht => hr.intersect (by simp [hP.part ha hs, hP.part hb ht])
    rintro tagA tagB propsA propsB rfl rfl
    exact mergedTag_eq hd ha hb
  rw [run_combine, run_combine, hr.subtype ha hb, hr.subtype hb ha, hr.disjoint ha hb, hmerge]

theorem intersectStep {ts : List Ty} (hts : ∀ t ∈ ts, P t) :
    (r.intersectStep ts).run = (q.intersectStep ts).run := by
  rw [Rules.intersectStep, Rules.intersectStep]
  cases hflat : Ty.conjunctsAll ts with
  | none => rfl
  | some flat =>
    have hmem : ∀ x ∈ Ty.dedup flat, P x := fun x hx => hP.conjunct hts hflat (Ty.mem_of_mem_dedup hx)
    cases hfirst : Ty.firstUnion? (Ty.dedup flat) with
    | some found =>
      obtain ⟨us, others⟩ := found
      obtain ⟨before, after, heq, rfl⟩ := Ty.firstUnion?_some hfirst
      rw [heq] at hmem
      have hus : (us.map fun u => (r.intersect (u :: (before ++ after))).run) =
          us.map fun u => (q.intersect (u :: (before ++ after))).run := by
        refine List.map_congr_left fun u hu => hr.intersect fun t ht => ?_
        rcases List.mem_cons.1 ht with rfl | ht
        · exact hP.part (hmem (.union us) (by simp)) hu
        · exact hmem t (by rcases List.mem_append.1 ht with ht | ht <;> simp [ht])
      simp only [hfirst, Ideal.run_bind, Ideal.run_mapM, hus]
      rfl
    | none =>
      have hfuse := fuseAll_congr (Ty.dedup flat).length (fun a b t ha hb hc => hi.combine hP ha hb hc)
        (fun a b ha hb => hr.combine hP hd ha hb) hmem
      simp only [hfirst, Ideal.run_bind, hfuse]
      split
      · rfl
      · rename_i members _
        rcases members with _ | ⟨_, _ | ⟨_, _⟩⟩ <;> rfl

end Matches

theorem matches_upTo (hP : Ty.Hereditary P) (hd : SameLineage P h k) (n : Nat) :
    Matches P (upTo n : Rules (Ideal h)) (upTo n : Rules (Ideal k)) := by
  induction n with
  | zero => exact ⟨fun _ _ => rfl, fun _ _ => rfl, fun _ _ => rfl, fun _ => rfl⟩
  | succ n ih =>
    have hi := upTo_inherits h hP n
    refine ⟨fun ha hb => ?_, ih.disjointStep hP, ih.propertyStep hP hi, ih.intersectStep hP hi hd⟩
    simp only [upTo, run_subtypeStep, ih.subtypeRule hP hi hd ha hb]

end Rules

/-! ## The public operations -/

namespace Hierarchy

variable {h k : Hierarchy} {P : Ty → Prop} {a b : Ty}

section Lineage

variable (hP : Ty.Hereditary P) (hd : Rules.SameLineage P h k)

include hP hd

theorem subtype_eq_of_lineage (ha : P a) (hb : P b) : h.subtype a b = k.subtype a b :=
  (Rules.matches_upTo hP hd _).subtype ha hb

theorem disjoint_eq_of_lineage (ha : P a) (hb : P b) : h.disjoint a b = k.disjoint a b :=
  (Rules.matches_upTo hP hd _).disjoint ha hb

theorem propertyOf_eq_of_lineage {t : Ty} (name : Text) (ht : P t) : h.propertyOf t name = k.propertyOf t name :=
  (Rules.matches_upTo hP hd _).propertyOf name ht

theorem intersect_eq_of_lineage {ts : List Ty} (hts : ∀ t ∈ ts, P t) : h.intersect ts = k.intersect ts :=
  (Rules.matches_upTo hP hd _).intersect hts

end Lineage

theorem sameLineage_of_derives (hd : h.derives = k.derives) : Rules.SameLineage (fun _ => True) h k :=
  ⟨fun _ _ _ _ => by rw [hd]⟩

theorem subtype_eq_of_derives (hd : h.derives = k.derives) (a b : Ty) : h.subtype a b = k.subtype a b :=
  subtype_eq_of_lineage Ty.hereditary_true (sameLineage_of_derives hd) trivial trivial

theorem propertyOf_eq_of_derives (hd : h.derives = k.derives) (t : Ty) (name : Text) :
    h.propertyOf t name = k.propertyOf t name :=
  propertyOf_eq_of_lineage Ty.hereditary_true (sameLineage_of_derives hd) name trivial

theorem intersect_eq_of_derives (hd : h.derives = k.derives) (ts : List Ty) :
    h.intersect ts = k.intersect ts :=
  intersect_eq_of_lineage Ty.hereditary_true (sameLineage_of_derives hd) fun _ _ => trivial

end Hierarchy
end FlowTyping
