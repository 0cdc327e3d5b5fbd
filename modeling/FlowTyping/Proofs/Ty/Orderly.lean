import FlowTyping.Proofs.Relation.Bounds
import FlowTyping.Proofs.Text.Order

/-!
# The form of a single entry

What the constructors of a store make of their arguments before they hand the result over: members are
in the strict order of their keys, properties in the strict order of their names, and nothing is left
that could be simplified.

* **`Ty.Orderly`** — the form of a type, its parts not looked at.
* **`Ty.sortByKey_increasing`**, **`TypeStore.sortProps_increasing`** — sorting leaves no repetition.
* **`Hierarchy.union_orderly`** — a union comes out orderly, whatever its arguments are.
-/

namespace FlowTyping

namespace Ty

/-- The members of a union. -/
structure UnionForm (ms : List Ty) : Prop where
  two_le : 2 ≤ ms.length
  increasing : ms.Pairwise fun a b => a.key < b.key
  member : ∀ m ∈ ms, m.isMember = true
  base_not_mem : ∀ l : Literal, .literal l ∈ ms → l.base ∉ ms
  not_both : ¬ ∀ b : Bool, .literal (.bool b) ∈ ms

/-- The members of an intersection. -/
structure InterForm (ms : List Ty) : Prop where
  two_le : 2 ≤ ms.length
  increasing : ms.Pairwise fun a b => a.key < b.key
  member : ∀ m ∈ ms, m.isMember = true ∧ m.isInter = false

/-- The form of a type that a store has made: properties stand in the order of their names, required
elements before optional ones, and members as above. -/
def Orderly : Ty → Prop
  | .object _ props => props.Pairwise fun p q => p.name < q.name
  | .tuple elems _ => elems.Pairwise fun e f => e.optional = true → f.optional = true
  | .union ms => UnionForm ms
  | .inter ms => InterForm ms
  | _ => True

/-! ## Members in order -/

theorem sortByKey_increasing {ts : List Ty} (hts : (ts.map key).Nodup) :
    (sortByKey ts).Pairwise fun a b => a.key < b.key := by
  have hsorted : (sortByKey ts).Pairwise fun a b => a.key ≤ b.key := by
    have hpairs := @List.pairwise_mergeSort (Text × Ty) (fun a b => decide (a.1 ≤ b.1))
      (fun a b c hab hbc => by
        simp only [decide_eq_true_eq] at hab hbc ⊢
        exact Text.le_trans hab hbc)
      (fun a b => by simpa using Text.le_total a.1 b.1) (ts.map fun t => (t.key, t))
    have hkey {x : Text × Ty} (hx : x ∈ (ts.map fun t => (t.key, t)).mergeSort
        fun a b => decide (a.1 ≤ b.1)) : x.1 = x.2.key := by
      obtain ⟨t, -, rfl⟩ := List.mem_map.1 (List.mem_mergeSort.1 hx)
      rfl
    rw [sortByKey, List.pairwise_map]
    refine hpairs.imp_of_mem fun {a b} ha hb hab => ?_
    rw [← hkey ha, ← hkey hb]
    exact of_decide_eq_true hab
  have hnodup : ((sortByKey ts).map key).Nodup := ((sortByKey_perm ts).map key).nodup_iff.2 hts
  rw [List.Nodup, List.pairwise_map] at hnodup
  exact hsorted.imp₂ (fun a b hle hne => Text.lt_of_le_of_ne hle hne) hnodup

theorem keys_nodup_of_increasing {ms : List Ty} (hms : ms.Pairwise fun a b => a.key < b.key) :
    (ms.map key).Nodup := by
  rw [List.Nodup, List.pairwise_map]
  refine hms.imp fun {a b} hlt heq => ?_
  rw [heq] at hlt
  exact Text.lt_irrefl _ hlt

end Ty

namespace TypeStore

theorem insertProp_increasing (p : Property Ty) {ps : List (Property Ty)}
    (hps : ps.Pairwise fun p q => p.name < q.name) :
    (insertProp p ps).Pairwise fun p q => p.name < q.name := by
  induction ps with
  | nil => exact List.pairwise_singleton ..
  | cons q qs ih =>
    obtain ⟨hq, hqs⟩ := List.pairwise_cons.1 hps
    rw [insertProp]
    split
    · rename_i hlt
      refine .cons (fun r hr => ?_) hps
      rcases List.mem_cons.1 hr with rfl | hr
      · exact hlt
      · exact Text.lt_trans hlt (hq r hr)
    · rename_i hlt
      split
      · rename_i heq
        exact .cons (fun r hr => by rw [eq_of_beq heq]; exact hq r hr) hqs
      · rename_i hne
        refine .cons (fun r hr => ?_) (ih hqs)
        rcases mem_of_mem_insertProp hr with rfl | hr
        · exact Text.lt_of_le_of_ne (Text.le_of_not_lt hlt) fun h => hne (by simp [h])
        · exact hq r hr

theorem sortProps_increasing (ps : List (Property Ty)) :
    (sortProps ps).Pairwise fun p q => p.name < q.name := by
  have hfold {sorted : List (Property Ty)} (hs : sorted.Pairwise fun p q => p.name < q.name) :
      (ps.foldl (fun sorted p => insertProp p sorted) sorted).Pairwise
        fun p q => p.name < q.name := by
    induction ps generalizing sorted with
    | nil => exact hs
    | cons p ps ih => exact ih (insertProp_increasing p hs)
  exact hfold .nil

theorem insertProp_of_lt {p : Property Ty} {ps : List (Property Ty)} (hps : ∀ q ∈ ps, q.name < p.name) :
    insertProp p ps = ps ++ [p] := by
  induction ps with
  | nil => rfl
  | cons q qs ih =>
    have hlt := hps q (by simp)
    have hne : (p.name == q.name) = false := beq_eq_false_iff_ne.2 fun heq => Text.lt_irrefl _ (heq ▸ hlt)
    rw [insertProp, if_neg fun hgt => Text.lt_irrefl _ (Text.lt_trans hlt hgt), hne, if_neg Bool.false_ne_true,
      ih fun r hr => hps r (by simp [hr])]
    rfl

/-- Properties in the strict order of their names are sorted. -/
theorem sortProps_of_increasing {ps : List (Property Ty)} (hps : ps.Pairwise fun p q => p.name < q.name) :
    sortProps ps = ps := by
  have hfold (sorted : List (Property Ty)) (h : (sorted ++ ps).Pairwise fun p q => p.name < q.name) :
      ps.foldl (fun sorted p => insertProp p sorted) sorted = sorted ++ ps := by
    clear hps
    induction ps generalizing sorted with
    | nil => simp
    | cons p ps ih =>
      have hbefore : ∀ q ∈ sorted, q.name < p.name := fun q hq => (List.pairwise_append.1 h).2.2 q hq p (by simp)
      rw [List.foldl_cons, insertProp_of_lt hbefore, ih _ (by simpa using h), List.append_assoc]
      rfl
  exact hfold [] hps

/-- No element is misplaced exactly if every element after an optional one is optional. -/
theorem firstMisplaced_eq_none_iff {elems : List (Elem Ty)} {index : Nat} {seen : Bool} :
    firstMisplaced index seen elems = none ↔
      (seen = true → ∀ e ∈ elems, e.optional = true) ∧
        elems.Pairwise fun e f => e.optional = true → f.optional = true := by
  induction elems generalizing index seen with
  | nil => simp [firstMisplaced]
  | cons e es ih =>
    rw [firstMisplaced, List.pairwise_cons]
    cases he : e.optional <;> cases seen <;> simp [he, ih]

end TypeStore

namespace Hierarchy

open Ty

theorem union_orderly (h : Hierarchy) (ts : List Ty) {ms : List Ty} (hu : h.union ts = .union ms) :
    UnionForm ms := by
  obtain ⟨ms', hms', hlen, -, hmember⟩ : ∃ ms', h.union ts = .union ms' ∧ 2 ≤ ms'.length ∧
      (ms'.map key).Nodup ∧ ∀ m ∈ ms', m.isMember = true := by
    rcases union_cases h ts with hc | hc | hc
    · simp [hu] at hc
    · simp [hu, isUnion] at hc
    · exact hc
  obtain rfl : ms = ms' := by simpa [hu] using hms'
  rw [union_eq] at hu
  cases hflat : alternativesAll ts with
  | none => simp [hflat] at hu
  | some flat =>
    simp only [hflat] at hu
    rcases unionOf_cases h (simplified flat) with ⟨-, hrun⟩ | ⟨m, hm, hrun⟩ | ⟨-, hrun⟩
    · simp [hrun] at hu
    · have hopen := alternativesAll_opened ts
      rw [hflat] at hopen
      have hplain := simplified_alternative (x := m) (fun y hy => (hopen.2 y).1 hy) (by simp [hm])
      rw [hrun] at hu
      simp [hu, isUnion] at hplain
    · obtain rfl : sortByKey (simplified flat) = ms := by simpa [hrun] using hu
      refine ⟨hlen, sortByKey_increasing (simplified_keys_nodup flat), hmember, ?_, ?_⟩
      · intro l hl hbase
        have hdropped := mem_dropAbsorbed.1 (mem_sortByKey.1 hl)
        exact hdropped.2 l rfl l.base (mem_dropAbsorbed.1 (mem_sortByKey.1 hbase)).1 rfl
      · intro hboth
        exact not_both_mem_simplified fun b => ⟨_, mem_sortByKey.1 (hboth b), rfl⟩

end Hierarchy
end FlowTyping
