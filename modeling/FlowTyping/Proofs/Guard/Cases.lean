import FlowTyping.Proofs.Guard.Coverage
import FlowTyping.Proofs.Relation.Reunion

/-!
# What the cases of a switch get

A switch over a property takes its subject apart member by member. A case sees the property of a member
as a list of single values: the member goes to the case if one of them is among the values of the case,
and it goes on to the next case unless all of them are. Nothing is remembered about a member of which only
some values were handled.

* **`Guard.fieldOf`** — what a property of a type can hold.
* **`Guard.Asked`** — when no case has to give up; **`Guard.Parted`** — what the cases and the rest get then.
* **`Guard.run_splitCases`** — the two together: one of them for any subject and any cases.
* **`Guard.Parted.residual_eq_never_iff`** — when nothing is left.
-/

namespace FlowTyping

open Ty

namespace Ty

/-- All members of a type are among those of another. -/
def membersWithin (s t : Ty) : Bool := s.members.all fun x => t.members.any (·.same x)

end Ty

namespace Guard

/-- What a property of a type can hold, if the type has it: `undefined`, too, if it may be left out. -/
def fieldOf {m : Type → Type} [TypeStore m] (t : Ty) (prop : Text) : m (Option Ty) := do
  match ← TypeStore.propertyOf t prop with
  | none => return none
  | some p =>
    if p.optional then return some (← TypeStore.union [p.type, .undefined]) else return some p.type

section Ideal

variable {h : Hierarchy} {prop : Text} {current field value t : Ty} {ts : List Ty}

@[simp] theorem run_fieldOf (t : Ty) (prop : Text) :
    (fieldOf t prop : Ideal h (Option Ty)).run = (h.propertyOf t prop).map (held h) := by
  rw [fieldOf, Ideal.run_bind, Ideal.run_propertyOf]
  cases h.propertyOf t prop with
  | none => rfl
  | some p => cases ho : p.optional <;> simp [ho, held]

/-! ## One case and one member -/

theorem keptOf_of_unit (units : List Ty) {x : Ty} (hx : x.isUnit = true) :
    keptOf units x = if units.any (·.same x) then [] else [x] := by
  unfold keptOf
  split
  · rfl
  · cases x with
    | boolean => simp [isUnit] at hx
    | _ => rfl

/-- Single values are left over unless all of them are left out. -/
theorem isNever_without (hf : field.allUnits = true) (hv : value.allUnits = true) :
    (without field value : Ideal h Ty).run.isNever = field.membersWithin value := by
  rw [allUnits, Bool.and_eq_true, List.all_eq_true] at hf hv
  have hkept {x : Ty} (hx : x ∈ field.members) := keptOf_of_unit value.members (hf.2 x hx)
  rw [run_without, if_pos (List.all_eq_true.2 hv.2), Bool.eq_iff_iff, membersWithin, List.all_eq_true]
  constructor
  · intro hnever x hx
    by_contra hout
    have hself : Alternative x x :=
      .self (Hierarchy.isUnion_of_unit (hf.2 x hx)) (Hierarchy.isNever_of_unit (hf.2 x hx))
    have hmem : x ∈ field.members.flatMap (keptOf value.members) :=
      List.mem_flatMap.2 ⟨x, hx, by rw [hkept hx, if_neg hout]; simp⟩
    rw [isNever_of_holds (Hierarchy.holds_union_of_alternative hmem hself)] at hnever
    simp at hnever
  · intro hall
    have hnil : field.members.flatMap (keptOf value.members) = [] :=
      List.flatMap_eq_nil_iff.2 fun x hx => by rw [hkept hx, if_pos (hall x hx)]
    rw [hnil]
    rfl

/-- The property of a member lists single values. -/
def Tells (h : Hierarchy) (prop : Text) (t : Ty) : Prop :=
  ∃ p, h.propertyOf t prop = some p ∧ (held h p).allUnits = true

/-- Whether a member goes to a case. -/
def met (h : Hierarchy) (prop : Text) (value t : Ty) : Bool :=
  (h.propertyOf t prop).any fun p => !(h.meet (held h p) value).isNever

/-- Whether a member goes on to the next case. -/
def left (h : Hierarchy) (prop : Text) (value t : Ty) : Bool :=
  (h.propertyOf t prop).any fun p => !(held h p).membersWithin value

theorem met_or_left (ht : Tells h prop t) (hv : value.allUnits = true) :
    met h prop value t = true ∨ left h prop value t = true := by
  obtain ⟨p, hp, hunits⟩ := ht
  rcases field_met_or_left (h := h) hunits hv with hmet | hleft
  · exact .inl (by simp [met, hp, hmet])
  · rw [isNever_without hunits hv] at hleft
    exact .inr (by simp [left, hp, hleft])

/-! ## One case -/

theorem run_splitDiscriminant_go (current : Ty) (hv : value.allUnits = true)
    (ht : ∀ t ∈ ts, Tells h prop t) (yes no : List Ty) :
    (splitDiscriminant.go current prop value yes no ts : Ideal h Split).run =
      { yes := h.union (yes ++ ts.filter (met h prop value))
        no := h.union (no ++ ts.filter (left h prop value)) } := by
  induction ts generalizing yes no with
  | nil => simp [splitDiscriminant.go]
  | cons t ts ih =>
    obtain ⟨p, hp, hunits⟩ := ht t (by simp)
    rw [splitDiscriminant_go_cons current value hp yes no ts, if_pos hunits, isNever_without hunits hv,
      ih fun s hs => ht s (by simp [hs])]
    -- either side gets the member or stays
    congr 2
    · cases hmet : (h.meet (held h p) value).isNever <;> simp [met, hp, hmet]
    · cases hleft : (held h p).membersWithin value <;> simp [left, hp, hleft]

theorem degraded_splitDiscriminant_go (current value : Ty) (ht : ∃ t ∈ ts, ¬ Tells h prop t)
    (yes no : List Ty) :
    (splitDiscriminant.go current prop value yes no ts : Ideal h Split).run.degraded = true := by
  induction ts generalizing yes no with
  | nil => simp at ht
  | cons t ts ih =>
    cases hp : h.propertyOf t prop with
    | none =>
      rw [splitDiscriminant.go, Ideal.run_bind, Ideal.run_propertyOf, hp]
      rfl
    | some p =>
      rw [splitDiscriminant_go_cons current value hp yes no ts]
      split
      · rename_i hunits
        refine ih ?_ _ _
        obtain ⟨s, hs, hno⟩ := ht
        rcases List.mem_cons.1 hs with rfl | hs
        · exact absurd ⟨p, hp, hunits⟩ hno
        · exact ⟨s, hs, hno⟩
      · rfl

/-- A case that can be asked about the members splits them; any other gives up. -/
theorem run_splitDiscriminant (current : Ty) (prop : Text) (value : Ty) :
    (value.allUnits = true ∧ (∀ m ∈ current.members, Tells h prop m) ∧
        (splitDiscriminant current prop value : Ideal h Split).run =
          { yes := h.union (current.members.filter (met h prop value))
            no := h.union (current.members.filter (left h prop value)) }) ∨
      ¬ (value.allUnits = true ∧ ∀ m ∈ current.members, Tells h prop m) ∧
        (splitDiscriminant current prop value : Ideal h Split).run.degraded = true := by
  rw [splitDiscriminant, Ideal.run_ite]
  by_cases hv : value.allUnits = true
  · rw [if_neg (by simp [hv])]
    by_cases ht : ∀ m ∈ current.members, Tells h prop m
    · refine .inl ⟨hv, ht, ?_⟩
      rw [run_splitDiscriminant_go current hv ht]
      rfl
    · refine .inr ⟨fun hboth => ht hboth.2, degraded_splitDiscriminant_go current value ?_ [] []⟩
      simpa using ht
  · rw [if_pos (by simpa using hv)]
    exact .inr ⟨fun hboth => hv hboth.1, rfl⟩

theorem run_withinInput_of_subtype {s : Split} (hy : h.subtype s.yes current = true)
    (hn : h.subtype s.no current = true) : (withinInput current s : Ideal h Split).run = s := by
  simp [withinInput, hy, hn]

theorem degraded_withinInput {s : Split} (hs : s.degraded = true) :
    (withinInput current s : Ideal h Split).run.degraded = true := by
  cases hy : h.subtype s.yes current <;> cases hn : h.subtype s.no current <;>
    simp [withinInput, hy, hn, hs]

/-- Some members of a type are below it. -/
theorem union_sublist_subtype (hc : Canonical current) (hs : current.Simplified)
    (hts : ts.Sublist current.members) : h.subtype (h.union ts) current = true := by
  refine Hierarchy.subtype_of_members ?_ hc.flat fun m hm => ?_
  · exact Hierarchy.union_canonical fun t ht => hc.member (hts.subset ht)
  · rw [Hierarchy.members_union_of_sublist h hs hts] at hm
    exact .of_mem (hts.subset hm)

/-- One case of a switch. -/
theorem run_narrow_ofCase (hc : Canonical current) (hs : current.Simplified) (preds : Predicates)
    (prop : Text) (value : Ty) :
    (value.allUnits = true ∧ (∀ m ∈ current.members, Tells h prop m) ∧
        ((ofCase (some prop) value).narrow preds none current : Ideal h Split).run =
          { yes := h.union (current.members.filter (met h prop value))
            no := h.union (current.members.filter (left h prop value)) }) ∨
      ¬ (value.allUnits = true ∧ ∀ m ∈ current.members, Tells h prop m) ∧
        ((ofCase (some prop) value).narrow preds none current : Ideal h Split).run.degraded = true := by
  rw [narrow, Ideal.run_bind, ofCase, split]
  rcases run_splitDiscriminant (h := h) current prop value with ⟨hv, ht, hrun⟩ | ⟨hno, hrun⟩
  · refine .inl ⟨hv, ht, ?_⟩
    rw [hrun]
    exact run_withinInput_of_subtype (union_sublist_subtype hc hs List.filter_sublist)
      (union_sublist_subtype hc hs List.filter_sublist)
  · exact .inr ⟨hno, degraded_withinInput hrun⟩

/-! ## All cases -/

/-- The cases compare single values, and so do the members, as far as they are compared at all. -/
def Asked (h : Hierarchy) (prop : Text) (subject : Ty) (values : List Ty) : Prop :=
  (∀ v ∈ values, v.allUnits = true) ∧ (values ≠ [] → ∀ m ∈ subject.members, Tells h prop m)

/-- A subject taken apart by cases none of which gave up. -/
structure Parted (h : Hierarchy) (prop : Text) (subject : Ty) (values : List Ty) (c : CaseSplit) :
    Prop where
  degraded : c.degraded = false
  simplified : c.residual.Simplified
  /-- What is left are the members of which no case lists all values. -/
  residual : c.residual.members = subject.members.filter fun m => values.all (left h prop · m)
  cases : ∀ t ∈ c.cases, t.members.Sublist subject.members
  covers : ∀ m ∈ subject.members, m ∈ c.residual.members ∨ ∃ t ∈ c.cases, m ∈ t.members

/-- Nothing is left exactly if each member is left by none of the cases. -/
theorem Parted.residual_eq_never_iff {subject : Ty} {values : List Ty} {c : CaseSplit}
    (hc : Parted h prop subject values c) :
    c.residual = .never ↔ ∀ m ∈ subject.members, ∃ v ∈ values, left h prop v m = false := by
  have hnever : c.residual = .never ↔ c.residual.members = [] := by
    constructor
    · intro heq
      rw [heq]
      rfl
    · exact hc.simplified.eq_of_members_eq (t := .never) fun ms heq => nomatch heq
  rw [hnever, hc.residual, List.filter_eq_nil_iff]
  simp only [List.all_eq_true, not_forall, exists_prop, Bool.not_eq_true]

/-- **The cases of a switch part the subject, or one of them gives up.** -/
theorem run_splitCases {subject : Ty} (hc : Canonical subject) (hs : subject.Simplified)
    (preds : Predicates) (prop : Text) (values : List Ty) :
    (Asked h prop subject values ∧ Parted h prop subject values
        (splitCases preds (some prop) subject values : Ideal h CaseSplit).run) ∨
      ¬ Asked h prop subject values ∧
        (splitCases preds (some prop) subject values : Ideal h CaseSplit).run.degraded = true := by
  induction values generalizing subject with
  | nil => exact .inl ⟨⟨by simp, by simp⟩, ⟨rfl, hs, by simp [splitCases], by simp [splitCases], fun m hm => .inl hm⟩⟩
  | cons value values ih =>
    rw [splitCases, Ideal.run_bind, Ideal.run_bind]
    rcases run_narrow_ofCase (h := h) hc hs preds prop value with ⟨hv, ht, hrun⟩ | ⟨hno, hrun⟩
    · -- the rest of the cases see what this one leaves
      have hno : Canonical (h.union (subject.members.filter (left h prop value))) :=
        Hierarchy.union_canonical fun t ht => hc.member (List.mem_filter.1 ht).1
      have hyes := Hierarchy.members_union_of_sublist h hs (List.filter_sublist (p := met h prop value))
      have hleft := Hierarchy.members_union_of_sublist h hs (List.filter_sublist (p := left h prop value))
      rw [hrun]
      dsimp only
      have hgo (m) (hm : m ∈ (h.union (subject.members.filter (left h prop value))).members) :
          Tells h prop m := by
        rw [hleft] at hm
        exact ht m (List.mem_filter.1 hm).1
      rcases ih hno (Hierarchy.union_simplified h _) with ⟨hasked, hrest⟩ | ⟨hasked, hdegraded⟩
      · refine .inl ⟨⟨by simpa [hv] using hasked.1, fun _ => ht⟩, hrest.degraded, hrest.simplified, ?_, ?_, ?_⟩
        · show (splitCases _ _ _ values : Ideal h CaseSplit).run.residual.members = _
          rw [hrest.residual, hleft, List.filter_filter]
          simp only [List.all_cons, Bool.and_comm]
        · intro t hmem
          rcases List.mem_cons.1 hmem with rfl | hmem
          · rw [hyes]
            exact List.filter_sublist
          · have hsub := hrest.cases t hmem
            rw [hleft] at hsub
            exact hsub.trans List.filter_sublist
        · intro m hm
          rcases met_or_left (ht m hm) hv with hmet | hgoes
          · refine .inr ⟨_, List.mem_cons_self, ?_⟩
            rw [hyes]
            exact List.mem_filter.2 ⟨hm, hmet⟩
          · have hmem : m ∈ (h.union (subject.members.filter (left h prop value))).members := by
              rw [hleft]
              exact List.mem_filter.2 ⟨hm, hgoes⟩
            rcases hrest.covers m hmem with hm | ⟨t, ht, hm⟩
            · exact .inl hm
            · exact .inr ⟨t, List.mem_cons_of_mem _ ht, hm⟩
      · refine .inr ⟨fun hall => hasked ⟨fun v hv => hall.1 v (by simp [hv]), fun _ => hgo⟩, ?_⟩
        simp [hdegraded]
    · -- a case that gives up makes the switch give up
      refine .inr ⟨fun hall => hno ⟨hall.1 value (by simp), hall.2 (by simp)⟩, ?_⟩
      simp [hrun]

end Ideal
end Guard

end FlowTyping
