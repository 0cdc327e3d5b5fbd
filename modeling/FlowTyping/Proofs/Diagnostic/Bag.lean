import FlowTyping.Diagnostic.Bag
import Mathlib.Data.String.Basic

/-!
# The order of findings

Findings are listed by function, then by node, and the sort is stable. So a list of all findings is known from
the findings at each place, in the order in which they were added: nothing else about the order in which they
were added shows.

* **`Bag.inOrder_iff`** — the order is that of places.
* **`Bag.filter_all`** — findings at one place keep their order.
* **`Bag.all_eq_of_filter`** — bags with the same findings at each place list them alike.
-/

namespace FlowTyping.Bag

variable {b c : Bag} {d e : Diagnostic}

/-! ## The order of places -/

/-- A diagnostic may stand before another if its function has a smaller name, or the function is the same and
its node no larger number. -/
theorem inOrder_iff : inOrder d e = true ↔ d.location.function < e.location.function ∨
    d.location.function = e.location.function ∧ d.location.node ≤ e.location.node := by
  unfold inOrder
  split
  · rename_i heq
    simp [heq]
  · rename_i hne
    simp [hne]

theorem inOrder_of_location_eq (heq : d.location = e.location) : inOrder d e = true :=
  inOrder_iff.2 (.inr ⟨congrArg _ heq, by rw [heq]⟩)

theorem inOrder_trans (d e f : Diagnostic) (hde : inOrder d e = true) (hef : inOrder e f = true) :
    inOrder d f = true := by
  rw [inOrder_iff] at hde hef ⊢
  rcases hde with hde | ⟨hde, hnode⟩
  · rcases hef with hef | ⟨hef, -⟩
    · exact .inl (lt_trans hde hef)
    · exact .inl (hef ▸ hde)
  · rcases hef with hef | ⟨hef, hnode'⟩
    · exact .inl (hde ▸ hef)
    · exact .inr ⟨hde.trans hef, Int.le_trans hnode hnode'⟩

theorem inOrder_total (d e : Diagnostic) : (inOrder d e || inOrder e d) = true := by
  rw [Bool.or_eq_true, inOrder_iff, inOrder_iff]
  rcases lt_trichotomy d.location.function e.location.function with hlt | heq | hgt
  · exact .inl (.inl hlt)
  · rcases Int.le_total d.location.node e.location.node with hle | hle
    · exact .inl (.inr ⟨heq, hle⟩)
    · exact .inr (.inr ⟨heq.symm, hle⟩)
  · exact .inr (.inl hgt)

theorem location_eq_of_inOrder (hde : inOrder d e = true) (hed : inOrder e d = true) :
    d.location = e.location := by
  rw [inOrder_iff] at hde hed
  have hfunction : d.location.function = e.location.function := by
    rcases hde with hde | ⟨hde, -⟩
    · rcases hed with hed | ⟨hed, -⟩
      · exact absurd hed (lt_asymm hde)
      · exact hed.symm
    · exact hde
  have hnode : d.location.node = e.location.node :=
    Int.le_antisymm (hde.resolve_left (by simp [hfunction])).2 (hed.resolve_left (by simp [hfunction])).2
  cases hd : d.location
  cases he : e.location
  simp_all

/-! ## Listing a bag -/

theorem all_perm (b : Bag) : b.all.Perm b.items := List.mergeSort_perm b.items inOrder

theorem all_inOrder (b : Bag) : b.all.Pairwise fun d e => inOrder d e = true :=
  List.pairwise_mergeSort inOrder_trans inOrder_total b.items

/-- Findings at one place keep the order in which they were added. -/
theorem filter_all (b : Bag) (l : Location) :
    b.all.filter (·.location = l) = b.items.filter (·.location = l) := by
  have hties : (b.items.filter (·.location = l)).Pairwise fun d e => inOrder d e = true := by
    refine List.pairwise_of_forall_mem_list fun d hd e he => inOrder_of_location_eq ?_
    have hd' : d.location = l := by simpa using (List.mem_filter.1 hd).2
    have he' : e.location = l := by simpa using (List.mem_filter.1 he).2
    exact hd'.trans he'.symm
  -- what is in order already is a sublist of the sorted list
  have hsub : (b.items.filter (·.location = l)).Sublist b.all :=
    List.sublist_mergeSort inOrder_trans inOrder_total hties List.filter_sublist
  have hsub' := hsub.filter (·.location = l)
  rw [List.filter_filter, List.filter_congr (q := (·.location = l)) (by simp)] at hsub'
  exact (hsub'.eq_of_length (((all_perm b).filter _).length_eq.symm)).symm

/-- A list in order is known from what it has at each place. -/
theorem eq_of_filter {ds es : List Diagnostic} (hds : ds.Pairwise fun d e => inOrder d e = true)
    (hes : es.Pairwise fun d e => inOrder d e = true)
    (hat : ∀ l : Location, ds.filter (·.location = l) = es.filter (·.location = l)) : ds = es := by
  have hmem {ds es : List Diagnostic} (hat : ∀ l : Location, ds.filter (·.location = l) =
      es.filter (·.location = l)) {d : Diagnostic} (hd : d ∈ ds) : d ∈ es := by
    have hd' : d ∈ ds.filter (·.location = d.location) := List.mem_filter.2 ⟨hd, by simp⟩
    rw [hat] at hd'
    exact (List.mem_filter.1 hd').1
  induction ds generalizing es with
  | nil =>
    refine (List.eq_nil_iff_forall_not_mem.2 fun e he => ?_).symm
    exact absurd (hmem (fun l => (hat l).symm) he) (by simp)
  | cons d ds ih =>
    cases es with
    | nil => exact absurd (hmem hat List.mem_cons_self) (by simp)
    | cons e es =>
      obtain ⟨hfirst, hrest⟩ := List.pairwise_cons.1 hds
      obtain ⟨hfirst', hrest'⟩ := List.pairwise_cons.1 hes
      -- each is first in one list and somewhere in the other, so they are at one place
      have hde : inOrder d e = true := by
        rcases List.mem_cons.1 (hmem (fun l => (hat l).symm) (List.mem_cons_self (a := e))) with rfl | he
        · exact inOrder_of_location_eq rfl
        · exact hfirst e he
      have hed : inOrder e d = true := by
        rcases List.mem_cons.1 (hmem hat (List.mem_cons_self (a := d))) with rfl | hd
        · exact inOrder_of_location_eq rfl
        · exact hfirst' d hd
      have hplace := location_eq_of_inOrder hde hed
      obtain rfl : d = e := by
        have hat := hat d.location
        rw [List.filter_cons_of_pos (by simp), List.filter_cons_of_pos (by simp [hplace])] at hat
        exact (List.cons.inj hat).1
      -- without the first, the lists still agree at each place
      refine congrArg _ (ih hrest hrest' fun l => ?_)
      have hat := hat l
      by_cases hl : d.location = l
      · rw [List.filter_cons_of_pos (by simp [hl]), List.filter_cons_of_pos (by simp [hl])] at hat
        exact (List.cons.inj hat).2
      · rwa [List.filter_cons_of_neg (by simp [hl]), List.filter_cons_of_neg (by simp [hl])] at hat

/-- **Bags with the same findings at each place list them alike.** -/
theorem all_eq_of_filter (hat : ∀ l : Location, b.items.filter (·.location = l) =
    c.items.filter (·.location = l)) : b.all = c.all :=
  eq_of_filter (all_inOrder b) (all_inOrder c) fun l => by rw [filter_all, filter_all, hat]

end FlowTyping.Bag
