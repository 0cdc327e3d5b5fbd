import FlowTyping.Proofs.Relation.Reunion
import FlowTyping.Proofs.Store.Replaced
import FlowTyping.Proofs.Ty.Likeness
import FlowTyping.Proofs.Ty.Vars

/-!
# Rebuilt types

Rebuilding sends a type through the constructors once more. Unions were simplified when they were made and stay
as they are; an intersection stays as it is if no two of its members combine, which depends on the classes.
Type parameters that are not bound stay.

* **`Universe.Sound.rebuild_of_unbound`** — bindings for other type parameters than those that are collected in
  an entry make no difference.
* **`Ty.Stable h`** — no intersection in the type combines further, over the classes.
* **`Universe.Sound.run_apply`** — such an entry is rebuilt to itself, and **`Universe.Sound.key_normalize`** — a
  universe keeps a tree of the same key for such a type, also if it comes from another universe.
-/

namespace FlowTyping

open Ty

/-! ## Type parameters that are not bound -/

namespace Universe

variable {h : Hierarchy} {u : Universe} {subst : Subst} {t : Ty}

/-- The bindings make no difference to the type. -/
def Untouched (subst : Subst) (t : Ty) : Prop :=
  (TypeStore.rebuild subst t : InUniverse Ty) = TypeStore.rebuild [] t

/-- A search leaves the bounds of parameters aside that were found before. Those that are no larger than the type
were searched to the end, and larger ones do not occur in it. -/
theorem Sound.untouched_of_collected (hu : u.Sound h) (ht : u.Keeps t) {found : List Ty}
    (hfound : ∀ w ∈ found, u.Keeps w ∧ (w.size ≤ t.size → Untouched subst w))
    (hunbound : ∀ x ∈ collectVars found t, subst.get? x = none) :
    Untouched subst t ∧ ∀ w ∈ collectVars found t, u.Keeps w ∧ (w ∈ found ∨ Untouched subst w) := by
  induction t using parts_induction generalizing found with
  | step t ih =>
    -- some parts, one after the other
    have hfold (ts : List Ty) (hts : ∀ s ∈ ts, s ∈ t.parts) (found : List Ty)
        (hfound : ∀ w ∈ found, u.Keeps w ∧ (w.size < t.size → Untouched subst w))
        (hunbound : ∀ x ∈ ts.foldl collectVars found, subst.get? x = none) :
        (∀ s ∈ ts, Untouched subst s) ∧
          ∀ w ∈ ts.foldl collectVars found, u.Keeps w ∧ (w ∈ found ∨ Untouched subst w) := by
      induction ts generalizing found with
      | nil => exact ⟨by simp, fun w hw => ⟨(hfound w hw).1, .inl hw⟩⟩
      | cons s ts ihs =>
        rw [List.foldl_cons] at hunbound ⊢
        have hs := hts s (by simp)
        have hsize := size_lt_of_mem_parts hs
        obtain ⟨hfirst, hafter⟩ := ih s hs (hu.part ht s hs)
          (fun w hw => ⟨(hfound w hw).1, fun hle => (hfound w hw).2 (by omega)⟩)
          fun x hx => hunbound x (mem_foldl_collectVars hx ts)
        obtain ⟨hrest, hend⟩ := ihs (fun s hs => hts s (by simp [hs])) _
          (fun w hw => ⟨(hafter w hw).1, fun hlt => (hafter w hw).2.elim (fun hw => (hfound w hw).2 hlt) id⟩)
          hunbound
        refine ⟨List.forall_mem_cons.2 ⟨hfirst, hrest⟩, fun w hw => ⟨(hend w hw).1, ?_⟩⟩
        exact (hend w hw).2.elim (fun hw => (hafter w hw).2) .inr
    by_cases hvar : ∃ name bound, t = .var name bound
    · obtain ⟨name, bound, rfl⟩ := hvar
      rw [Mirroring.collectVars_var] at hunbound ⊢
      split at hunbound <;> rename_i hsame
      · -- a parameter that was found before is the same entry
        obtain ⟨w, hw, hsame⟩ := List.any_eq_true.1 hsame
        obtain rfl := (hfound w hw).1.eq_of_key_eq ht (same_iff.1 hsame)
        rw [if_pos (by assumption)]
        exact ⟨(hfound _ hw).2 (Nat.le_refl _), fun x hx => ⟨(hfound x hx).1, .inl hx⟩⟩
      · rw [if_neg (by assumption)]
        obtain ⟨hbound, hend⟩ := hfold bound.toList (fun s hs => hs) (.var name bound :: found)
          (fun w hw => by
            rcases List.mem_cons.1 hw with rfl | hw
            · exact ⟨ht, fun hlt => absurd hlt (Nat.lt_irrefl _)⟩
            · exact ⟨(hfound w hw).1, fun hlt => (hfound w hw).2 (Nat.le_of_lt hlt)⟩) hunbound
        have hself : Untouched subst (.var name bound) := TypeStore.rebuild_var_congr
          (hunbound _ (mem_foldl_collectVars (List.mem_cons_self ..) _)) rfl fun s hs => hbound s (by simpa using hs)
        refine ⟨hself, fun w hw => ⟨(hend w hw).1, (hend w hw).2.elim (fun hw => ?_) .inr⟩⟩
        rcases List.mem_cons.1 hw with rfl | hw
        · exact .inr hself
        · exact .inl hw
    · rw [not_exists] at hvar
      have hno (name) (bound) : t ≠ .var name bound := fun heq => hvar name ⟨bound, heq⟩
      rw [Mirroring.collectVars_parts found hno] at hunbound ⊢
      obtain ⟨hparts, hend⟩ := hfold t.parts (fun s hs => hs) found
        (fun w hw => ⟨(hfound w hw).1, fun hlt => (hfound w hw).2 (Nat.le_of_lt hlt)⟩) hunbound
      exact ⟨TypeStore.rebuild_congr hno hparts, hend⟩

/-- **Bindings for other type parameters than those of an entry make no difference to it.** -/
theorem Sound.rebuild_of_unbound (hu : u.Sound h) (ht : u.Keeps t)
    (hunbound : ∀ x ∈ t.freeVars, subst.get? x = none) :
    (TypeStore.rebuild subst t : InUniverse Ty) = TypeStore.rebuild [] t :=
  (hu.untouched_of_collected ht (by simp) hunbound).1

end Universe

/-! ## Types that do not combine further -/

/-- Every intersection in the type is the intersection of its members, over the classes. -/
inductive Ty.Stable (h : Hierarchy) : Ty → Prop where
  | intro {t : Ty} (hown : ∀ ms, t = .inter ms → h.intersect ms = t) (hparts : ∀ s ∈ t.parts, Stable h s) :
    Stable h t

theorem Ty.Stable.imp {h k : Hierarchy} {t : Ty} (ht : Stable h t)
    (himp : ∀ ms, h.intersect ms = .inter ms → k.intersect ms = .inter ms) : Stable k t := by
  induction ht with
  | intro hown _ ih =>
    refine .intro (fun ms heq => ?_) ih
    subst heq
    exact himp ms (hown ms rfl)

namespace Hierarchy

variable {h : Hierarchy} {t : Ty}

/-- **A type with nothing replaced is the type itself, unless intersections in it combine further.** -/
theorem replaced_eq_self (ht : Made t) (hs : Stable h t) : h.replaced [] t = t := by
  induction hs with
  | @intro t hown _ ih =>
    have hpart (s) (hs : s ∈ t.parts) : h.replaced [] s = s := ih s hs (ht.part hs)
    -- pieces whose types stay the same
    have hpieces {α : Type} {xs : List α} {f : α → α} (hxs : ∀ x ∈ xs, f x = x) : xs.map f = xs :=
      (List.map_congr_left hxs).trans (List.map_id' xs)
    cases t with
    | literal l => exact replaced_literal l
    | object tag props =>
      rw [replaced_object, hpieces fun p hp => by rw [hpart _ (List.mem_map_of_mem hp)],
        TypeStore.sortProps_of_increasing ht.orderly]
    | tuple elems rest =>
      rw [replaced_tuple, hpieces fun e he => by rw [hpart _ (List.mem_append_left _ (List.mem_map_of_mem he))]]
      cases rest with
      | none => rfl
      | some rest => rw [Option.map_some, hpart rest (by simp [parts])]
    | function params ret =>
      rw [replaced_function, hpart ret (by simp [parts]),
        hpieces fun p hp => by rw [hpart _ (List.mem_append_left _ (List.mem_map_of_mem hp))]]
    | union ms =>
      have hsimplified : Simplified (.union ms) := fun ns heq => by
        cases heq
        exact ht.orderly
      have hms : ms.map (h.replaced []) = ms := hpieces hpart
      rw [replaced_union, hms]
      exact h.union_members hsimplified
    | inter ms =>
      have hms : ms.map (h.replaced []) = ms := hpieces hpart
      rw [replaced_inter, hms]
      exact hown ms rfl
    | var name bound =>
      cases bound with
      | none => exact replaced_var name none
      | some bound =>
        rw [replaced_var, Option.map_some, hpart bound (by simp [parts])]
        rfl
    | _ => exact replaced_atom (by simp [atoms])

end Hierarchy

/-! ## Universes -/

namespace Universe

variable {h : Hierarchy} {u : Universe} {subst : Subst} {t : Ty}

/-- A rebuilt type has the key that it had. -/
theorem yields_rebuild_self (ht : Made t) (hs : Stable h t) :
    u.Yields h (TypeStore.rebuild [] t) fun v r => v.Stands r t := by
  have hyields : u.Yields h (TypeStore.rebuild [] t) fun v r => v.Stands r (h.replaced [] t) :=
    yields_rebuild_of_made (by simp) ht
  rwa [Hierarchy.replaced_eq_self ht hs] at hyields

/-- **A type is replaced by itself if nothing in it is bound.** -/
theorem Sound.run_apply (hu : u.Sound h) (ht : u.Keeps t) (hs : Stable h t)
    (hunbound : ∀ x ∈ t.freeVars, subst.get? x = none) :
    ((TypeStore.apply t subst : InUniverse Ty).run u).1 = t := by
  rw [TypeStore.apply]
  split
  · rw [run_normalize ht]
  · rw [hu.rebuild_of_unbound ht hunbound]
    obtain ⟨-, hgrows, hstands⟩ := yields_rebuild_self (hu.made ht) hs u hu (.refl h u)
    exact hstands.eq_of_keeps (hgrows.keeps ht) rfl

/-- **What a universe keeps for a type, wherever that comes from, has the key of the type.** -/
theorem Sound.key_normalize (hu : u.Sound h) (ht : Made t) (hs : Stable h t) :
    ((TypeStore.normalize t : InUniverse Ty).run u).1.key = t.key := by
  rw [run_normalize_eq]
  cases hlookup : u.lookup? t.key with
  | some kept => exact hu.key_eq hlookup
  | none =>
    obtain ⟨hv, -, hstands⟩ := yields_rebuild_self ht hs u hu (.refl h u)
    exact hv.key_eq hstands.lookup?

end Universe
end FlowTyping
