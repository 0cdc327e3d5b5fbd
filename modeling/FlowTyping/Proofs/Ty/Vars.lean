import FlowTyping.Ty.Rebuild

/-!
# Types without type parameters

The type parameters of a type are collected in one sweep that never forgets what it found. So a type
without any has none in its members either.
-/

namespace FlowTyping.Ty

mutual
theorem mem_collectVars {v : Ty} {found : List Ty} (hv : v ∈ found) (t : Ty) :
    v ∈ collectVars found t := by
  cases t with
  | var name bound =>
    rw [collectVars.eq_def]
    dsimp only
    split
    · exact hv
    · cases bound with
      | none => exact List.mem_cons_of_mem _ hv
      | some b => exact mem_collectVars (List.mem_cons_of_mem _ hv) b
  | object tag props =>
    rw [collectVars]
    exact mem_collectProps hv props
  | tuple elems rest =>
    cases rest with
    | none =>
      rw [collectVars]
      exact mem_collectElems hv elems
    | some rest =>
      rw [collectVars]
      exact mem_collectVars (mem_collectElems hv elems) rest
  | function params ret =>
    rw [collectVars]
    exact mem_collectVars (mem_collectParams hv params) ret
  | union ms =>
    rw [collectVars]
    exact mem_collectAll hv ms
  | inter ms =>
    rw [collectVars]
    exact mem_collectAll hv ms
  | never | unknown | null | undefined | boolean | number | string | literal _ =>
    rw [collectVars.eq_def]
    exact hv
termination_by structural t

theorem mem_collectProps {v : Ty} {found : List Ty} (hv : v ∈ found) (ps : List (Property Ty)) :
    v ∈ collectProps found ps := by
  match ps with
  | [] =>
    rw [collectProps]
    exact hv
  | ⟨_, t, _, _⟩ :: ps =>
    rw [collectProps]
    exact mem_collectProps (mem_collectVars hv t) ps
termination_by structural ps

theorem mem_collectElems {v : Ty} {found : List Ty} (hv : v ∈ found) (es : List (Elem Ty)) :
    v ∈ collectElems found es := by
  match es with
  | [] =>
    rw [collectElems]
    exact hv
  | ⟨t, _⟩ :: es =>
    rw [collectElems]
    exact mem_collectElems (mem_collectVars hv t) es
termination_by structural es

theorem mem_collectParams {v : Ty} {found : List Ty} (hv : v ∈ found) (ps : List (Param Ty)) :
    v ∈ collectParams found ps := by
  match ps with
  | [] =>
    rw [collectParams]
    exact hv
  | ⟨_, t, _, _⟩ :: ps =>
    rw [collectParams]
    exact mem_collectParams (mem_collectVars hv t) ps
termination_by structural ps

theorem mem_collectAll {v : Ty} {found : List Ty} (hv : v ∈ found) (ts : List Ty) :
    v ∈ collectAll found ts := by
  cases ts with
  | nil =>
    rw [collectAll]
    exact hv
  | cons t ts =>
    rw [collectAll]
    exact mem_collectAll (mem_collectVars hv t) ts
termination_by structural ts
end

theorem mem_foldl_collectVars {v : Ty} {found : List Ty} (hv : v ∈ found) (ts : List Ty) :
    v ∈ ts.foldl collectVars found := by
  induction ts generalizing found with
  | nil => exact hv
  | cons t ts ih => exact ih (mem_collectVars hv t)

/-- If nothing is found in some types, nothing is found in any of them. -/
theorem freeVars_of_collectAll {ms : List Ty} (hms : collectAll [] ms = []) {m : Ty} (hm : m ∈ ms) :
    m.freeVars = [] := by
  induction ms with
  | nil => simp at hm
  | cons t ts ih =>
    rw [collectAll] at hms
    have ht : collectVars [] t = [] := by
      refine List.eq_nil_iff_forall_not_mem.2 fun v hv => ?_
      have := mem_collectAll hv ts
      simp [hms] at this
    rcases List.mem_cons.1 hm with rfl | hm
    · exact ht
    · rw [ht] at hms
      exact ih hms hm

theorem freeVars_var (name : String) (bound : Option Ty) : (Ty.var name bound).freeVars ≠ [] := by
  rw [freeVars, collectVars.eq_def]
  cases bound with
  | none => simp
  | some b => exact List.ne_nil_of_mem (mem_collectVars (List.mem_cons_self ..) b)

end FlowTyping.Ty
