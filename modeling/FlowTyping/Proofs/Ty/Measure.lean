import FlowTyping.Ty.Basic
import Mathlib.Algebra.Order.BigOperators.Group.List
import Mathlib.Algebra.Order.Group.Nat

/-!
# How deep a type goes

Questions about types are answered from smaller questions, but "smaller" is not the number of nodes:
the property of an intersection is an intersection that was not there before. What never grows is
measured here.

* **`Ty.parts`** — the types that a type is directly made of, with an induction over them.
* **`Ty.depth`** — how many objects, tuples, functions and type parameters stand inside one another.
  Unions and intersections are as deep as their deepest member.
* **`Ty.height`** — how many unions, intersections and bounds are opened, one after the other, before
  something else is met.
* **`Ty.spread`** — how many unions an intersection can meet when it distributes over them.
* **`Ty.Shallow n`** — height and spread are bounded by `n` in all parts, with the slack that building
  one more intersection or union on top takes.
-/

namespace FlowTyping.Ty

-- sums of whole numbers start from the core zero, whatever algebra is in scope
attribute [local instance (1100)] Zero.ofOfNat0

/-! ## Parts -/

/-- The types that a type is directly made of. -/
def parts : Ty → List Ty
  | .object _ props => props.map (·.type)
  | .tuple elems rest => elems.map (·.type) ++ rest.toList
  | .function params ret => params.map (·.type) ++ [ret]
  | .union ms => ms
  | .inter ms => ms
  | .var _ bound => bound.toList
  | _ => []

theorem sizeAll_eq_sum (ts : List Ty) : sizeAll ts = (ts.map size).sum := by
  induction ts with
  | nil => rfl
  | cons t ts ih => simp [sizeAll, ih]

/-- A type has one node more than its parts. -/
theorem size_eq_parts (t : Ty) : t.size = 1 + (t.parts.map size).sum := by
  have hprops (props : List (Property Ty)) :
      sizeProps props = ((props.map (·.type)).map size).sum := by
    induction props with
    | nil => rfl
    | cons p ps ih => simp [sizeProps, ih]
  have helems (elems : List (Elem Ty)) : sizeElems elems = ((elems.map (·.type)).map size).sum := by
    induction elems with
    | nil => rfl
    | cons e es ih => simp [sizeElems, ih]
  have hparams (params : List (Param Ty)) :
      sizeParams params = ((params.map (·.type)).map size).sum := by
    induction params with
    | nil => rfl
    | cons p ps ih => simp [sizeParams, ih]
  cases t with
  | object tag props => rw [size, parts, hprops]
  | tuple elems rest =>
    cases rest with
    | none => simp [size, parts, helems]
    | some rest => simp [size, parts, helems, Nat.add_assoc]
  | function params ret => simp [size, parts, hparams, Nat.add_assoc]
  | union ms | inter ms => rw [size, parts, sizeAll_eq_sum]
  | var name bound => cases bound <;> simp [size, parts]
  | _ => rfl

theorem size_le_sizeAll {t : Ty} {ts : List Ty} (ht : t ∈ ts) : t.size ≤ sizeAll ts := by
  rw [sizeAll_eq_sum]
  exact List.le_sum_of_mem (List.mem_map_of_mem ht)

theorem one_le_size (t : Ty) : 1 ≤ t.size := by
  rw [size_eq_parts]
  omega

/-- A part is smaller than the whole. -/
theorem size_lt_of_mem_parts {s t : Ty} (hs : s ∈ t.parts) : s.size < t.size := by
  have hle := size_le_sizeAll hs
  rw [sizeAll_eq_sum] at hle
  rw [size_eq_parts t]
  omega

/-- Induction over parts: what holds of a type whenever it holds of its parts holds of every type. -/
theorem parts_induction {P : Ty → Prop} (step : ∀ t : Ty, (∀ s ∈ t.parts, P s) → P t) (t : Ty) :
    P t :=
  step t fun s _ => parts_induction step s
termination_by t.size
decreasing_by exact size_lt_of_mem_parts ‹_›

/-- The members of a type are parts of it, or the type itself. -/
theorem of_mem_members {P : Ty → Prop} {s t : Ty} (ht : P t) (hparts : ∀ s ∈ t.parts, P s) (hs : s ∈ t.members) :
    P s := by
  cases t with
  | never => simp [members] at hs
  | union ms => exact hparts s hs
  | _ => rwa [List.mem_singleton.1 hs]

/-! ## The greatest value of a measure over a list -/

/-- The greatest value of a measure over some types; zero if there are none. -/
def greatest (f : Ty → Nat) (ts : List Ty) : Nat := (ts.map f).foldr max 0

@[simp] theorem greatest_nil (f : Ty → Nat) : greatest f [] = 0 := rfl

@[simp] theorem greatest_cons (f : Ty → Nat) (t : Ty) (ts : List Ty) :
    greatest f (t :: ts) = max (f t) (greatest f ts) := rfl

theorem le_greatest {f : Ty → Nat} {t : Ty} {ts : List Ty} (ht : t ∈ ts) : f t ≤ greatest f ts := by
  induction ts with
  | nil => simp at ht
  | cons s ts ih =>
    rw [greatest_cons]
    rcases List.mem_cons.1 ht with rfl | ht
    · omega
    · have := ih ht
      omega

theorem greatest_le {f : Ty → Nat} {ts : List Ty} {d : Nat} (hd : ∀ t ∈ ts, f t ≤ d) :
    greatest f ts ≤ d := by
  induction ts with
  | nil => simp
  | cons s ts ih =>
    rw [greatest_cons]
    have hs := hd s (by simp)
    have hts := ih fun t ht => hd t (by simp [ht])
    omega

theorem map_attach (f : Ty → Nat) (ts : List Ty) : (ts.attach.map fun s => f s.1) = ts.map f := by
  simp

/-! ## Depth -/

/-- One for the constructors that depth counts. -/
def layer : Ty → Nat
  | .object _ _ | .tuple _ _ | .function _ _ | .var _ _ => 1
  | _ => 0

/-- How many objects, tuples, functions and type parameters stand inside one another. -/
def depth (t : Ty) : Nat :=
  t.layer + (t.parts.attach.map fun s => depth s.1).foldr max 0
termination_by t.size
decreasing_by exact size_lt_of_mem_parts s.2

theorem depth_eq (t : Ty) : t.depth = t.layer + greatest depth t.parts := by
  rw [depth, map_attach, greatest]

theorem depth_part_le {s t : Ty} (hs : s ∈ t.parts) : t.layer + s.depth ≤ t.depth := by
  rw [depth_eq t]
  have := le_greatest (f := depth) hs
  omega

theorem depth_le {t : Ty} {d : Nat} (hd : ∀ s ∈ t.parts, s.depth ≤ d) : t.depth ≤ t.layer + d := by
  rw [depth_eq t]
  have := greatest_le hd
  omega

theorem depth_le_size (t : Ty) : t.depth ≤ t.size := by
  induction t using parts_induction with
  | step t ih =>
    have hparts : ∀ s ∈ t.parts, s.depth ≤ t.size - 1 := by
      intro s hs
      have := ih s hs
      have := size_lt_of_mem_parts hs
      omega
    have hlayer : t.layer ≤ 1 := by
      cases t <;> simp [layer]
    have hpos := one_le_size t
    have := depth_le hparts
    omega

/-! ## Height -/

/-- Whether a question about the type is at once one about its parts. -/
def opens : Ty → Bool
  | .union _ | .inter _ | .var _ _ => true
  | _ => false

/-- How many unions, intersections and bounds are opened before something else is met. -/
def height (t : Ty) : Nat :=
  if t.opens then 1 + (t.parts.attach.map fun s => height s.1).foldr max 0 else 0
termination_by t.size
decreasing_by exact size_lt_of_mem_parts s.2

theorem height_eq (t : Ty) : t.height = if t.opens then 1 + greatest height t.parts else 0 := by
  rw [height, map_attach, greatest]

theorem height_part_lt {s t : Ty} (ho : t.opens = true) (hs : s ∈ t.parts) :
    s.height < t.height := by
  rw [height_eq t, if_pos ho]
  have := le_greatest (f := height) hs
  omega

theorem height_le_of_parts {t : Ty} {d : Nat} (hd : ∀ s ∈ t.parts, s.height ≤ d) :
    t.height ≤ d + 1 := by
  rw [height_eq t]
  have := greatest_le hd
  split <;> omega

theorem height_of_closed {t : Ty} (ho : t.opens = false) : t.height = 0 := by
  rw [height_eq t, if_neg (by simp [ho])]

theorem height_le_size (t : Ty) : t.height ≤ t.size := by
  induction t using parts_induction with
  | step t ih =>
    rw [height_eq t]
    split
    · have hparts : ∀ s ∈ t.parts, s.height ≤ t.size - 1 := by
        intro s hs
        have := ih s hs
        have := size_lt_of_mem_parts hs
        omega
      have := greatest_le hparts
      have hpos := one_le_size t
      omega
    · omega

/-! ## Spread -/

/-- How many unions are met, at most, when an intersection with this member distributes over
them. -/
def spread : Ty → Nat
  | .union ms => 1 + (ms.attach.map fun s => spread s.1).foldr max 0
  | .inter ms => (ms.attach.map fun s => spread s.1).sum
  | _ => 0
termination_by t => t.size
decreasing_by
  · exact size_lt_of_mem_parts (t := .union ms) s.2
  · exact size_lt_of_mem_parts (t := .inter ms) s.2

/-- The spread of several members of one intersection. -/
def spreadAll (ts : List Ty) : Nat := (ts.map spread).sum

@[simp] theorem spread_union (ms : List Ty) : (Ty.union ms).spread = 1 + greatest spread ms := by
  rw [spread, map_attach, greatest]

@[simp] theorem spread_inter (ms : List Ty) : (Ty.inter ms).spread = spreadAll ms := by
  rw [spread, map_attach, spreadAll]

@[simp] theorem spreadAll_nil : spreadAll [] = 0 := rfl

@[simp] theorem spreadAll_cons (t : Ty) (ts : List Ty) :
    spreadAll (t :: ts) = t.spread + spreadAll ts := by
  simp [spreadAll]

@[simp] theorem spreadAll_append (ts us : List Ty) :
    spreadAll (ts ++ us) = spreadAll ts + spreadAll us := by
  simp [spreadAll]

theorem spreadAll_le_sizeAll {ts : List Ty} (hts : ∀ t ∈ ts, t.spread ≤ t.size) :
    spreadAll ts ≤ sizeAll ts := by
  induction ts with
  | nil => simp
  | cons t ts ih =>
    have ht := hts t (by simp)
    have hrest := ih fun s hs => hts s (by simp [hs])
    rw [spreadAll_cons, sizeAll]
    omega

theorem spread_le_size (t : Ty) : t.spread ≤ t.size := by
  induction t using parts_induction with
  | step t ih =>
    cases t with
    | union ms =>
      have hall : greatest spread ms ≤ sizeAll ms := greatest_le fun s hs =>
        Nat.le_trans (ih s hs) (size_le_sizeAll hs)
      rw [spread_union, size]
      omega
    | inter ms =>
      have hall : spreadAll ms ≤ sizeAll ms := spreadAll_le_sizeAll ih
      rw [spread_inter, size]
      omega
    | _ => simp [spread]

/-! ## Types with bounded height and spread -/

/-- The bounds on height and spread at one type. An intersection may be one higher than what it
consists of, and a union one higher than that. -/
def Low (n : Nat) : Ty → Prop
  | .union ms => (Ty.union ms).height ≤ n + 2 ∧ (Ty.union ms).spread ≤ n + 1
  | .inter ms => (Ty.inter ms).height ≤ n + 1 ∧ (Ty.inter ms).spread ≤ n
  | t => t.height ≤ n

/-- Height and spread are bounded at the type and at all of its parts. -/
inductive Shallow (n : Nat) : Ty → Prop where
  | intro {t : Ty} (hlow : t.Low n) (hparts : ∀ s ∈ t.parts, Shallow n s) : Shallow n t

namespace Shallow

variable {n : Nat} {s t : Ty}

theorem low (ht : t.Shallow n) : t.Low n := by
  cases ht with
  | intro hlow _ => exact hlow

theorem part (ht : t.Shallow n) (hs : s ∈ t.parts) : s.Shallow n := by
  cases ht with
  | intro _ hparts => exact hparts s hs

theorem height_le (ht : t.Shallow n) : t.height ≤ n + 2 := by
  have hlow := ht.low
  cases t with
  | union ms => exact hlow.1
  | inter ms => exact Nat.le_succ_of_le hlow.1
  | _ => exact Nat.le_trans hlow (by omega)

theorem spread_le (ht : t.Shallow n) : t.spread ≤ n + 1 := by
  have hlow := ht.low
  cases t with
  | union ms => exact hlow.2
  | inter ms => exact Nat.le_succ_of_le hlow.2
  | _ => simp [spread]

/-- What is no union has the tighter bounds. -/
theorem bounds_of_not_union (ht : t.Shallow n) (hu : t.isUnion = false) :
    t.height ≤ n + 1 ∧ t.spread ≤ n := by
  have hlow := ht.low
  cases t with
  | union ms => simp [isUnion] at hu
  | inter ms => exact hlow
  | _ => exact ⟨Nat.le_succ_of_le hlow, by simp [spread]⟩

/-- What opens nothing and has shallow parts is shallow. -/
theorem of_closed (ho : t.opens = false) (hp : ∀ s ∈ t.parts, s.Shallow n) : t.Shallow n := by
  refine .intro ?_ hp
  cases t with
  | union ms | inter ms | var name bound => simp [opens] at ho
  | _ => exact Nat.le_trans (Nat.le_of_eq (height_of_closed rfl)) (Nat.zero_le n)

/-- A type is shallow for every number that bounds its size. -/
theorem of_size_le (t : Ty) (ht : t.size ≤ n) : t.Shallow n := by
  induction t using parts_induction with
  | step t ih =>
    have hheight := height_le_size t
    have hspread := spread_le_size t
    refine .intro ?_ fun s hs => ih s hs ?_
    · cases t with
      | union ms => exact ⟨by omega, by omega⟩
      | inter ms => exact ⟨by omega, by omega⟩
      | _ => exact Nat.le_trans hheight ht
    · have := size_lt_of_mem_parts hs
      omega

end Shallow
end FlowTyping.Ty
