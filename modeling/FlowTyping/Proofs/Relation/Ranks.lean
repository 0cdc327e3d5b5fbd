import FlowTyping.Proofs.Relation.Bounds

/-!
# Ranks of questions

A question about types is answered from other questions, and these have smaller ranks. The rank of a
question counts the depth of its types first, then how much there is to open.

* **`Rules.subtypeRank`**, … — the number of nested steps that a question about shallow types takes at
  most.
* **`Rules.subtypeRank_below`**, **`Rules.disjointRank_members`**, … — what a question asks has a smaller
  rank, one lemma for each way of asking.
-/

namespace FlowTyping.Rules

open Ty

/-! ## Ranks -/

/-- Number of steps that one layer of depth is worth. -/
def layerSteps (n : Nat) : Nat := 4 * n + 12

def subtypeRank (n : Nat) (a b : Ty) : Nat :=
  layerSteps n * max a.depth b.depth + 1 + a.height + b.height

def disjointRank (n : Nat) (a b : Ty) : Nat :=
  layerSteps n * max a.depth b.depth + 2 + a.height + b.height

def propertyRank (n : Nat) (t : Ty) : Nat := layerSteps n * max 1 t.depth + t.height

def intersectRank (n : Nat) (ts : List Ty) : Nat :=
  layerSteps n * greatest depth ts + (2 * n + 7) + spreadAll ts

variable {n d : Nat} {a b s t : Ty}

theorem layerSteps_succ (n d : Nat) : layerSteps n * (d + 1) = layerSteps n * d + layerSteps n :=
  Nat.mul_succ ..

theorem disjointRank_eq (n : Nat) (a b : Ty) : disjointRank n a b = subtypeRank n a b + 1 := by
  simp only [disjointRank, subtypeRank]
  omega

/-- A question about shallower types is less than a layer deep. -/
theorem disjointRank_lt (ha : a.Bounded n d) (hb : b.Bounded n d) :
    disjointRank n a b < layerSteps n * (d + 1) := by
  have hmax : max a.depth b.depth ≤ d := Nat.max_le.2 ⟨ha.depth_le, hb.depth_le⟩
  have hmul := Nat.mul_le_mul_left (layerSteps n) hmax
  have hha := ha.shallow.height_le
  have hhb := hb.shallow.height_le
  rw [layerSteps_succ, disjointRank]
  simp only [layerSteps] at hmul ⊢
  omega

theorem intersectRank_lt (ha : a.Bounded n d) (hb : b.Bounded n d) :
    intersectRank n [a, b] < layerSteps n * (d + 1) := by
  have hmax : greatest depth [a, b] ≤ d :=
    greatest_le (by simpa using ⟨ha.depth_le, hb.depth_le⟩)
  have hmul := Nat.mul_le_mul_left (layerSteps n) hmax
  have hsa := ha.shallow.spread_le
  have hsb := hb.shallow.spread_le
  rw [layerSteps_succ, intersectRank, spreadAll_cons, spreadAll_cons, spreadAll_nil]
  simp only [layerSteps] at hmul ⊢
  omega

theorem spreadAll_le_of_sublist {ts us : List Ty} (hsub : us.Sublist ts) :
    spreadAll us ≤ spreadAll ts := by
  induction hsub with
  | slnil => exact Nat.le_refl _
  | cons t _ ih =>
    rw [spreadAll_cons]
    omega
  | cons_cons t _ ih =>
    rw [spreadAll_cons, spreadAll_cons]
    omega

mutual
/-- Opening intersections meets no union more. -/
theorem spreadAll_conjuncts {t : Ty} {flat : List Ty} (hf : conjuncts t = some flat) :
    spreadAll flat ≤ t.spread := by
  cases t with
  | never => simp [conjuncts] at hf
  | inter ms =>
    rw [spread_inter]
    exact spreadAll_conjunctsAll (by rwa [conjuncts] at hf)
  | unknown =>
    obtain rfl : [] = flat := by simpa [conjuncts] using hf
    simp
  | _ =>
    obtain rfl : [_] = flat := by simpa [conjuncts] using hf
    simp

theorem spreadAll_conjunctsAll {ts flat : List Ty} (hf : conjunctsAll ts = some flat) :
    spreadAll flat ≤ spreadAll ts := by
  cases ts with
  | nil =>
    obtain rfl : [] = flat := by simpa [conjunctsAll] using hf
    simp
  | cons t ts =>
    rw [conjunctsAll] at hf
    cases hfirst : conjuncts t with
    | none => simp [hfirst] at hf
    | some first =>
      cases hrest : conjunctsAll ts with
      | none => simp [hfirst, hrest] at hf
      | some rest =>
        obtain rfl : first ++ rest = flat := by simpa [hfirst, hrest] using hf
        have := spreadAll_conjuncts hfirst
        have := spreadAll_conjunctsAll hrest
        rw [spreadAll_append, spreadAll_cons]
        omega
end

/-- Opening a type on one side of a question. -/
theorem subtypeRank_left (ho : a.opens = true) (hs : s ∈ a.parts) :
    subtypeRank n s b < subtypeRank n a b := by
  have hdepth := depth_part_le hs
  have hheight := height_part_lt ho hs
  have hmul := Nat.mul_le_mul_left (layerSteps n)
    (show max s.depth b.depth ≤ max a.depth b.depth by omega)
  simp only [subtypeRank]
  omega

theorem subtypeRank_right (ho : b.opens = true) (hs : s ∈ b.parts) :
    subtypeRank n a s < subtypeRank n a b := by
  have hdepth := depth_part_le hs
  have hheight := height_part_lt ho hs
  have hmul := Nat.mul_le_mul_left (layerSteps n)
    (show max a.depth s.depth ≤ max a.depth b.depth by omega)
  simp only [subtypeRank]
  omega

theorem propertyRank_part (ho : t.opens = true) (hs : s ∈ t.parts) :
    propertyRank n s < propertyRank n t := by
  have hdepth := depth_part_le hs
  have hheight := height_part_lt ho hs
  have hmul := Nat.mul_le_mul_left (layerSteps n)
    (show max 1 s.depth ≤ max 1 t.depth by omega)
  simp only [propertyRank]
  omega

/-! ## What a question asks -/

theorem below_left (ha : a.Shallow n) (hl : a.layer = 1) (hs : s ∈ a.parts) :
    s.Bounded n (max a.depth b.depth - 1) := by
  refine ⟨ha.part hs, ?_⟩
  have := depth_part_le hs
  omega

theorem below_right (hb : b.Shallow n) (hl : b.layer = 1) (hs : s ∈ b.parts) :
    s.Bounded n (max a.depth b.depth - 1) := by
  rw [Nat.max_comm]
  exact below_left hb hl hs

theorem one_le_depth (hl : a.layer = 1) : 1 ≤ a.depth := by
  rw [depth_eq, hl]
  omega

theorem argType_bounded {d : Nat} {p : Param Ty} (hp : p.type.Bounded n d) :
    (argType p).Bounded n d := by
  rw [argType.eq_def]
  split
  · rename_i elems rest htype
    rw [htype] at hp
    exact (hp.part (by simp [parts])).mono (Nat.sub_le _ _)
  · exact hp

/-- Shapes, tuples and functions are compared by their parts, a layer below. -/
theorem subtypeRank_below (hs : s.Bounded n (max a.depth b.depth - 1))
    (ht : t.Bounded n (max a.depth b.depth - 1)) (hd : 1 ≤ max a.depth b.depth) :
    subtypeRank n s t < subtypeRank n a b := by
  have hlt := disjointRank_lt hs ht
  rw [Nat.sub_add_cancel hd, disjointRank_eq] at hlt
  simp only [subtypeRank] at hlt ⊢
  omega

theorem disjointRank_below (hs : s.Bounded n (max a.depth b.depth - 1))
    (ht : t.Bounded n (max a.depth b.depth - 1)) (hd : 1 ≤ max a.depth b.depth) :
    disjointRank n s t < disjointRank n a b := by
  rw [disjointRank_eq, disjointRank_eq]
  have := subtypeRank_below hs ht hd
  omega

/-- A shape asks for the properties of what is compared with it. -/
theorem propertyRank_lt_subtypeRank (a : Ty) (tag : String) (props : List (Property Ty)) :
    propertyRank n a < subtypeRank n a (.object tag props) := by
  have hd : 1 ≤ (Ty.object tag props).depth := one_le_depth rfl
  have hmul := Nat.mul_le_mul_left (layerSteps n)
    (show max 1 a.depth ≤ max a.depth (Ty.object tag props).depth by omega)
  simp only [propertyRank, subtypeRank]
  omega

theorem subtypeRank_comm (n : Nat) (a b : Ty) : subtypeRank n a b = subtypeRank n b a := by
  simp only [subtypeRank, Nat.max_comm]
  omega

/-- Disjointness asks for subtyping both ways. -/
theorem subtypeRank_lt_disjointRank (n : Nat) (a b : Ty) :
    subtypeRank n a b < disjointRank n a b ∧ subtypeRank n b a < disjointRank n a b := by
  rw [disjointRank_eq, subtypeRank_comm n b a]
  exact ⟨Nat.lt_succ_self _, Nat.lt_succ_self _⟩

/-- A member goes no deeper than the type, and a member of a union is opened. -/
theorem members_le (ha : a.Shallow n) (hs : s ∈ a.members) :
    s.Shallow n ∧ s.depth ≤ a.depth ∧ s.height ≤ a.height ∧ (a.isUnion = true → s.height < a.height) := by
  cases a with
  | never => simp [members] at hs
  | union ms =>
    have hdepth := depth_part_le (t := .union ms) hs
    have hheight := height_part_lt (t := .union ms) rfl hs
    exact ⟨ha.part hs, by omega, by omega, fun _ => hheight⟩
  | _ =>
    obtain rfl := List.mem_singleton.1 hs
    exact ⟨ha, Nat.le_refl _, Nat.le_refl _, by simp [isUnion]⟩

/-- Unions are disjoint by members. -/
theorem disjointRank_members (ha : a.Shallow n) (hb : b.Shallow n)
    (hu : (a.isUnion || b.isUnion) = true) (hs : s ∈ a.members) (ht : t ∈ b.members) :
    disjointRank n s t < disjointRank n a b := by
  obtain ⟨-, hds, hhs, hus⟩ := members_le ha hs
  obtain ⟨-, hdt, hht, hut⟩ := members_le hb ht
  have hmul := Nat.mul_le_mul_left (layerSteps n)
    (show max s.depth t.depth ≤ max a.depth b.depth by omega)
  have hopen : s.height + t.height < a.height + b.height := by
    rcases Bool.or_eq_true_iff.1 hu with hu | hu
    · have := hus hu
      omega
    · have := hut hu
      omega
  simp only [disjointRank]
  omega

/-- The properties of the members of an intersection are a layer below, and so are their
intersections. -/
theorem intersectRank_lt_propertyRank {ms : List Ty} (hs : s.Bounded n ((Ty.inter ms).depth - 1))
    (ht : t.Bounded n ((Ty.inter ms).depth - 1)) :
    intersectRank n [s, t] < propertyRank n (.inter ms) := by
  have hlt := intersectRank_lt hs ht
  have hmul := Nat.mul_le_mul_left (layerSteps n)
    (show (Ty.inter ms).depth - 1 + 1 ≤ max 1 (Ty.inter ms).depth by omega)
  simp only [propertyRank]
  omega

section Plain

/-! What an intersection combines in pairs is neither a union nor an intersection. -/

variable (ha : a.Bounded n d ∧ a.isUnion = false ∧ a.isInter = false)
  (hb : b.Bounded n d ∧ b.isUnion = false ∧ b.isInter = false)

include ha in
theorem height_le_of_plain : a.height ≤ n := by
  have hlow := ha.1.shallow.low
  cases a with
  | union us => simp [isUnion] at ha
  | inter us => simp [isInter] at ha
  | _ => exact hlow

include ha in
theorem bounded_part_of_plain (hs : s ∈ a.parts) : 1 ≤ d ∧ s.Bounded n (d - 1) := by
  have hl : a.layer = 1 := by
    cases a with
    | union us => simp [isUnion] at ha
    | inter us => simp [isInter] at ha
    | object _ _ | tuple _ _ | function _ _ | var _ _ => rfl
    | _ => simp [parts] at hs
  exact ⟨hl ▸ ha.1.layer_le, hl ▸ ha.1.part hs⟩

include ha hb in
theorem disjointRank_lt_of_plain : disjointRank n a b < layerSteps n * d + (2 * n + 7) := by
  have := height_le_of_plain ha
  have := height_le_of_plain hb
  have hmul := Nat.mul_le_mul_left (layerSteps n)
    (Nat.max_le.2 ⟨ha.1.depth_le, hb.1.depth_le⟩)
  simp only [disjointRank]
  omega

include ha hb in
/-- Two shapes that merge ask for the intersections of their properties. -/
theorem intersectRank_lt_of_plain (hs : s ∈ a.parts) (ht : t ∈ b.parts) :
    intersectRank n [s, t] < layerSteps n * d := by
  obtain ⟨hd, hs⟩ := bounded_part_of_plain ha hs
  obtain ⟨-, ht⟩ := bounded_part_of_plain hb ht
  have hlt := intersectRank_lt hs ht
  rwa [Nat.sub_add_cancel hd] at hlt

end Plain

section Spread

variable {ts flat us before after : List Ty} {x : Ty} (hts : ∀ t ∈ ts, t.Shallow n)
  (hflat : conjunctsAll ts = some flat) (hspread : dedup flat = before ++ .union us :: after)
  (hx : x ∈ us)

include hts hflat hspread hx in
theorem bounded_of_spread : ∀ t ∈ x :: (before ++ after), t.Bounded n (greatest depth ts) := by
  have hmem (y) (hy : y ∈ dedup flat) : y.Bounded n (greatest depth ts) :=
    (bounded_of_parted (fun t ht => ⟨hts t ht, le_greatest ht⟩) hflat hy).1
  rw [hspread] at hmem
  intro t ht
  rcases List.mem_cons.1 ht with rfl | ht
  · exact (hmem (.union us) (by simp)).part hx
  · rcases List.mem_append.1 ht with ht | ht
    · exact hmem t (by simp [ht])
    · exact hmem t (by simp [ht])

include hts hflat hspread hx in
/-- An intersection that distributes over a union asks for one with less spread. -/
theorem intersectRank_spread : intersectRank n (x :: (before ++ after)) < intersectRank n ts := by
  have hle : spreadAll (dedup flat) ≤ spreadAll ts :=
    Nat.le_trans (spreadAll_le_of_sublist (dedup_sublist flat)) (spreadAll_conjunctsAll hflat)
  have hmul := Nat.mul_le_mul_left (layerSteps n)
    (greatest_le fun t ht => (bounded_of_spread hts hflat hspread hx t ht).depth_le)
  have hx := le_greatest (f := spread) hx
  rw [hspread] at hle
  simp only [intersectRank, spreadAll_append, spreadAll_cons, spread_union] at hle ⊢
  omega

end Spread

end FlowTyping.Rules
