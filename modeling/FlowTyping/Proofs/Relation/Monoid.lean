import FlowTyping.Proofs.Relation.Reunion

/-!
# Unions are a monoid

A union is told by the alternatives of its arguments, and a union that is an argument again offers the
alternatives that it was made of. A literal that went beside its atom and the `boolean` that came for both of
its values make this no equality of members: what went is still offered, and what came would come again.

* **`Hierarchy.union_key_congr`** — unions of the same alternatives have one key.
* **`Hierarchy.union_union_key`** — unions in a union are opened.
* **`Universe.History.union_monoid`** — what a universe answers: order, repetition and grouping of the arguments
  make no difference, `never` adds nothing, `unknown` is all there is, and an entry is the union of itself.
* **`Session.collision_not_grouped`** — where a name is no word, the grouping does make a difference.
-/

namespace FlowTyping

open Ty

namespace Hierarchy

variable {h : Hierarchy} {t y : Ty} {xs ys : List Ty}

/-- **Unions of the same alternatives have one key.** -/
theorem union_key_congr (hsame : ∀ x, (∃ t ∈ xs, Alternative x t) ↔ ∃ t ∈ ys, Alternative x t) :
    (h.union xs).key = (h.union ys).key := by
  refine (union_simplified h xs).key_eq (union_simplified h ys) (union_sameHolds ?_ ?_)
  · intro t ht y hy
    obtain ⟨s, hs, hys⟩ := (hsame y).1 ⟨t, ht, hy⟩
    exact holds_union_of_alternative hs hys
  · intro t ht y hy
    obtain ⟨s, hs, hys⟩ := (hsame y).2 ⟨t, ht, hy⟩
    exact holds_union_of_alternative hs hys

/-- A union offers no alternative that a union of more arguments does not have. -/
theorem holds_of_alternative_union (hsub : xs ⊆ ys) (hy : Alternative y (h.union xs)) :
    (h.union ys).Holds y := by
  rcases of_mem_members_union ((union_flat h xs).mem_members hy) with ⟨t, ht, halt⟩ | ⟨rfl, hboth⟩
  · exact holds_union_of_alternative (hsub ht) halt
  · refine holds_boolean fun b => ?_
    obtain ⟨t, ht, z, halt, hk⟩ := hboth b
    obtain rfl := eq_bool_of_key_eq hk
    exact holds_union_of_alternative (hsub ht) halt

/-- **Unions in a union are opened.** -/
theorem union_union_key (h : Hierarchy) (xs ys : List Ty) :
    (h.union (h.union xs :: ys)).key = (h.union (xs ++ ys)).key := by
  refine (union_simplified h _).key_eq (union_simplified h _) (union_sameHolds ?_ ?_)
  · intro t ht y hy
    rcases List.mem_cons.1 ht with rfl | ht
    · exact holds_of_alternative_union (List.subset_append_left xs ys) hy
    · exact holds_union_of_alternative (List.mem_append_right xs ht) hy
  · intro t ht y hy
    rcases List.mem_append.1 ht with ht | ht
    · -- the inner union may have dropped a literal, and has its atom then
      have hinner : (h.union xs).Holds y := holds_union_of_alternative ht hy
      exact holds_union (union_flat h xs) (by simp) hinner
    · exact holds_union_of_alternative (List.mem_cons_of_mem _ ht) hy

/-- A simplified type is the union of itself. -/
theorem union_self_key (h : Hierarchy) (ht : t.Simplified) (hflat : t.Flat) : (h.union [t]).key = t.key := by
  refine Eq.trans (union_key_congr fun x => ?_) (congrArg Ty.key (union_members h ht))
  constructor
  · rintro ⟨s, hs, hx⟩
    obtain rfl := List.mem_singleton.1 hs
    exact ⟨x, hflat.mem_members hx, .self hx.isUnion hx.isNever⟩
  · rintro ⟨m, hm, hx⟩
    have halt := hflat.alternative hm
    obtain ⟨rfl, -⟩ := (Alternative.iff_of_not_union halt.isUnion).1 hx
    exact ⟨t, by simp, halt⟩

end Hierarchy

/-! ## Universes -/

namespace Universe

open Hierarchy

variable {h : Hierarchy} {u : Universe} {r s t : Ty} {xs ys : List Ty}

/-- The members of entries are their alternatives. -/
theorem Sound.exists_alternative_iff (hu : u.Sound h) (hxs : ∀ t ∈ xs, u.Keeps t) (x : Ty) :
    (∃ t ∈ xs, Alternative x t) ↔ ∃ t ∈ xs, x ∈ t.members := by
  refine exists_congr fun t => and_congr_right fun ht => ?_
  have hflat := (hu.canonical (hxs t ht)).flat
  exact ⟨hflat.mem_members, hflat.alternative⟩

/-- **Union is a commutative and idempotent monoid on the entries of a universe** that comes of a new one by
calls with words for names, by declarations of classes and by passes over bodies. Arguments with the same
members have one union, so order and repetition make no difference; unions in a union are opened; the union of
nothing is `never`, which adds nothing to others; with `unknown` the union is `unknown`; and every entry is the
union of itself. -/
theorem History.union_monoid (hu : u.History) :
    (∀ xs ys : List Ty, (∀ t ∈ xs ++ ys, u.Keeps t) →
      (∀ x, (∃ t ∈ xs, x ∈ t.members) ↔ ∃ t ∈ ys, x ∈ t.members) →
        u.AnswersSame (TypeStore.union xs) (TypeStore.union ys)) ∧
    (∀ xs ys : List Ty, (∀ t ∈ xs ++ ys, u.Keeps t) →
      u.AnswersSame (do TypeStore.union ((← TypeStore.union xs) :: ys)) (TypeStore.union (xs ++ ys))) ∧
    (∀ xs ys : List Ty, (∀ t ∈ xs, u.Keeps t) → (∀ t, t ∈ xs ↔ t ∈ ys) →
      u.AnswersSame (TypeStore.union xs) (TypeStore.union ys)) ∧
    ((TypeStore.union [] : InUniverse Ty).run u).1 = .never ∧
    (∀ xs ys : List Ty, (∀ t ∈ xs ++ ys, u.Keeps t) →
      u.AnswersSame (TypeStore.union (xs ++ .never :: ys)) (TypeStore.union (xs ++ ys))) ∧
    (∀ xs : List Ty, (∀ t ∈ xs, u.Keeps t) → .unknown ∈ xs →
      ((TypeStore.union xs : InUniverse Ty).run u).1 = .unknown) ∧
    ∀ t : Ty, u.Keeps t → ((TypeStore.union [t] : InUniverse Ty).run u).1 = t := by
  have hsound := hu.sound.1
  have hyields {ts : List Ty} (hts : ∀ t ∈ ts, u.Keeps t) :=
    yields_union (h := u.classes) (hsound.stands_all hts)
  have hsame {xs ys : List Ty} (hxs : ∀ t ∈ xs, u.Keeps t) (hys : ∀ t ∈ ys, u.Keeps t)
      (halt : ∀ x, (∃ t ∈ xs, Alternative x t) ↔ ∃ t ∈ ys, Alternative x t) :
      u.AnswersSame (TypeStore.union xs) (TypeStore.union ys) :=
    hsound.answersSame (hyields hxs) (hyields hys) (union_key_congr halt)
  -- an answer whose key is that of an entry is the entry
  have hanswer {ts : List Ty} {t : Ty} (hts : ∀ t ∈ ts, u.Keeps t) (ht : u.Keeps t)
      (hk : (u.classes.union ts).key = t.key) : ((TypeStore.union ts : InUniverse Ty).run u).1 = t := by
    obtain ⟨-, hgrows, hstands⟩ := hyields hts u hsound (.refl _ u)
    exact hstands.eq_of_keeps (hgrows.keeps ht) hk
  refine ⟨fun xs ys hall hmembers => ?_, fun xs ys hall => ?_, fun xs ys hxs hmem => ?_, rfl,
    fun xs ys hall => ?_, fun xs hxs hmem => ?_, fun t ht => ?_⟩
  · have hxs (t) (ht : t ∈ xs) := hall t (List.mem_append_left _ ht)
    have hys (t) (ht : t ∈ ys) := hall t (List.mem_append_right _ ht)
    refine hsame hxs hys fun x => ?_
    rw [hsound.exists_alternative_iff hxs, hsound.exists_alternative_iff hys]
    exact hmembers x
  · have hxs := hyields fun t ht => hall t (List.mem_append_left _ ht)
    have hgrouped : u.Yields u.classes (do TypeStore.union ((← TypeStore.union xs) :: ys))
        fun v r => v.Stands r (u.classes.union (u.classes.union xs :: ys)) := by
      refine hxs.bind fun v inner hv huv hinner => yields_union (.cons hinner ?_)
      exact hv.stands_all fun t ht => huv.keeps (hall t (List.mem_append_right _ ht))
    exact hsound.answersSame hgrouped (hyields hall) (union_union_key _ xs ys)
  · exact hsame hxs (fun t ht => hxs t ((hmem t).2 ht)) fun x => by simp only [hmem]
  · refine hsame (fun t ht => ?_) hall fun x => ?_
    · rcases List.mem_append.1 ht with ht | ht
      · exact hall t (List.mem_append_left _ ht)
      · rcases List.mem_cons.1 ht with rfl | ht
        · exact hsound.atom (by simp [atoms])
        · exact hall t (List.mem_append_right _ ht)
    · have hnever : ¬ Alternative x .never := by simp [Alternative.iff_of_not_union (t := .never) rfl, isNever]
      simp [or_and_right, exists_or, hnever]
  · refine hanswer hxs (hsound.atom (by simp [atoms])) ?_
    rw [union_unknown hmem (.self rfl rfl)]
  · refine hanswer (by simpa using ht) ht ?_
    exact union_self_key _ (hsound.simplified ht) (hsound.canonical ht).flat

/-- A type parameter that is named once, twice or in a union of its own. -/
theorem parametric_union_monoid : (holding parametric).History ∧
    (holding parametric).AnswersSame (TypeStore.union [.var "T" none, .string, .var "T" none])
      (TypeStore.union [.string, .var "T" none]) ∧
    (holding parametric).AnswersSame
      (do TypeStore.union ((← TypeStore.union [.var "T" none, .string]) :: [.var "T" none]))
      (TypeStore.union ([.var "T" none, .string] ++ [.var "T" none])) := by
  have hu := parametric_history
  have hkept (t : Ty) (ht : t = .string ∨ t = .var "T" none) : (holding parametric).Keeps t := by
    refine (lookup?_holding (by decide)).2 ⟨?_, rfl⟩
    rcases ht with rfl | rfl <;> simp [parametric, Ty.atoms]
  obtain ⟨-, hgrouped, hrepeated, -⟩ := hu.union_monoid
  refine ⟨hu, hrepeated _ _ (fun t ht => hkept t ?_) fun t => ?_, hgrouped _ _ fun t ht => hkept t ?_⟩
  · simpa [or_left_comm] using ht
  · simp [or_left_comm]
  · simpa [or_left_comm] using ht

end Universe

/-! ## Names that are no words -/

namespace Session

open Universe

/-- The entries after the first shape was put beside the disguised one. -/
def regroupedEntries : List Ty := collisionEntries ++ [.union [.null, shapeA, disguised]]

theorem run_union_grouped : (do TypeStore.union ((← TypeStore.union [.null, shapeA, shapeB]) :: [shapeA]) :
    InUniverse Ty).run (holding collisionEntries) =
      (.union [.null, shapeA, disguised], holding regroupedEntries) := by
  have hsorted : Ty.sortByKey [.null, disguised, shapeA] = [.null, shapeA, disguised] :=
    (Ty.sortByKey_congr (.cons _ (.swap ..)) (by decide)).trans
      (Ty.sortByKey_of_pairwise (by with_unfolding_all decide))
  rw [run_bind_of_run run_union_collision,
    run_union_holding (by decide) (by simp [collisionEntries, disguisedEntries])
      (show Ty.alternativesAll _ = some [.null, disguised, shapeA] from rfl) rfl hsorted]
  exact intern_of_not_mem (by decide) (by decide)

/-- A union of two shapes with `null` that is answered by the disguised shape has lost the first of them, and
takes it as a new member. -/
theorem collision_not_grouped :
    (∀ t ∈ [.null, shapeA, shapeB], t ∈ ((start 0).run collision).answered) ∧
      ¬ ((start 0).run collision).store.AnswersSame
        (do TypeStore.union ((← TypeStore.union [.null, shapeA, shapeB]) :: [shapeA]))
        (TypeStore.union ([.null, shapeA, shapeB] ++ [shapeA])) := by
  rw [run_collision]
  refine ⟨by simp [Ty.atoms], ?_⟩
  have hkey : (Ty.union [.null, shapeA, shapeB]).key = (Ty.union [.null, disguised]).key := by decide
  have hflat : (TypeStore.union ([.null, shapeA, shapeB] ++ [shapeA]) : InUniverse Ty).run
      (holding regroupedEntries) = (.union [.null, disguised], holding regroupedEntries) := by
    rw [run_union_holding (by decide) (by simp [regroupedEntries, collisionEntries, disguisedEntries])
      (show Ty.alternativesAll _ = some [.null, shapeA, shapeB, shapeA] from rfl) rfl sortByKey_shapes]
    exact intern_of_mem (by decide) (by simp [regroupedEntries, collisionEntries, disguisedEntries]) hkey
  rw [AnswersSame, run_union_grouped, hflat]
  simp

end Session
end FlowTyping
