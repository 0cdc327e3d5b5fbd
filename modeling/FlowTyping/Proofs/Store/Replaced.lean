import FlowTyping.Proofs.Store.Keeping

/-!
# Replaced types

A universe replaces the parameters of a type while it interns what it makes. The result is the tree that it
keeps for the type that plain replacement makes over its classes, so what holds of plain replacement holds of
it, up to the trees that stand for types.

* **`Hierarchy.replaced`** — replacement as a plain function, with an equation for each form of type.
* **`Ty.Made`** — types that some universe keeps. Rebuilding is for types of another universe, too.
* **`Universe.yields_rebuild`** — what a universe answers stands for the replaced type.
-/

namespace FlowTyping

namespace TypeStore

variable {m : Type → Type} [TypeStore m] {subst subst' : Subst}

/-- A type that is no parameter itself is rebuilt from what its parts are rebuilt to. -/
theorem rebuild_congr {t : Ty} (hno : ∀ name bound, t ≠ .var name bound)
    (hparts : ∀ s ∈ t.parts, (rebuild subst s : m Ty) = rebuild subst' s) :
    (rebuild subst t : m Ty) = rebuild subst' t := by
  have hprops (ps : List (Property Ty)) (hps : ∀ p ∈ ps, (rebuild subst p.type : m Ty) = rebuild subst' p.type) :
      (rebuildProps subst ps : m _) = rebuildProps subst' ps := by
    induction ps with
    | nil => rfl
    | cons p ps ih => rw [rebuildProps, rebuildProps, hps p (by simp), ih fun q hq => hps q (by simp [hq])]
  have helems (es : List (Elem Ty)) (hes : ∀ e ∈ es, (rebuild subst e.type : m Ty) = rebuild subst' e.type) :
      (rebuildElems subst es : m _) = rebuildElems subst' es := by
    induction es with
    | nil => rfl
    | cons e es ih => rw [rebuildElems, rebuildElems, hes e (by simp), ih fun f hf => hes f (by simp [hf])]
  have hparams (ps : List (Param Ty)) (hps : ∀ p ∈ ps, (rebuild subst p.type : m Ty) = rebuild subst' p.type) :
      (rebuildParams subst ps : m _) = rebuildParams subst' ps := by
    induction ps with
    | nil => rfl
    | cons p ps ih => rw [rebuildParams, rebuildParams, hps p (by simp), ih fun q hq => hps q (by simp [hq])]
  have hall (ts : List Ty) (hts : ∀ t ∈ ts, (rebuild subst t : m Ty) = rebuild subst' t) :
      (rebuildAll subst ts : m _) = rebuildAll subst' ts := by
    induction ts with
    | nil => rfl
    | cons t ts ih => rw [rebuildAll, rebuildAll, hts t (by simp), ih fun s hs => hts s (by simp [hs])]
  cases t with
  | object tag props => rw [rebuild, rebuild, hprops props fun p hp => hparts _ (List.mem_map_of_mem hp)]
  | tuple elems rest =>
    replace helems := helems elems fun e he => hparts _ (List.mem_append_left _ (List.mem_map_of_mem he))
    cases rest with
    | none => rw [rebuild, rebuild, helems]
    | some rest => rw [rebuild, rebuild, helems, hparts rest (by simp [Ty.parts])]
  | function params ret =>
    rw [rebuild, rebuild, hparts ret (by simp [Ty.parts]),
      hparams params fun p hp => hparts _ (List.mem_append_left _ (List.mem_map_of_mem hp))]
  | union ms => rw [rebuild, rebuild, hall ms hparts]
  | inter ms => rw [rebuild, rebuild, hall ms hparts]
  | var name bound => exact absurd rfl (hno name bound)
  | _ => simp only [rebuild]

/-- A type parameter that is not bound is rebuilt from what its bound is rebuilt to. -/
theorem rebuild_var_congr {name : String} {bound : Option Ty} (hget : subst.get? (.var name bound) = none)
    (hget' : subst'.get? (.var name bound) = none)
    (hparts : ∀ s ∈ bound, (rebuild subst s : m Ty) = rebuild subst' s) :
    (rebuild subst (.var name bound) : m Ty) = rebuild subst' (.var name bound) := by
  cases bound with
  | none => rw [rebuild, rebuild, hget, hget']
  | some bound => rw [rebuild, rebuild, hget, hget', hparts bound rfl]

end TypeStore

namespace Hierarchy

variable {h : Hierarchy} {subst : Subst}

/-- A type with its bound parameters replaced. -/
def replaced (h : Hierarchy) (subst : Subst) (t : Ty) : Ty := (TypeStore.rebuild subst t : Ideal h Ty).run

theorem run_rebuildProps (ps : List (Property Ty)) : (TypeStore.rebuildProps subst ps : Ideal h _).run =
    ps.map fun p => { p with type := h.replaced subst p.type } := by
  induction ps with
  | nil => rfl
  | cons p ps ih => simp [TypeStore.rebuildProps, ih, replaced]

theorem run_rebuildElems (es : List (Elem Ty)) : (TypeStore.rebuildElems subst es : Ideal h _).run =
    es.map fun e => { e with type := h.replaced subst e.type } := by
  induction es with
  | nil => rfl
  | cons e es ih => simp [TypeStore.rebuildElems, ih, replaced]

theorem run_rebuildParams (ps : List (Param Ty)) : (TypeStore.rebuildParams subst ps : Ideal h _).run =
    ps.map fun p => { p with type := h.replaced subst p.type } := by
  induction ps with
  | nil => rfl
  | cons p ps ih => simp [TypeStore.rebuildParams, ih, replaced]

theorem run_rebuildAll (ts : List Ty) : (TypeStore.rebuildAll subst ts : Ideal h _).run =
    ts.map (h.replaced subst) := by
  induction ts with
  | nil => rfl
  | cons t ts ih => simp [TypeStore.rebuildAll, ih, replaced]

theorem replaced_literal (l : Literal) : h.replaced subst (.literal l) = .literal l := by
  rw [replaced, TypeStore.rebuild]
  rfl

theorem replaced_object (tag : String) (props : List (Property Ty)) : h.replaced subst (.object tag props) =
    .object tag (TypeStore.sortProps (props.map fun p => { p with type := h.replaced subst p.type })) := by
  rw [replaced, TypeStore.rebuild, Ideal.run_bind, run_rebuildProps]
  rfl

theorem replaced_tuple (elems : List (Elem Ty)) (rest : Option Ty) : h.replaced subst (.tuple elems rest) =
    .tuple (elems.map fun e => { e with type := h.replaced subst e.type }) (rest.map (h.replaced subst)) := by
  cases rest <;>
    · rw [replaced, TypeStore.rebuild, Ideal.run_bind, run_rebuildElems]
      rfl

theorem replaced_function (params : List (Param Ty)) (ret : Ty) : h.replaced subst (.function params ret) =
    .function (params.map fun p => { p with type := h.replaced subst p.type }) (h.replaced subst ret) := by
  rw [replaced, TypeStore.rebuild, Ideal.run_bind, run_rebuildParams]
  rfl

theorem replaced_union (ms : List Ty) : h.replaced subst (.union ms) = h.union (ms.map (h.replaced subst)) := by
  rw [replaced, TypeStore.rebuild, Ideal.run_bind, run_rebuildAll]
  rfl

theorem replaced_inter (ms : List Ty) : h.replaced subst (.inter ms) = h.intersect (ms.map (h.replaced subst)) := by
  rw [replaced, TypeStore.rebuild, Ideal.run_bind, run_rebuildAll]
  rfl

theorem replaced_var (name : String) (bound : Option Ty) : h.replaced subst (.var name bound) =
    (subst.get? (.var name bound)).getD (.var name (bound.map (h.replaced subst))) := by
  cases bound <;>
    · rw [replaced, TypeStore.rebuild]
      split <;> rename_i hget <;> rw [hget] <;> rfl

theorem replaced_atom {t : Ty} (ht : t ∈ Ty.atoms) : h.replaced subst t = t := by
  simp only [Ty.atoms, List.mem_cons, List.not_mem_nil, or_false] at ht
  rcases ht with rfl | rfl | rfl | rfl | rfl | rfl | rfl <;> rfl

end Hierarchy

/-! ## Types that universes keep -/

/-- A type in the form that the constructors give it, with words for names, and so all its parts. -/
inductive Ty.Made : Ty → Prop where
  | intro {t : Ty} (hnamed : t.OwnNamed) (horderly : t.Orderly) (hparts : ∀ s ∈ t.parts, Made s) : Made t

namespace Ty.Made

variable {s t : Ty}

theorem ownNamed (ht : Made t) : t.OwnNamed := by
  cases ht with
  | intro hnamed _ _ => exact hnamed

theorem orderly (ht : Made t) : t.Orderly := by
  cases ht with
  | intro _ horderly _ => exact horderly

theorem part (ht : Made t) (hs : s ∈ t.parts) : Made s := by
  cases ht with
  | intro _ _ hparts => exact hparts s hs

theorem named (ht : Made t) : Named t := by
  induction ht with
  | intro hnamed _ _ ih => exact .intro hnamed ih

end Ty.Made

namespace Universe

open Ty

variable {h : Hierarchy} {u : Universe} {subst : Subst} {t : Ty}

theorem Sound.made (hu : u.Sound h) (ht : u.Keeps t) : Made t := by
  induction t using parts_induction with
  | step t ih => exact .intro (hu.ownNamed ht) (hu.orderly ht) fun s hs => ih s hs (hu.part ht s hs)

/-- Replacing all types of a list answers trees that stand for the replaced types. -/
theorem yields_rebuildAll {ts : List Ty}
    (hts : ∀ t ∈ ts, u.Yields h (TypeStore.rebuild subst t) fun v r => v.Stands r (h.replaced subst t)) :
    u.Yields h (TypeStore.rebuildAll subst ts) fun v rs => List.Forall₂ v.Stands rs (ts.map (h.replaced subst)) := by
  rw [rebuildAll_eq]
  refine (Yields.mapM (R := Eq) (P := fun v t r => v.Stands r (h.replaced subst t))
    (fun hvw hr => hr.grows hvw) (List.forall₂_same.2 fun _ _ => rfl) fun t ht _ _ heq => ?_).imp ?_
  · exact heq ▸ hts t ht
  · exact fun _ _ _ _ hall => List.forall₂_map_right_iff.2 hall.flip

/-- What a universe answers stands for the replaced type, whichever universe the type comes from. -/
theorem yields_rebuild_of_made (hsubst : ∀ b ∈ subst, u.Keeps b.type) (ht : Made t) :
    u.Yields h (TypeStore.rebuild subst t) fun v r => v.Stands r (h.replaced subst t) := by
  induction t using parts_induction generalizing u with
  | step t ih =>
    refine .of_sound fun v hv huv => ?_
    replace hsubst : ∀ b ∈ subst, v.Keeps b.type := fun b hb => huv.keeps (hsubst b hb)
    have hpart (s) (hs : s ∈ t.parts) :
        v.Yields h (TypeStore.rebuild subst s) fun w r => w.Stands r (h.replaced subst s) :=
      ih s hs hsubst (ht.part hs)
    -- a list of pieces, each with a type in it
    have hpieces {α : Type} {xs : List α} {type : α → Ty} {withType : α → Ty → α}
        (hxs : ∀ x ∈ xs, type x ∈ t.parts) :
        v.Yields h (xs.mapM fun x => do return withType x (← TypeStore.rebuild subst (type x)))
          fun w ys => List.Forall₂ (fun x y => ∃ r, w.Stands r (h.replaced subst (type x)) ∧ y = withType x r)
            xs ys :=
      Yields.mapM (R := Eq) (fun hvw ⟨r, hr, hy⟩ => ⟨r, hr.grows hvw, hy⟩) (List.forall₂_same.2 fun _ _ => rfl)
        fun x hx _ _ heq => heq ▸ (hpart _ (hxs x hx)).bind fun _ r _ _ hr => .pure fun _ _ hvw =>
          ⟨r, hr.grows hvw, rfl⟩
    cases t with
    | literal l =>
      rw [TypeStore.rebuild, Hierarchy.replaced_literal]
      exact yields_literal l
    | object tag props =>
      obtain ⟨htag, hnames⟩ := ht.ownNamed
      rw [TypeStore.rebuild, rebuildProps_eq, Hierarchy.replaced_object]
      refine (hpieces fun p hp => List.mem_map_of_mem hp).bind fun w ps _ _ hps => ?_
      refine yields_object htag (fun q hq => ?_) (List.forall₂_map_right_iff.2 (hps.flip.imp ?_))
      · obtain ⟨p, hp, r, -, rfl⟩ := exists_mem_left hps hq
        exact hnames p hp
      · rintro q p ⟨r, hr, rfl⟩
        exact ⟨rfl, hr, rfl, rfl⟩
    | tuple elems rest =>
      have horder : elems.Pairwise fun e f => e.optional = true → f.optional = true := ht.orderly
      have helems : v.Yields h (TypeStore.rebuildElems subst elems) fun w es =>
          (es.Pairwise fun e f => e.optional = true → f.optional = true) ∧
            List.Forall₂ (Elem.Mirrors w.Stands) es
              (elems.map fun e => { e with type := h.replaced subst e.type }) := by
        rw [rebuildElems_eq]
        refine (hpieces fun e he => List.mem_append_left _ (List.mem_map_of_mem he)).imp
          fun w es _ _ hes => ⟨ordered_of_marks ?_ horder, List.forall₂_map_right_iff.2 (hes.flip.imp ?_)⟩
        · clear horder hpart ih ht hpieces
          induction hes with
          | nil => rfl
          | cons he _ ih =>
            obtain ⟨r, -, rfl⟩ := he
            simp only [List.map_cons, ih]
        · rintro f e ⟨r, hr, rfl⟩
          exact ⟨hr, rfl⟩
      rw [Hierarchy.replaced_tuple]
      cases rest with
      | none =>
        rw [TypeStore.rebuild]
        exact helems.bind fun w es _ _ hes => yields_tuple hes.1 hes.2 .none
      | some rest =>
        rw [TypeStore.rebuild]
        refine helems.bind fun w es _ hvw hes => ?_
        refine ((hpart rest (by simp [parts])).grows hvw).bind fun w' r _ hww' hr => ?_
        exact yields_tuple hes.1 (hes.2.imp fun _ _ he => ⟨he.type.grows hww', he.optional⟩) (.some hr)
    | function params ret =>
      rw [TypeStore.rebuild, rebuildParams_eq, Hierarchy.replaced_function]
      refine (hpieces fun p hp => List.mem_append_left _ (List.mem_map_of_mem hp)).bind fun w ps _ hvw hps => ?_
      refine ((hpart ret (by simp [parts])).grows hvw).bind fun w' r _ hww' hr => ?_
      refine yields_function (List.forall₂_map_right_iff.2 (hps.flip.imp ?_)) hr
      rintro q p ⟨r, hr, rfl⟩
      exact ⟨hr.grows hww', rfl, fun _ => rfl⟩
    | union ms =>
      rw [TypeStore.rebuild, Hierarchy.replaced_union]
      exact (yields_rebuildAll hpart).bind fun w ts _ _ hts => yields_union hts
    | inter ms =>
      rw [TypeStore.rebuild, Hierarchy.replaced_inter]
      exact (yields_rebuildAll hpart).bind fun w ts _ _ hts => yields_intersect hts
    | var name bound =>
      have hname : Text.IsWord name := ht.ownNamed
      rw [Hierarchy.replaced_var]
      have hself {s : Ty} (hs : subst.get? (.var name bound) = some s) :
          v.Yields h (pure s) fun w r => w.Stands r s :=
        .pure fun w hw hvw => hw.stands (hvw.keeps (keeps_get? hsubst hs))
      cases bound with
      | none =>
        rw [TypeStore.rebuild]
        split <;> rename_i hget <;> rw [hget]
        · exact hself hget
        · exact yields_typeVar hname .none
      | some bound =>
        rw [TypeStore.rebuild]
        split <;> rename_i hget <;> rw [hget]
        · exact hself hget
        · exact (hpart bound (by simp [parts])).bind fun w r _ _ hr => yields_typeVar hname (.some hr)
    | _ =>
      rw [TypeStore.rebuild, Hierarchy.replaced_atom (by simp [atoms])] <;>
        first | exact .pure fun w hw _ => hw.stands (hw.atom (by simp [atoms])) | simp

/-- **What a universe answers stands for the replaced type.** -/
theorem yields_rebuild (hsubst : ∀ b ∈ subst, u.Keeps b.type) (ht : u.Keeps t) :
    u.Yields h (TypeStore.rebuild subst t) fun v r => v.Stands r (h.replaced subst t) :=
  .of_sound fun _ hv huv => yields_rebuild_of_made (fun b hb => huv.keeps (hsubst b hb)) (hv.made (huv.keeps ht))

end Universe
end FlowTyping
