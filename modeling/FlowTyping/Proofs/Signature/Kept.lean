import FlowTyping.Overload.Resolve
import FlowTyping.Proofs.Flow.Written
import FlowTyping.Proofs.Store.Keeping

/-!
# Calls of entries come to entries

Inference joins parts of the arguments, and a signature is instantiated with what comes of it. A call asks whether
its arguments are within the parameter types, for one signature after the other, and a call that is refused may be
tried again with each alternative of an argument. All of it is done with operations of the universe, so whatever
can be relied on in the universe before a call, its type is an entry afterwards.

* **`Regime.Serving.matchType`** — matching an argument binds type parameters to entries, by induction on the
  parameter type.
* **`Regime.Serving.solve`** — a solved signature is made of entries.
* **`Regime.Serving.resolve`** — the type of a call is an entry.
-/

namespace FlowTyping

open Ty Universe

variable {R : Regime} {u v : Universe} {t arg : Ty} {vars : List Ty}

/-- Type parameters are bound to entries. -/
def Subst.KeptIn (subst : Subst) (u : Universe) : Prop := ∀ binding ∈ subst, u.Keeps binding.type

/-- A signature is made of entries. -/
def Signature.KeptIn (sig : Signature) (u : Universe) : Prop := ∀ t ∈ sig.types, u.Keeps t

namespace Subst.KeptIn

variable {subst : Subst}

theorem grows (hs : subst.KeptIn u) (huv : R.Grows u v) : subst.KeptIn v :=
  fun binding hb => R.keeps huv (hs binding hb)

theorem add {param : Ty} (hs : subst.KeptIn u) (ht : u.Keeps t) : (subst.add param t).KeptIn u := by
  intro binding hb
  rcases List.mem_append.1 hb with hb | hb
  · exact hs binding (List.mem_filter.1 hb).1
  · exact List.mem_singleton.1 hb ▸ ht

end Subst.KeptIn

namespace Signature.KeptIn

variable {sig : Signature}

theorem grows (hs : sig.KeptIn u) (huv : R.Grows u v) : sig.KeptIn v := fun t ht => R.keeps huv (hs t ht)

theorem param (hs : sig.KeptIn u) {p : Param Ty} (hp : p ∈ sig.params) : u.Keeps p.type :=
  hs _ (List.mem_append_left _ (List.mem_append_right _ (List.mem_map_of_mem hp)))

theorem ret (hs : sig.KeptIn u) : u.Keeps sig.ret := hs _ (List.mem_append_right _ (by simp))

theorem typeParam (hs : sig.KeptIn u) (ht : t ∈ sig.typeParams) : u.Keeps t :=
  hs _ (List.mem_append_left _ (List.mem_append_left _ ht))

/-- The type wanted for an argument is a parameter's, or part of it. -/
theorem paramType? (hs : sig.KeptIn u) (hu : R.Holds u) {i : Nat} (ht : sig.paramType? i = some t) : u.Keeps t := by
  have hrest {s : Ty} (hs : u.Keeps s) (i : Nat) : u.Keeps (restType s i) := by
    unfold restType
    split
    · split
      · rename_i elems rest e he
        exact R.part hu hs _ (List.mem_append_left _ (List.mem_map_of_mem (List.mem_of_getElem? he)))
      · exact R.part hu hs _ (List.mem_append_right _ (by simp))
    · exact hs
  have hall : ∀ (ps : List (Param Ty)) (i : Nat), (∀ p ∈ ps, u.Keeps p.type) → typeAt ps i = some t → u.Keeps t := by
    intro ps
    induction ps with
    | nil => simp [typeAt]
    | cons p ps ih =>
      intro i hps hi
      rw [typeAt.eq_def] at hi
      dsimp only at hi
      split at hi
      · exact Option.some.inj hi ▸ hrest (hps p (by simp)) i
      · cases i with
        | zero => exact Option.some.inj hi ▸ hps p (by simp)
        | succ i => exact ih i (fun q hq => hps q (by simp [hq])) hi
  exact hall sig.params i (fun _ => hs.param) ht

end Signature.KeptIn

/-! ## Inference -/

namespace Universe.Regime.Serving

open Signature

variable (hR : R.Serving) {bounds : Bounds}

include hR

theorem raise {param : Ty} (hb : bounds.KeptIn u) (ht : u.Keeps t) :
    R.Yields u (bounds.raise param t) fun v bounds => bounds.KeptIn v := by
  rw [Bounds.raise]
  split
  · rename_i prev hget
    refine (hR.union_two (keeps_get? hb hget) ht).bind fun v joined _ huv hjoined =>
      .pure fun _ _ hvw => ((hb.grows huv).add hjoined).grows hvw
  · exact .pure fun _ _ huv => (hb.add ht).grows huv

theorem matchUnion {members : List Ty} (hmembers : ∀ m ∈ members, u.Keeps m) (harg : u.Keeps arg)
    (hb : bounds.KeptIn u) : R.Yields u (matchUnion vars members arg bounds) fun v bounds => bounds.KeptIn v := by
  rw [Signature.matchUnion]
  split
  · refine .of_holds fun v hv huv => ?_
    have harg (m) (hm : m ∈ arg.members) : v.Keeps m := R.keeps_member hv (R.keeps huv harg) hm
    have hcovered (m) (hm : m ∈ arg.members) : R.Yields v
        (do return !(← (members.filter (!isOneOf vars ·)).anyM fun f => TypeStore.subtype m f)) fun _ _ => True :=
      (Yields.anyM fun f hf => hR.subtype (harg m hm) (R.keeps huv (hmembers f (List.mem_filter.1 hf).1))).bind
        fun _ _ _ _ _ => .pure fun _ _ _ => trivial
    refine (Yields.filterM hcovered).bind fun w found _ hvw hfound => ?_
    refine (hR.union fun m hm => R.keeps hvw (harg m (hfound m hm))).bind fun w' rest _ hww' hrest => ?_
    have hb := hb.grows (R.trans huv (R.trans hvw hww'))
    split
    · exact .pure fun _ _ h => hb.grows h
    · exact hR.raise hb hrest
  · exact .pure fun _ _ huv => hb.grows huv

/-- Matching arguments against the parameter type binds type parameters to entries. -/
def Matched (R : Regime) (vars : List Ty) (param : Ty) : Prop :=
  ∀ {u : Universe} {arg : Ty} {bounds : Bounds}, u.Keeps param → u.Keeps arg → bounds.KeptIn u →
    R.Yields u (matchType vars param arg bounds) fun v bounds => bounds.KeptIn v

omit hR in
theorem yields_bounds (hb : bounds.KeptIn u) : R.Yields u (pure bounds) fun v bounds => bounds.KeptIn v :=
  .pure fun _ _ huv => hb.grows huv

omit hR in
/-- The parts of an argument are matched one after the other. -/
theorem eachPart {f : Bounds → Ty → InUniverse Bounds} (harg : u.Keeps arg) (hb : bounds.KeptIn u)
    (hf : ∀ (v : Universe) (bounds : Bounds) (part : Ty), R.Grows u v → v.Keeps part → bounds.KeptIn v →
      R.Yields v (f bounds part) fun v bounds => bounds.KeptIn v) :
    R.Yields u ((matchedParts arg).foldlM f bounds) fun v bounds => bounds.KeptIn v := by
  refine .of_holds fun v hv huv => .foldlM (hb.grows huv) (fun hvw hb => hb.grows hvw) fun part hpart w bounds hvw hb =>
    hf w bounds part (R.trans huv hvw) (R.keeps hvw ?_) hb
  unfold matchedParts at hpart
  split at hpart
  · exact R.part hv (R.keeps huv harg) part hpart
  · exact List.mem_singleton.1 hpart ▸ R.keeps huv harg

omit hR in
theorem matchMembers {ms : List Ty} (heach : ∀ m ∈ ms, Matched R vars m) (hms : ∀ m ∈ ms, u.Keeps m)
    (harg : u.Keeps arg) (hb : bounds.KeptIn u) :
    R.Yields u (matchMembers vars ms arg bounds) fun v bounds => bounds.KeptIn v := by
  induction ms generalizing u bounds with
  | nil =>
    rw [Signature.matchMembers]
    exact yields_bounds hb
  | cons m ms ih =>
    rw [Signature.matchMembers]
    exact (heach m (by simp) (hms m (by simp)) harg hb).bind fun v _ _ huv hb =>
      ih (fun m hm => heach m (by simp [hm])) (fun m hm => R.keeps huv (hms m (by simp [hm]))) (R.keeps huv harg) hb

omit hR in
theorem matchElems {es as : List (Elem Ty)} {rest : Option Ty} (heach : ∀ e ∈ es, Matched R vars e.type)
    (hes : ∀ e ∈ es, u.Keeps e.type) (has : ∀ a ∈ as, u.Keeps a.type) (hrest : ∀ t ∈ rest, u.Keeps t)
    (hb : bounds.KeptIn u) : R.Yields u (matchElems vars es as rest bounds) fun v bounds => bounds.KeptIn v := by
  induction es generalizing u as bounds with
  | nil =>
    rw [Signature.matchElems]
    exact yields_bounds hb
  | cons e es ih =>
    -- an element is matched with the one at its place, or with the rest where the elements have run out
    have hnext {a : Ty} (as : List (Elem Ty)) (ha : u.Keeps a) (has : ∀ a ∈ as, u.Keeps a.type) :
        R.Yields u (matchType vars e.type a bounds >>= Signature.matchElems vars es as rest)
          fun v bounds => bounds.KeptIn v :=
      (heach e (by simp) (hes e (by simp)) ha hb).bind fun v _ _ huv hb =>
        ih (fun f hf => heach f (by simp [hf])) (fun f hf => R.keeps huv (hes f (by simp [hf])))
          (fun a ha => R.keeps huv (has a ha)) (fun t ht => R.keeps huv (hrest t ht)) hb
    cases as with
    | cons a as =>
      rw [Signature.matchElems]
      exact hnext as (has a (by simp)) fun b hb => has b (List.mem_cons_of_mem a hb)
    | nil =>
      cases rest with
      | some t =>
        rw [Signature.matchElems]
        exact hnext [] (hrest t rfl) (fun _ h => absurd h List.not_mem_nil)
      | none =>
        rw [Signature.matchElems]
        exact yields_bounds hb

theorem matchProps {ps : List (Property Ty)} (heach : ∀ p ∈ ps, Matched R vars p.type)
    (hps : ∀ p ∈ ps, u.Keeps p.type) (harg : u.Keeps arg) (hb : bounds.KeptIn u) :
    R.Yields u (matchProps vars ps arg bounds) fun v bounds => bounds.KeptIn v := by
  induction ps generalizing u bounds with
  | nil =>
    rw [Signature.matchProps]
    exact yields_bounds hb
  | cons p ps ih =>
    rw [Signature.matchProps]
    refine (hR.propertyOf p.name harg).bind fun v found _ huv hfound => ?_
    have hrest {w : Universe} {bounds : Bounds} (huw : R.Grows u w) (hb : bounds.KeptIn w) :
        R.Yields w (Signature.matchProps vars ps arg bounds) fun v bounds => bounds.KeptIn v :=
      ih (fun q hq => heach q (by simp [hq])) (fun q hq => R.keeps huw (hps q (by simp [hq]))) (R.keeps huw harg) hb
    cases found with
    | some q =>
      exact (heach p (by simp) (R.keeps huv (hps p (by simp))) (hfound q rfl) (hb.grows huv)).bind
        fun w _ _ hvw hb => hrest (R.trans huv hvw) hb
    | none => exact hrest huv (hb.grows huv)

omit hR in
theorem matchParams {ps as : List (Param Ty)} (heach : ∀ p ∈ ps, Matched R vars p.type)
    (hps : ∀ p ∈ ps, u.Keeps p.type) (has : ∀ a ∈ as, u.Keeps a.type) (hb : bounds.KeptIn u) :
    R.Yields u (matchParams vars ps as bounds) fun v bounds => bounds.KeptIn v := by
  induction ps generalizing u as bounds with
  | nil =>
    rw [Signature.matchParams.eq_def]
    exact yields_bounds hb
  | cons p ps ih =>
    cases as with
    | nil =>
      rw [Signature.matchParams.eq_def]
      exact yields_bounds hb
    | cons a as =>
      rw [Signature.matchParams]
      exact (heach p (by simp) (hps p (by simp)) (has a (by simp)) hb).bind fun v _ _ huv hb =>
        ih (fun q hq => heach q (by simp [hq])) (fun q hq => R.keeps huv (hps q (by simp [hq])))
          (fun b hb => R.keeps huv (has b (by simp [hb]))) hb

/-- **Matching an argument against a parameter type binds type parameters to entries.** -/
theorem matchType (vars : List Ty) (param : Ty) : Matched R vars param := by
  induction param using parts_induction with
  | step param ih =>
    intro u arg bounds hparam harg hb
    refine .of_holds fun v hv huv => ?_
    replace hparam := R.keeps huv hparam
    replace harg := R.keeps huv harg
    replace hb := hb.grows huv
    have hpart {w : Universe} (hvw : R.Grows v w) (s) (hs : s ∈ param.parts) : w.Keeps s :=
      R.keeps hvw (R.part hv hparam s hs)
    cases param with
    | var name bound =>
      rw [Signature.matchType]
      split
      · exact hR.raise hb harg
      · exact yields_bounds hb
    | union ms =>
      rw [Signature.matchType]
      split
      · exact yields_bounds hb
      · exact hR.matchUnion (R.part hv hparam) harg hb
    | inter ms =>
      rw [Signature.matchType]
      split
      · exact yields_bounds hb
      · exact eachPart harg hb fun w _ part hvw hpart' hb => matchMembers ih (hpart hvw) hpart' hb
    | object tag props =>
      rw [Signature.matchType]
      split
      · exact yields_bounds hb
      · exact eachPart harg hb fun w _ part hvw hpart' hb => hR.matchProps
          (fun p hp => ih _ (List.mem_map_of_mem hp)) (fun p hp => hpart hvw _ (List.mem_map_of_mem hp)) hpart' hb
    | function params ret =>
      have hin {p : Param Ty} (hp : p ∈ params) : p.type ∈ (Ty.function params ret).parts :=
        List.mem_append_left _ (List.mem_map_of_mem hp)
      rw [Signature.matchType]
      split
      · exact yields_bounds hb
      · refine eachPart harg hb fun w _ part hvw hpart' hb => .of_holds fun w' hw' hww' => ?_
        replace hpart' := R.keeps hww' hpart'
        replace hb := hb.grows hww'
        have hvw := R.trans hvw hww'
        cases part with
        | function argParams argRet =>
          refine (matchParams (fun p hp => ih _ (hin hp)) (fun p hp => hpart hvw _ (hin hp))
            (fun a ha => R.part hw' hpart' _ (List.mem_append_left _ (List.mem_map_of_mem ha))) hb).bind
            fun w'' _ _ h hb => ?_
          exact ih ret (by simp [parts]) (hpart (R.trans hvw h) ret (by simp [parts]))
            (R.keeps h (R.part hw' hpart' argRet (by simp [parts]))) hb
        | _ => exact yields_bounds hb
    | tuple elems rest =>
      have hin {e : Elem Ty} (he : e ∈ elems) : e.type ∈ (Ty.tuple elems rest).parts :=
        List.mem_append_left _ (List.mem_map_of_mem he)
      have helems {w : Universe} {argElems : List (Elem Ty)} {argRest : Option Ty} {bounds : Bounds} (hvw : R.Grows v w)
          (hw : R.Holds w) (hpart' : w.Keeps (.tuple argElems argRest)) (hb : bounds.KeptIn w) :
          R.Yields w (Signature.matchElems vars elems argElems argRest bounds) fun v bounds => bounds.KeptIn v :=
        matchElems (fun e he => ih _ (hin he)) (fun e he => hpart hvw _ (hin he))
          (fun a ha => R.part hw hpart' _ (List.mem_append_left _ (List.mem_map_of_mem ha)))
          (fun t ht => R.part hw hpart' t (List.mem_append_right _ (Option.mem_toList.2 ht))) hb
      cases rest with
      | none =>
        rw [Signature.matchType]
        split
        · exact yields_bounds hb
        · refine eachPart harg hb fun w _ part hvw hpart' hb => .of_holds fun w' hw' hww' => ?_
          cases part with
          | tuple argElems argRest => exact helems (R.trans hvw hww') hw' (R.keeps hww' hpart') (hb.grows hww')
          | _ => exact yields_bounds (hb.grows hww')
      | some rest =>
        rw [Signature.matchType]
        split
        · exact yields_bounds hb
        · refine eachPart harg hb fun w _ part hvw hpart' hb => .of_holds fun w' hw' hww' => ?_
          replace hpart' := R.keeps hww' hpart'
          replace hb := hb.grows hww'
          have hvw := R.trans hvw hww'
          have hback {w'' : Universe} {a : Ty} {bounds : Bounds} (h : R.Grows w' w'') (ha : w'.Keeps a)
              (hb : bounds.KeptIn w'') :
              R.Yields w'' (Signature.matchType vars rest a bounds) fun v bounds => bounds.KeptIn v :=
            ih rest (by simp [parts]) (hpart (R.trans hvw h) rest (by simp [parts])) (R.keeps h ha) hb
          cases part with
          | tuple argElems argRest =>
            -- the elements, what the argument has beyond them, and its rest
            refine (helems hvw hw' hpart' hb).bind fun w₁ _ _ h₁ hb => ?_
            refine (Yields.foldlM hb (fun hvw hb => hb.grows hvw) fun e he w₂ _ h₂ hb =>
              hback (R.trans h₁ h₂) (R.part hw' hpart' _ (List.mem_append_left _
                (List.mem_map_of_mem (List.mem_of_mem_drop he)))) hb).bind fun w₂ _ _ h₂ hb => ?_
            cases argRest with
            | some argRest => exact hback (R.trans h₁ h₂) (R.part hw' hpart' argRest (by simp [parts])) hb
            | none => exact yields_bounds hb
          | _ => exact yields_bounds hb
    | _ =>
      rw [Signature.matchType.eq_def]
      exact yields_bounds hb

/-! ## Solving -/

variable {sig : Signature} {args explicit : List Ty} {subst : Subst}

theorem inferFrom (hs : sig.KeptIn u) (i : Nat) (hargs : ∀ t ∈ args, u.Keeps t) (hb : bounds.KeptIn u) :
    R.Yields u (inferFrom sig i args bounds) fun v bounds => bounds.KeptIn v := by
  induction args generalizing u i bounds with
  | nil => exact yields_bounds hb
  | cons arg args ih =>
    rw [Signature.inferFrom]
    split
    · exact yields_bounds hb
    · rename_i wanted hwanted
      refine .of_holds fun v hv huv => ?_
      exact (hR.matchType sig.typeParams wanted ((hs.grows huv).paramType? hv hwanted)
        (R.keeps huv (hargs arg (by simp))) (hb.grows huv)).bind fun w _ _ hvw hb =>
          ih (hs.grows (R.trans huv hvw)) (i + 1) (fun t ht => R.keeps (R.trans huv hvw) (hargs t (by simp [ht]))) hb

theorem explicitBounds {vars ts : List Ty} (hts : ∀ t ∈ ts, u.Keeps t) (hb : bounds.KeptIn u) :
    R.Yields u (Signature.explicitBounds vars ts bounds) fun v bounds => bounds.KeptIn v := by
  induction vars generalizing u ts bounds with
  | nil => exact yields_bounds hb
  | cons x vars ih =>
    cases ts with
    | nil => exact yields_bounds hb
    | cons t ts =>
      rw [Signature.explicitBounds]
      exact (hR.raise hb (hts t (by simp))).bind fun v _ _ huv hb =>
        ih (fun s hs => R.keeps huv (hts s (by simp [hs]))) hb

/-- The atom of a literal is an entry, and any other member of an entry is one. -/
theorem widenAll (ht : u.Keeps t) : R.Answers u (TypeStore.union (t.members.map Ty.widened)) := by
  refine .of_holds fun v hv huv => hR.union (List.forall_mem_map.2 fun m hm => ?_)
  have hm := R.keeps_member hv (R.keeps huv ht) hm
  cases m with
  | literal l => exact R.atom hv (by cases l <;> simp [widened, Literal.base, atoms])
  | _ => exact hm

omit hR in
/-- The bound of an entry is an entry. -/
theorem keeps_bound? (hu : R.Holds u) {x bound : Ty} (hx : u.Keeps x) (hbound : x.bound? = some bound) :
    u.Keeps bound := by
  cases x with
  | var name o =>
    obtain rfl : o = some bound := hbound
    exact R.part hu hx bound (by simp [parts])
  | _ => cases hbound

theorem bindParam (explicit : Bool) (hb : bounds.KeptIn u) {x : Ty} (hx : u.Keeps x) :
    R.Yields u (bindParam sig explicit bounds x) fun v bound => v.Keeps bound.1 := by
  rw [Signature.bindParam]
  split
  · rename_i lower hget
    have hlower := keeps_get? hb hget
    -- a literal that was inferred is widened, one that was asked for is not
    have hwidened : R.Answers u (if explicit then pure lower else Signature.widen x lower) := by
      split
      · exact .pure fun _ _ huv => R.keeps huv hlower
      · rw [Signature.widen]
        split
        · exact .pure fun _ _ huv => R.keeps huv hlower
        · exact hR.widenAll hlower
    exact hwidened.ite_bind fun _ _ _ _ ht => .pure fun _ _ hvw => R.keeps hvw ht
  · refine .pure fun v hv huv => ?_
    have hunknown : v.Keeps .unknown := R.atom hv (by simp [atoms])
    split
    · cases hbound : x.bound? with
      | none => exact hunknown
      | some bound => exact keeps_bound? hv (R.keeps huv hx) hbound
    · exact hunknown

theorem bindParams (explicit : Bool) (hb : bounds.KeptIn u) {xs : List Ty} (hxs : ∀ x ∈ xs, u.Keeps x) :
    R.Yields u (bindParams sig explicit bounds xs) fun v bound => Subst.KeptIn bound.1 v := by
  induction xs generalizing u with
  | nil => exact .pure fun _ _ _ => by simp [Subst.KeptIn]
  | cons x xs ih =>
    rw [Signature.bindParams]
    refine (hR.bindParam explicit hb (hxs x (by simp))).bind fun v bound _ huv hbound => ?_
    refine (ih (hb.grows huv) fun y hy => R.keeps huv (hxs y (by simp [hy]))).bind fun w rest _ hvw hrest => ?_
    obtain ⟨t, free⟩ := bound
    obtain ⟨subst, under⟩ := rest
    refine .pure fun _ _ h => Subst.KeptIn.grows (fun binding hb => ?_) h
    rcases List.mem_cons.1 hb with rfl | hb
    · exact R.keeps hvw hbound
    · exact hrest binding hb

theorem checkBounds (hb : subst.KeptIn u) {xs : List Ty} (hxs : ∀ x ∈ xs, u.Keeps x) :
    R.Yields u (checkBounds subst xs) fun _ _ => True := by
  induction xs generalizing u with
  | nil => exact .pure fun _ _ _ => trivial
  | cons x xs ih =>
    have hrest {v : Universe} (huv : R.Grows u v) : R.Yields v (Signature.checkBounds subst xs) fun _ _ => True :=
      ih (hb.grows huv) fun y hy => R.keeps huv (hxs y (by simp [hy]))
    rw [Signature.checkBounds]
    split
    · exact hrest (R.refl u)
    rename_i bound hbound
    refine .of_holds fun v hv huv => ?_
    have hkept := keeps_bound? hv (R.keeps huv (hxs x (by simp))) hbound
    have hlower : v.Keeps ((subst.get? x).getD .unknown) := by
      cases hget : subst.get? x with
      | none => exact R.atom hv (by simp [atoms])
      | some t => exact R.keeps huv (keeps_get? hb hget)
    -- a bound may mention other type parameters, so they are replaced first
    refine (hR.apply hkept (hb.grows huv)).bind fun v₁ bound _ h₁ hbound => ?_
    refine (hR.subtype (R.keeps h₁ hlower) hbound).bind fun v₂ _ _ h₂ _ => ?_
    have hgrown := R.trans huv (R.trans h₁ h₂)
    split
    · exact hrest hgrown
    · exact (hrest hgrown).bind fun _ _ _ _ _ => .pure fun _ _ _ => trivial

theorem instantiate (hs : sig.KeptIn u) (hb : subst.KeptIn u) :
    R.Yields u (sig.instantiate subst) fun v sig => sig.KeptIn v := by
  rw [Signature.instantiate]
  refine (Yields.mapM (P := fun v _ (p : Param Ty) => v.Keeps p.type) R.keeps fun p hp =>
    (hR.apply (hs.param hp) hb).bind fun _ _ _ _ ht => .pure fun _ _ hvw => R.keeps hvw ht).bind
    fun v params _ huv hparams => ?_
  refine (hR.apply (R.keeps huv hs.ret) (hb.grows huv)).bind fun w ret _ hvw hret => .pure fun w' _ hww' t ht => ?_
  rcases List.mem_append.1 ht with ht | ht
  · rcases List.mem_append.1 ht with ht | ht
    · exact R.keeps (R.trans huv (R.trans hvw hww')) (hs.typeParam (List.mem_filter.1 ht).1)
    · obtain ⟨p, hp, rfl⟩ := List.mem_map.1 ht
      obtain ⟨_, -, hkept⟩ := exists_mem_left hparams hp
      exact R.keeps (R.trans hvw hww') hkept
  · exact List.mem_singleton.1 ht ▸ R.keeps hww' hret

/-- **A solved signature is made of entries.** -/
theorem solve (hs : sig.KeptIn u) (hargs : ∀ t ∈ args, u.Keeps t) (hexplicit : ∀ t ∈ explicit, u.Keeps t) :
    R.Yields u (sig.solve args explicit) fun v found => ∀ solution, found = .ok solution →
      solution.signature.KeptIn v := by
  rw [Signature.solve]
  split
  · exact .pure fun _ _ _ => by simp
  have hempty : Subst.KeptIn [] u := by simp [Subst.KeptIn]
  have hbounds : R.Yields u (if explicit.isEmpty then sig.infer args else
      Signature.explicitBounds sig.typeParams explicit []) fun v bounds => bounds.KeptIn v := by
    split
    · exact hR.inferFrom hs 0 hargs hempty
    · exact hR.explicitBounds hexplicit hempty
  dsimp only
  refine hbounds.ite_bind fun v₁ bounds _ h₁ hbounds => ?_
  -- each phase grows the universe, and the signature goes along
  replace hs := hs.grows h₁
  refine (hR.bindParams (!explicit.isEmpty) hbounds fun x hx => hs.typeParam hx).bind fun v₂ found _ h₂ hsubst => ?_
  obtain ⟨subst, under⟩ := found
  replace hs := hs.grows h₂
  refine (hR.checkBounds hsubst fun x hx => hs.typeParam hx).bind fun v₃ _ _ h₃ _ => ?_
  refine (hR.instantiate (hs.grows h₃) (Subst.KeptIn.grows hsubst h₃)).bind fun v₄ sig _ _ hsig =>
    .pure fun w _ hw solution hsolution => ?_
  obtain rfl := Except.ok.inj hsolution
  exact hsig.grows hw

end Universe.Regime.Serving
end FlowTyping

/-! ## Resolving -/

namespace FlowTyping.Universe.Regime.Serving

open Ty OverloadSet

variable {R : Regime} (hR : R.Serving) {u : Universe} {sig : Signature} {set : OverloadSet} {args explicit : List Ty}

include hR

theorem firstBadArg (hs : sig.KeptIn u) (i : Nat) (hargs : ∀ t ∈ args, u.Keeps t) :
    R.Yields u (firstBadArg sig i args) fun _ _ => True := by
  induction args generalizing u i with
  | nil => exact .pure fun _ _ _ => trivial
  | cons arg args ih =>
    rw [OverloadSet.firstBadArg]
    refine .of_holds fun v hv huv => ?_
    have hwanted : v.Keeps ((sig.paramType? i).getD .never) := by
      cases hi : sig.paramType? i with
      | none => exact R.atom hv (by simp [atoms])
      | some t => exact (hs.grows huv).paramType? hv hi
    refine (hR.subtype (R.keeps huv (hargs arg (by simp))) hwanted).bind fun w within _ hvw _ => ?_
    have hgrown := R.trans huv hvw
    split
    · exact ih (hs.grows hgrown) (i + 1) fun t ht => R.keeps hgrown (hargs t (by simp [ht]))
    · exact .pure fun _ _ _ => trivial

/-- **A signature that fits is made of entries.** -/
theorem attempt (hs : sig.KeptIn u) (hargs : ∀ t ∈ args, u.Keeps t) (hexplicit : ∀ t ∈ explicit, u.Keeps t) :
    R.Yields u (attempt sig args explicit) fun v outcome => ∀ inst solution, outcome = .fits inst solution →
      inst.KeptIn v := by
  rw [OverloadSet.attempt]
  split
  · exact .pure fun _ _ _ => by simp
  split
  · exact .pure fun _ _ _ => by simp
  split
  -- a signature with type parameters is solved before its arguments are looked at
  · refine (hR.solve hs hargs hexplicit).bind fun v found _ huv hsolved => ?_
    cases found with
    | error e => exact .pure fun _ _ _ => by simp
    | ok solution =>
      have hsolution := hsolved solution rfl
      refine (hR.firstBadArg hsolution 0 fun t ht => R.keeps huv (hargs t ht)).bind fun w bad _ hvw _ => ?_
      cases bad with
      | some _ => exact .pure fun _ _ _ => by simp
      | none =>
        refine .pure fun w' _ hww' inst found heq => ?_
        split at heq
        · obtain ⟨rfl, -⟩ := Attempt.fits.inj heq
          exact hsolution.grows (R.trans hvw hww')
        · cases heq
  · refine (hR.firstBadArg hs 0 hargs).bind fun v bad _ huv _ => ?_
    cases bad with
    | some _ => exact .pure fun _ _ _ => by simp
    | none =>
      refine .pure fun w _ hvw inst found heq => ?_
      obtain ⟨rfl, -⟩ := Attempt.fits.inj heq
      exact hs.grows (R.trans huv hvw)

variable {sigs : List Signature}

theorem tryAll (hs : ∀ sig ∈ sigs, sig.KeptIn u) (i : Nat) (hargs : ∀ t ∈ args, u.Keeps t)
    (hexplicit : ∀ t ∈ explicit, u.Keeps t) :
    R.Yields u (tryAll args explicit i sigs) fun v found => ∀ p, found = .ok p → p.2.1.KeptIn v := by
  induction sigs generalizing u i with
  | nil => exact .pure fun _ _ _ => by simp
  | cons sig sigs ih =>
    rw [OverloadSet.tryAll]
    refine (hR.attempt (hs sig (by simp)) hargs hexplicit).bind fun v outcome _ huv houtcome => ?_
    have hrest := ih (fun sig h => (hs sig (by simp [h])).grows huv) (i + 1) (fun t ht => R.keeps huv (hargs t ht))
      fun t ht => R.keeps huv (hexplicit t ht)
    split
    · refine .pure fun w _ hvw p hp => ?_
      obtain rfl := Except.ok.inj hp
      exact (houtcome _ _ rfl).grows hvw
    · refine hrest.bind fun w found _ _ hfound => ?_
      cases found with
      | ok found => exact .pure fun w' _ hww' p hp => (hfound p hp).grows hww'
      | error e => exact .pure fun _ _ _ => by simp

theorem firstFit (hs : ∀ sig ∈ sigs, sig.KeptIn u) (i : Nat) (hargs : ∀ t ∈ args, u.Keeps t)
    (hexplicit : ∀ t ∈ explicit, u.Keeps t) : R.Yields u (firstFit args explicit i sigs) fun _ _ => True := by
  induction sigs generalizing u i with
  | nil => exact .pure fun _ _ _ => trivial
  | cons sig sigs ih =>
    rw [OverloadSet.firstFit]
    refine (hR.attempt (hs sig (by simp)) hargs hexplicit).bind fun v outcome _ huv _ => ?_
    split
    · exact .pure fun _ _ _ => trivial
    · exact ih (fun sig h => (hs sig (by simp [h])).grows huv) (i + 1) (fun t ht => R.keeps huv (hargs t ht))
        fun t ht => R.keeps huv (hexplicit t ht)

variable {before after : List Ty}

theorem fitsOf (hs : ∀ sig ∈ set.signatures, sig.KeptIn u) (hbefore : ∀ t ∈ before, u.Keeps t)
    (hafter : ∀ t ∈ after, u.Keeps t) (hexplicit : ∀ t ∈ explicit, u.Keeps t) {ts : List Ty}
    (hts : ∀ t ∈ ts, u.Keeps t) : R.Yields u (fitsOf set before after explicit ts) fun _ _ => True := by
  induction ts generalizing u with
  | nil => exact .pure fun _ _ _ => trivial
  | cons t ts ih =>
    rw [OverloadSet.fitsOf]
    have hargs : ∀ s ∈ before ++ t :: after, u.Keeps s := by
      intro s hs
      rcases List.mem_append.1 hs with hs | hs
      · exact hbefore s hs
      · rcases List.mem_cons.1 hs with rfl | hs
        · exact hts s (by simp)
        · exact hafter s hs
    refine (hR.firstFit hs 0 hargs hexplicit).bind fun v fit _ huv _ => ?_
    cases fit with
    | none => exact .pure fun _ _ _ => trivial
    | some i =>
      refine (ih (fun sig h => (hs sig h).grows huv) (fun s h => R.keeps huv (hbefore s h))
        (fun s h => R.keeps huv (hafter s h)) (fun s h => R.keeps huv (hexplicit s h))
        fun s h => R.keeps huv (hts s (by simp [h]))).bind fun w rest _ _ _ => ?_
      cases rest <;> exact .pure fun _ _ _ => trivial

theorem spread (hs : ∀ sig ∈ set.signatures, sig.KeptIn u) (hbefore : ∀ t ∈ before, u.Keeps t)
    (hargs : ∀ t ∈ args, u.Keeps t) (hexplicit : ∀ t ∈ explicit, u.Keeps t) :
    R.Yields u (spread set explicit before args) fun _ _ => True := by
  induction args generalizing u before with
  | nil => exact .pure fun _ _ _ => trivial
  | cons arg args ih =>
    -- an argument that decides nothing is passed over
    have hrest {v : Universe} (huv : R.Grows u v) :
        R.Yields v (OverloadSet.spread set explicit (before ++ [arg]) args) fun _ _ => True := by
      refine ih (fun sig h => (hs sig h).grows huv) (fun s h => R.keeps huv ?_)
        (fun s h => R.keeps huv (hargs s (by simp [h]))) fun s h => R.keeps huv (hexplicit s h)
      rcases List.mem_append.1 h with h | h
      · exact hbefore s h
      · exact hargs s (by simp [List.mem_singleton.1 h])
    rw [OverloadSet.spread]
    split
    · exact hrest (R.refl u)
    refine .of_holds fun v hv huv => ?_
    refine (hR.fitsOf (fun sig h => (hs sig h).grows huv) (fun s h => R.keeps huv (hbefore s h))
      (fun s h => R.keeps huv (hargs s (by simp [h]))) (fun s h => R.keeps huv (hexplicit s h))
      fun s h => R.keeps_member hv (R.keeps huv (hargs arg (by simp))) h).bind fun w found _ hvw _ => ?_
    have hgrown := R.trans huv hvw
    cases found with
    | none => exact hrest hgrown
    | some found =>
      dsimp only
      split
      · exact hrest hgrown
      · exact .pure fun _ _ _ => trivial

/-- **The type of a call is an entry**, whether or not a signature is chosen. -/
theorem resolve (hs : ∀ sig ∈ set.signatures, sig.KeptIn u) (hargs : ∀ t ∈ args, u.Keeps t)
    (hexplicit : ∀ t ∈ explicit, u.Keeps t) :
    R.Yields u (set.resolve args explicit) fun v result => v.Keeps result.ret := by
  rw [OverloadSet.resolve]
  refine (hR.tryAll hs 0 hargs hexplicit).bind fun v found _ huv hfound => ?_
  -- a call that is refused is of type `unknown`
  have hrefused {w : Universe} {findings : List Finding} :
      R.Yields w (pure (⟨set.name, args, none, .unknown, findings⟩ : CallResult)) fun v result => v.Keeps result.ret :=
    .pure fun _ hv _ => R.atom hv (by simp [atoms])
  cases found with
  | ok found =>
    obtain ⟨i, sig, solution⟩ := found
    exact .pure fun _ _ hvw => R.keeps hvw (hfound _ rfl).ret
  | error attempts =>
    dsimp only
    split
    · exact hrefused
    · refine (hR.spread (fun sig h => (hs sig h).grows huv) (by simp) (fun t ht => R.keeps huv (hargs t ht))
        fun t ht => R.keeps huv (hexplicit t ht)).bind fun w candidates _ _ _ => ?_
      cases candidates <;> exact hrefused

end FlowTyping.Universe.Regime.Serving
