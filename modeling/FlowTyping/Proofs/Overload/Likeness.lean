import FlowTyping.Overload.Resolve
import FlowTyping.Proofs.Signature.Likeness

/-!
# Calls in two universes

A call of alike functions with alike arguments chooses the same signature, by its position, has alike types
for result, and is found at fault for the same reasons.

* **`Finding.Mirrors R`** — findings of one kind about related types. Candidates are signatures in print, so
  they are compared by the signatures that they show.
* **`OverloadSet.Copies R`** — a function with the same names for its parameters, of related types.
* **`Twins.agree_attempt`** — one signature; **`Twins.agree_resolve`** — the whole call.
-/

namespace FlowTyping

open Ty

/-! ## Findings -/

/-- The texts show related signatures. -/
def Signature.Printed (R : Ty → Ty → Prop) (cs ds : List Text) : Prop :=
  ∃ ps qs : List Signature, List.Forall₂ (Signature.Mirrors R) ps qs ∧ cs = ps.map Signature.render ∧
    ds = qs.map Signature.render

/-- Findings of one kind, about related types. -/
inductive Finding.Mirrors (R : Ty → Ty → Prop) : Finding → Finding → Prop where
  | nonExhaustive {s t : Ty} (h : R s t) : Mirrors R (.nonExhaustive s) (.nonExhaustive t)
  | ambiguous (callee : String) {as bs : List Ty} {cs ds : List Text} (hargs : List.Forall₂ R as bs)
    (hcandidates : Signature.Printed R cs ds) :
    Mirrors R (.ambiguous callee as cs) (.ambiguous callee bs ds)
  | noMatch (callee : String) {as bs : List Ty} {cs ds : List Text} (hargs : List.Forall₂ R as bs)
    (hcandidates : Signature.Printed R cs ds) :
    Mirrors R (.noMatch callee as cs) (.noMatch callee bs ds)
  | constraint (typeVar : String) {a b s t : Ty} (hlower : R a b) (hbound : R s t) :
    Mirrors R (.constraint typeVar a s) (.constraint typeVar b t)
  | underconstrained (typeVar : String) : Mirrors R (.underconstrained typeVar) (.underconstrained typeVar)
  | assignability (target : String) {a b s t : Ty} (hsource : R a b) (hdeclared : R s t) :
    Mirrors R (.assignability target a s) (.assignability target b t)
  | budget (nodes limit : Int) : Mirrors R (.budget nodes limit) (.budget nodes limit)

variable {R S : Ty → Ty → Prop}

theorem Signature.Printed.imp {cs ds : List Text} (h : Signature.Printed R cs ds)
    (hRS : ∀ s t, R s t → S s t) : Signature.Printed S cs ds := by
  obtain ⟨ps, qs, hpq, hcs, hds⟩ := h
  exact ⟨ps, qs, hpq.imp fun _ _ h => h.imp hRS, hcs, hds⟩

theorem Finding.Mirrors.imp {f g : Finding} (h : f.Mirrors R g) (hRS : ∀ s t, R s t → S s t) :
    f.Mirrors S g := by
  cases h with
  | nonExhaustive h => exact .nonExhaustive (hRS _ _ h)
  | ambiguous callee ha hc => exact .ambiguous callee (ha.imp hRS) (hc.imp hRS)
  | noMatch callee ha hc => exact .noMatch callee (ha.imp hRS) (hc.imp hRS)
  | constraint v hl hb => exact .constraint v (hRS _ _ hl) (hRS _ _ hb)
  | underconstrained v => exact .underconstrained v
  | assignability target hs hd => exact .assignability target (hRS _ _ hs) (hRS _ _ hd)
  | budget nodes limit => exact .budget nodes limit

theorem Ty.Mirroring.findings_rel (hR : Mirroring R) {x y : Solution} (h : x.Mirrors R y) :
    List.Forall₂ (Finding.Mirrors R) x.findings y.findings := by
  unfold Solution.findings
  refine List.rel_append ?_ ?_
  · rw [List.forall₂_map_left_iff, List.forall₂_map_right_iff]
    refine h.violations.imp fun c d hcd => ?_
    rw [hR.varName_eq hcd.param]
    exact .constraint _ hcd.lower hcd.bound
  · rw [List.forall₂_map_left_iff, List.forall₂_map_right_iff]
    refine h.underconstrained.imp fun s t hst => ?_
    rw [hR.varName_eq hst]
    exact .underconstrained _

/-! ## Functions -/

/-- The same parameter but for its type. -/
structure Param.Copies (R : Ty → Ty → Prop) (p q : Param Ty) : Prop where
  name : p.name = q.name
  type : R p.type q.type
  optional : p.optional = q.optional
  rest : p.rest = q.rest

/-- The same signature but for its types. -/
structure Signature.Copies (R : Ty → Ty → Prop) (p q : Signature) : Prop where
  typeParams : List.Forall₂ R p.typeParams q.typeParams
  params : List.Forall₂ (Param.Copies R) p.params q.params
  ret : R p.ret q.ret

/-- The same function but for the types of its signatures. -/
structure OverloadSet.Copies (R : Ty → Ty → Prop) (x y : OverloadSet) : Prop where
  name : x.name = y.name
  signatures : List.Forall₂ (Signature.Copies R) x.signatures y.signatures
  implementation : x.implementation.Copies R y.implementation

/-- A function of the same name whose signatures have related types, and with signatures beside its
implementation alike. -/
structure OverloadSet.Mirrors (R : Ty → Ty → Prop) (x y : OverloadSet) : Prop where
  name : x.name = y.name
  signatures : List.Forall₂ (Signature.Mirrors R) x.signatures y.signatures
  overloaded : x.overloaded = y.overloaded

theorem Param.Copies.mirrors {p q : Param Ty} (h : p.Copies R q) : p.Mirrors R q :=
  ⟨h.type, h.rest, fun _ => h.optional⟩

theorem Signature.Copies.mirrors {p q : Signature} (h : p.Copies R q) : p.Mirrors R q :=
  ⟨h.typeParams, h.params.imp fun _ _ h => h.mirrors, h.ret⟩

theorem Param.Copies.imp {p q : Param Ty} (h : p.Copies R q) (hRS : ∀ s t, R s t → S s t) :
    p.Copies S q :=
  ⟨h.name, hRS _ _ h.type, h.optional, h.rest⟩

theorem Signature.Copies.imp {p q : Signature} (h : p.Copies R q) (hRS : ∀ s t, R s t → S s t) :
    p.Copies S q :=
  ⟨h.typeParams.imp hRS, h.params.imp fun _ _ h => h.imp hRS, hRS _ _ h.ret⟩

theorem OverloadSet.Copies.imp {x y : OverloadSet} (h : x.Copies R y) (hRS : ∀ s t, R s t → S s t) :
    x.Copies S y :=
  ⟨h.name, h.signatures.imp fun _ _ h => h.imp hRS, h.implementation.imp hRS⟩

theorem OverloadSet.Mirrors.imp {x y : OverloadSet} (h : x.Mirrors R y) (hRS : ∀ s t, R s t → S s t) :
    x.Mirrors S y :=
  ⟨h.name, h.signatures.imp fun _ _ h => h.imp hRS, h.overloaded⟩

namespace Ty.Mirroring

/-- Whether two signatures are the same is decided by keys and by what copies share. -/
theorem signature_same_eq (hR : Mirroring R) {p q p' q' : Signature} (h : p.Copies R q)
    (h' : p'.Copies R q') : p.same p' = q.same q' := by
  have hparams {as bs as' bs' : List (Param Ty)} (has : List.Forall₂ (Param.Copies R) as bs)
      (has' : List.Forall₂ (Param.Copies R) as' bs') :
      ((as.zip as').all fun pq => pq.1.name == pq.2.name && pq.1.type.same pq.2.type &&
        pq.1.optional == pq.2.optional && pq.1.rest == pq.2.rest) =
      ((bs.zip bs').all fun pq => pq.1.name == pq.2.name && pq.1.type.same pq.2.type &&
        pq.1.optional == pq.2.optional && pq.1.rest == pq.2.rest) := by
    induction has generalizing as' bs' with
    | nil => rfl
    | cons hab _ ih =>
      cases has' with
      | nil => rfl
      | cons hab' htail =>
        simp only [List.zip_cons_cons, List.all_cons, hab.name, hab'.name, hab.optional, hab'.optional,
          hab.rest, hab'.rest, hR.same_eq hab.type hab'.type, ih htail]
  have hvars {vs us vs' us' : List Ty} (hvs : List.Forall₂ R vs us) (hvs' : List.Forall₂ R vs' us') :
      ((vs.zip vs').all fun st => st.1.same st.2) = ((us.zip us').all fun st => st.1.same st.2) := by
    induction hvs generalizing vs' us' with
    | nil => rfl
    | cons hst _ ih =>
      cases hvs' with
      | nil => rfl
      | cons hst' htail => simp only [List.zip_cons_cons, List.all_cons, hR.same_eq hst hst', ih htail]
  refine congrArg₂ (· && ·) (congrArg₂ (· && ·) ?_ (hparams h.params h'.params))
    (hvars h.typeParams h'.typeParams)
  rw [h.params.length_eq, h'.params.length_eq, h.typeParams.length_eq, h'.typeParams.length_eq,
    hR.same_eq h.ret h'.ret]

/-- Copies of a function are overloaded alike. -/
theorem mirrors_of_copies (hR : Mirroring R) {x y : OverloadSet} (h : x.Copies R y) : x.Mirrors R y where
  name := h.name
  signatures := h.signatures.imp fun _ _ h => h.mirrors
  overloaded := by
    have hsigs := h.signatures
    unfold OverloadSet.overloaded
    generalize x.signatures = ps, y.signatures = qs at hsigs
    cases hsigs with
    | nil => rfl
    | cons hpq htail =>
      cases htail with
      | nil => simp only [hR.signature_same_eq hpq h.implementation]
      | cons _ _ => rfl

end Ty.Mirroring

/-- A function of its own is not overloaded, whatever its parameters are called. -/
theorem OverloadSet.mirrors_single (name : String) {ps qs : List (Param Ty)} {r r' : Ty}
    (hps : List.Forall₂ (Param.Mirrors R) ps qs) (hr : R r r') :
    (OverloadSet.single name { params := ps, ret := r }).Mirrors R
      (OverloadSet.single name { params := qs, ret := r' }) where
  name := rfl
  signatures := .cons ⟨.nil, hps, hr⟩ .nil
  overloaded := by
    have hzip (ps : List (Param Ty)) : ((ps.zip ps).all fun pq => pq.1.name == pq.2.name &&
        pq.1.type.same pq.2.type && pq.1.optional == pq.2.optional && pq.1.rest == pq.2.rest) = true := by
      induction ps with
      | nil => rfl
      | cons p ps ih =>
        rw [List.zip_cons_cons, List.all_cons, ih]
        simp [same]
    have hself (p : Signature) (hp : p.typeParams = []) : p.same p = true := by
      unfold Signature.same
      rw [hp, Bool.and_eq_true, Bool.and_eq_true]
      exact ⟨⟨by simp [same], hzip p.params⟩, rfl⟩
    simp [OverloadSet.overloaded, OverloadSet.single, hself]

/-! ## Calls -/

/-- What comes of a call, with the same signature chosen and related types. -/
structure CallResult.Mirrors (R : Ty → Ty → Prop) (x y : CallResult) : Prop where
  callee : x.callee = y.callee
  args : List.Forall₂ R x.args y.args
  chosen : Option.Rel (fun c d => c.1 = d.1 ∧ c.2.Mirrors R d.2) x.chosen y.chosen
  ret : R x.ret y.ret
  findings : List.Forall₂ (Finding.Mirrors R) x.findings y.findings

theorem CallResult.Mirrors.imp {x y : CallResult} (h : x.Mirrors R y) (hRS : ∀ s t, R s t → S s t) :
    x.Mirrors S y where
  callee := h.callee
  args := h.args.imp hRS
  chosen := optionRel_imp h.chosen fun _ _ h => ⟨h.1, h.2.imp hRS⟩
  ret := hRS _ _ h.ret
  findings := h.findings.imp fun _ _ h => h.imp hRS

/-- Attempts with the same outcome. -/
inductive Attempt.Mirrors (R : Ty → Ty → Prop) : Attempt → Attempt → Prop where
  | fits {p q : Signature} {o o' : Option Solution} (h : p.Mirrors R q)
    (ho : Option.Rel (Solution.Mirrors R) o o') : Mirrors R (.fits p o) (.fits q o')
  | badArg (position : Nat) {s t : Ty} (h : R s t) : Mirrors R (.badArg position s) (.badArg position t)
  | badBounds {x y : Solution} (h : x.Mirrors R y) : Mirrors R (.badBounds x) (.badBounds y)
  | badCount : Mirrors R .badCount .badCount

theorem Attempt.Mirrors.imp {x y : Attempt} (h : x.Mirrors R y) (hRS : ∀ s t, R s t → S s t) :
    x.Mirrors S y := by
  cases h with
  | fits h ho => exact .fits (h.imp hRS) (optionRel_imp ho fun _ _ h => h.imp hRS)
  | badArg position h => exact .badArg position (hRS _ _ h)
  | badBounds h => exact .badBounds (h.imp hRS)
  | badCount => exact .badCount

namespace Twins

open OverloadSet

variable {w v : Twins} {p q : Signature} {as bs ts us : List Ty} {x y : OverloadSet}

theorem signatures_grow {ps qs : List Signature} (h : List.Forall₂ (Signature.Mirrors w.Alike) ps qs)
    (hwv : w.Grows v) : List.Forall₂ (Signature.Mirrors v.Alike) ps qs :=
  h.imp fun _ _ h => signature_grows h hwv

theorem agree_firstBadArg (hpq : p.Mirrors w.Alike q) (i : Nat) (has : List.Forall₂ w.Alike as bs) :
    w.Agree (firstBadArg p i as) (firstBadArg q i bs) fun v =>
      Option.Rel fun c d => c.1 = d.1 ∧ v.Alike c.2 d.2 := by
  induction as generalizing w i bs with
  | nil =>
    cases has
    exact .pure fun _ _ _ => .none
  | cons a as ih =>
    obtain ⟨b, bs, hab, htail, rfl⟩ := List.forall₂_cons_left_iff.1 has
    refine .of_sound fun v hv hwv => ?_
    replace hpq := signature_grows hpq hwv
    have hparam := hv.mirroring.paramType?_rel hpq i
    have hwanted : v.Alike ((p.paramType? i).getD .never) ((q.paramType? i).getD .never) := by
      generalize p.paramType? i = o, q.paramType? i = o' at hparam
      cases hparam with
      | none => exact hv.atom (by simp [atoms])
      | some h => exact h
    rw [firstBadArg, firstBadArg]
    refine (same_subtype (hab.grows hwv) hwanted).ite ?_ ?_
    · exact ih hpq (i + 1) (alike_grows htail hwv)
    · exact .pure fun _ _ hvu => .some ⟨rfl, hwanted.grows hvu⟩

theorem agree_attempt (hpq : p.Mirrors w.Alike q) (has : List.Forall₂ w.Alike as bs)
    (hts : List.Forall₂ w.Alike ts us) :
    w.Agree (attempt p as ts) (attempt q bs us) fun v => Attempt.Mirrors v.Alike := by
  have hempty : ts.isEmpty = us.isEmpty := by cases hts <;> rfl
  have hcount : w.Agree (pure .badCount) (pure .badCount) fun v => Attempt.Mirrors v.Alike :=
    .pure fun _ _ _ => .badCount
  unfold attempt
  rw [has.length_eq, hpq.accepts_eq, hempty, hts.length_eq, hpq.typeParams.length_eq, hpq.isGeneric_eq]
  split
  · exact hcount
  split
  · exact hcount
  split
  -- generic: the arguments are held against the instance, and the bounds are looked at last
  · refine (agree_solve hpq has hts).bind fun v _ _ _ hwv hsolved => ?_
    cases hsolved with
    | error _ _ => exact hcount.grows hwv
    | ok hxy =>
      refine (agree_firstBadArg hxy.signature 0 (alike_grows has hwv)).bind fun u _ _ _ hvu hbad => ?_
      replace hxy := hxy.imp fun _ _ h => Alike.grows h hvu
      cases hbad with
      | some hbad =>
        obtain ⟨hposition, hwanted⟩ := hbad
        dsimp only
        rw [hposition]
        exact .pure fun _ _ huu' => .badArg _ (hwanted.grows huu')
      | none =>
        dsimp only
        rw [hxy.ok_eq]
        refine .pure fun u' _ huu' => ?_
        replace hxy := hxy.imp fun _ _ h => Alike.grows h huu'
        split
        · exact .fits hxy.signature (.some hxy)
        · exact .badBounds hxy
  · refine (agree_firstBadArg hpq 0 has).bind fun v _ _ _ hwv hbad => ?_
    cases hbad with
    | some hbad =>
      obtain ⟨hposition, hwanted⟩ := hbad
      dsimp only
      rw [hposition]
      exact .pure fun _ _ hvu => .badArg _ (hwanted.grows hvu)
    | none => exact .pure fun _ _ hvu => .fits (signature_grows hpq (hwv.trans hvu)) .none

/-- What comes of trying one signature after the other. -/
inductive TriedAlike (w : Twins) : Except (List Attempt) (Nat × Signature × Option Solution) →
    Except (List Attempt) (Nat × Signature × Option Solution) → Prop where
  | ok (i : Nat) {p q : Signature} {o o' : Option Solution} (h : p.Mirrors w.Alike q)
    (ho : Option.Rel (Solution.Mirrors w.Alike) o o') : TriedAlike w (.ok (i, p, o)) (.ok (i, q, o'))
  | error {xs ys : List Attempt} (h : List.Forall₂ (Attempt.Mirrors w.Alike) xs ys) :
    TriedAlike w (.error xs) (.error ys)

theorem solution_grows {o o' : Option Solution} (h : Option.Rel (Solution.Mirrors w.Alike) o o')
    (hwv : w.Grows v) : Option.Rel (Solution.Mirrors v.Alike) o o' :=
  optionRel_imp h fun _ _ h => h.imp fun _ _ h => h.grows hwv

/-- What follows a refusal: the other signatures are tried, and if none fits it is kept beside theirs. -/
def tryOthers (as ts : List Ty) (i : Nat) (refusal : Attempt) (ps : List Signature) :
    InUniverse (Except (List Attempt) (Nat × Signature × Option Solution)) := do
  match ← tryAll as ts (i + 1) ps with
  | .ok found => return .ok found
  | .error rest => return .error (refusal :: rest)

theorem agree_tryOthers {ps qs : List Signature} {i : Nat} {c d : Attempt}
    (htry : w.Agree (tryAll as ts (i + 1) ps) (tryAll bs us (i + 1) qs) fun v => v.TriedAlike)
    (hcd : c.Mirrors w.Alike d) :
    w.Agree (tryOthers as ts i c ps) (tryOthers bs us i d qs) fun v => v.TriedAlike := by
  refine htry.bind fun v _ _ _ hwv htried => ?_
  cases htried with
  | ok j h ho => exact .pure fun _ _ h' => .ok j (signature_grows h h') (solution_grows ho h')
  | error h =>
    refine .pure fun u _ h' => .error (.cons ?_ ?_)
    · exact hcd.imp fun _ _ h => (h.grows hwv).grows h'
    · exact h.imp fun _ _ h => h.imp fun _ _ h => h.grows h'

theorem agree_tryAll (has : List.Forall₂ w.Alike as bs) (hts : List.Forall₂ w.Alike ts us) (i : Nat)
    {ps qs : List Signature} (hps : List.Forall₂ (Signature.Mirrors w.Alike) ps qs) :
    w.Agree (tryAll as ts i ps) (tryAll bs us i qs) fun v => v.TriedAlike := by
  induction ps generalizing w i qs with
  | nil =>
    cases hps
    exact .pure fun _ _ _ => .error .nil
  | cons p ps ih =>
    obtain ⟨q, qs, hpq, htail, rfl⟩ := List.forall₂_cons_left_iff.1 hps
    rw [tryAll, tryAll]
    refine (agree_attempt hpq has hts).bind fun v x y _ hwv hxy => ?_
    have htry := ih (alike_grows has hwv) (alike_grows hts hwv) (i + 1) (signatures_grow htail hwv)
    cases hxy with
    | fits h ho => exact .pure fun _ _ h' => .ok i (signature_grows h h') (solution_grows ho h')
    | badArg position h => exact agree_tryOthers htry (.badArg position h)
    | badBounds h => exact agree_tryOthers htry (.badBounds h)
    | badCount => exact agree_tryOthers htry .badCount

theorem same_firstFit (has : List.Forall₂ w.Alike as bs) (hts : List.Forall₂ w.Alike ts us) (i : Nat)
    {ps qs : List Signature} (hps : List.Forall₂ (Signature.Mirrors w.Alike) ps qs) :
    w.Same (firstFit as ts i ps) (firstFit bs us i qs) := by
  induction ps generalizing w i qs with
  | nil =>
    cases hps
    exact Same.pure w none
  | cons p ps ih =>
    obtain ⟨q, qs, hpq, htail, rfl⟩ := List.forall₂_cons_left_iff.1 hps
    rw [firstFit, firstFit]
    refine (agree_attempt hpq has hts).bind fun v _ _ _ hwv hxy => ?_
    cases hxy with
    | fits _ _ => exact Same.pure v (some i)
    | _ => exact ih (alike_grows has hwv) (alike_grows hts hwv) (i + 1) (signatures_grow htail hwv)

theorem same_fitsOf (hxy : x.Mirrors w.Alike y) {before before' after after' : List Ty}
    (hbefore : List.Forall₂ w.Alike before before') (hafter : List.Forall₂ w.Alike after after')
    (hts : List.Forall₂ w.Alike ts us) (has : List.Forall₂ w.Alike as bs) :
    w.Same (x.fitsOf before after ts as) (y.fitsOf before' after' us bs) := by
  induction as generalizing w bs with
  | nil =>
    cases has
    exact Same.pure w (some [])
  | cons a as ih =>
    obtain ⟨b, bs, hab, htail, rfl⟩ := List.forall₂_cons_left_iff.1 has
    rw [fitsOf, fitsOf]
    refine (same_firstFit (List.rel_append hbefore (.cons hab hafter)) hts 0 hxy.signatures).bind ?_
    intro v found _ hwv
    cases found with
    | none => exact Same.pure v none
    | some i =>
      have hrest := ih (hxy.imp fun _ _ h => h.grows hwv) (alike_grows hbefore hwv)
        (alike_grows hafter hwv) (alike_grows hts hwv) (alike_grows htail hwv)
      refine hrest.bind fun u rest _ _ => ?_
      cases rest with
      | none => exact Same.pure u none
      | some rest => exact Same.pure u (some (i :: rest))

/-- The signatures at some positions, in print. -/
theorem printed_positions {ps qs : List Signature} (h : List.Forall₂ (Signature.Mirrors R) ps qs)
    (found : List Nat) :
    Signature.Printed R
      ((ps.zipIdx.filter fun (_, i) => found.contains i).map fun (sig, _) => sig.render)
      ((qs.zipIdx.filter fun (_, i) => found.contains i).map fun (sig, _) => sig.render) := by
  have hzip (n : Nat) : List.Forall₂ (fun c d : Signature × Nat => c.1.Mirrors R d.1 ∧ c.2 = d.2)
      (ps.zipIdx n) (qs.zipIdx n) := by
    induction h generalizing n with
    | nil => exact .nil
    | cons hpq _ ih =>
      rw [List.zipIdx_cons, List.zipIdx_cons]
      exact .cons ⟨hpq, rfl⟩ (ih (n + 1))
  have hkept := forall₂_filter (p := fun c => found.contains c.2) (q := fun d => found.contains d.2)
    (fun c d hcd => by rw [hcd.2]) (hzip 0)
  refine ⟨(ps.zipIdx.filter fun c => found.contains c.2).map (·.1),
    (qs.zipIdx.filter fun d => found.contains d.2).map (·.1), ?_, ?_, ?_⟩
  · rw [List.forall₂_map_left_iff, List.forall₂_map_right_iff]
    exact hkept.imp fun _ _ h => h.1
  · rw [List.map_map]
    rfl
  · rw [List.map_map]
    rfl

theorem agree_spread (hxy : x.Mirrors w.Alike y) (hts : List.Forall₂ w.Alike ts us)
    {before before' : List Ty} (hbefore : List.Forall₂ w.Alike before before')
    (has : List.Forall₂ w.Alike as bs) :
    w.Agree (x.spread ts before as) (y.spread us before' bs) fun v =>
      Option.Rel (Signature.Printed v.Alike) := by
  induction as generalizing w before before' bs with
  | nil =>
    cases has
    exact .pure fun _ _ _ => .none
  | cons a as ih =>
    obtain ⟨b, bs, hab, htail, rfl⟩ := List.forall₂_cons_left_iff.1 has
    refine .of_sound fun v hv hwv => ?_
    have hmembers := hv.mirroring.members_rel (hab.grows hwv)
    have hnext {u : Twins} (hwu : w.Grows u) :
        u.Agree (x.spread ts (before ++ [a]) as) (y.spread us (before' ++ [b]) bs) fun v =>
          Option.Rel (Signature.Printed v.Alike) :=
      ih (hxy.imp fun _ _ h => h.grows hwu) (alike_grows hts hwu)
        (alike_grows (List.rel_append hbefore (.cons hab .nil)) hwu) (alike_grows htail hwu)
    rw [OverloadSet.spread, OverloadSet.spread, hmembers.length_eq]
    split
    · exact hnext hwv
    refine (same_fitsOf (hxy.imp fun _ _ h => h.grows hwv) (alike_grows hbefore hwv)
      (alike_grows htail hwv) (alike_grows hts hwv) hmembers).bind fun u found _ hvu => ?_
    cases found with
    | none => exact hnext (hwv.trans hvu)
    | some found =>
      dsimp only
      split
      · exact hnext (hwv.trans hvu)
      · refine .pure fun u' _ huu' => .some (printed_positions ?_ found)
        exact signatures_grow hxy.signatures ((hwv.trans hvu).trans huu')

theorem printed_rendered (hxy : x.Mirrors R y) : Signature.Printed R x.rendered y.rendered :=
  ⟨_, _, hxy.signatures, rfl, rfl⟩

theorem getD_alike (hw : w.Sound) (has : List.Forall₂ w.Alike as bs) (i : Nat) :
    w.Alike (as.getD i .never) (bs.getD i .never) := by
  induction has generalizing i with
  | nil => exact hw.atom (by simp [atoms])
  | cons hab _ ih =>
    cases i with
    | zero => exact hab
    | succ i => exact ih i

/-- Why a plain function refused a call. -/
theorem explain_rel (hw : w.Sound) (hxy : x.Mirrors w.Alike y) (has : List.Forall₂ w.Alike as bs)
    {c d : Attempt} (hcd : c.Mirrors w.Alike d) :
    List.Forall₂ (Finding.Mirrors w.Alike) (x.explain as c) (y.explain bs d) := by
  have hno : List.Forall₂ (Finding.Mirrors w.Alike) [.noMatch x.name as x.rendered]
      [.noMatch y.name bs y.rendered] := by
    rw [hxy.name]
    exact .cons (.noMatch _ has (printed_rendered hxy)) .nil
  cases hcd with
  | fits _ _ => exact hno
  | badCount => exact hno
  | badBounds h => exact hw.mirroring.findings_rel h
  | badArg position hst =>
    unfold explain
    rw [hxy.name]
    exact .cons (.assignability _ (getD_alike hw has position) hst) .nil

/-- The answer to a call that no signature takes. -/
def refused (x : OverloadSet) (as : List Ty) (findings : List Finding) : CallResult :=
  { callee := x.name, args := as, chosen := none, ret := .unknown, findings }

theorem refused_rel (hw : w.Sound) (hxy : x.Mirrors w.Alike y) (has : List.Forall₂ w.Alike as bs)
    {fs gs : List Finding} (hfs : List.Forall₂ (Finding.Mirrors w.Alike) fs gs) :
    CallResult.Mirrors w.Alike (refused x as fs) (refused y bs gs) :=
  ⟨hxy.name, has, .none, hw.atom (a := .unknown) (by simp [atoms]), hfs⟩

/-- What follows when no signature took the arguments whole: their union members are tried one by one. -/
def resolveSpread (x : OverloadSet) (as ts : List Ty) : InUniverse CallResult := do
  match ← x.spread ts [] as with
  | some candidates => return refused x as [.ambiguous x.name as candidates]
  | none => return refused x as [.noMatch x.name as x.rendered]

theorem agree_resolveSpread (hxy : x.Mirrors w.Alike y) (has : List.Forall₂ w.Alike as bs)
    (hts : List.Forall₂ w.Alike ts us) :
    w.Agree (resolveSpread x as ts) (resolveSpread y bs us) fun v => CallResult.Mirrors v.Alike := by
  refine (agree_spread hxy hts .nil has).bind fun v _ _ _ hwv hfound => ?_
  cases hfound with
  | none =>
    refine .pure fun u hu hvu => ?_
    replace has := alike_grows has (hwv.trans hvu)
    replace hxy := hxy.imp fun _ _ h => Alike.grows h (hwv.trans hvu)
    refine refused_rel hu hxy has ?_
    rw [hxy.name]
    exact .cons (.noMatch _ has (printed_rendered hxy)) .nil
  | some hfound =>
    refine .pure fun u hu hvu => ?_
    replace has := alike_grows has (hwv.trans hvu)
    replace hxy := hxy.imp fun _ _ h => Alike.grows h (hwv.trans hvu)
    refine refused_rel hu hxy has ?_
    rw [hxy.name]
    exact .cons (.ambiguous _ has (hfound.imp fun _ _ h => h.grows hvu)) .nil

/-- **Calls of alike functions with alike arguments are resolved alike.** -/
theorem agree_resolve (hxy : x.Mirrors w.Alike y) (has : List.Forall₂ w.Alike as bs)
    (hts : List.Forall₂ w.Alike ts us) :
    w.Agree (x.resolve as ts) (y.resolve bs us) fun v => CallResult.Mirrors v.Alike := by
  unfold resolve
  refine (agree_tryAll has hts 0 hxy.signatures).bind fun v _ _ hv hwv htried => ?_
  replace has := alike_grows has hwv
  replace hts := alike_grows hts hwv
  replace hxy := hxy.imp fun _ _ h => Alike.grows h hwv
  cases htried with
  | @ok i p q o o' hpq ho =>
    refine .pure fun u hu hvu => ⟨hxy.name, alike_grows has hvu, .some ⟨rfl, ?_⟩, hpq.ret.grows hvu, ?_⟩
    · exact signature_grows hpq hvu
    · have ho := solution_grows ho hvu
      cases ho with
      | none => exact .nil
      | some h => exact hu.mirroring.findings_rel h
  | @error xs ys hattempts =>
    dsimp only
    rw [hxy.overloaded]
    cases y.overloaded with
    | true => exact agree_resolveSpread hxy has hts
    | false =>
      cases hattempts with
      | nil => exact agree_resolveSpread hxy has hts
      | cons hcd _ =>
        refine .pure fun u hu hvu => ?_
        replace has := alike_grows has hvu
        replace hxy := hxy.imp fun _ _ h => Alike.grows h hvu
        exact refused_rel hu hxy has (explain_rel hu hxy has (hcd.imp fun _ _ h => h.grows hvu))

end Twins
end FlowTyping
