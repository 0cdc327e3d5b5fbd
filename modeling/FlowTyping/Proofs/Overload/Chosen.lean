import FlowTyping.Proofs.Overload.Covered
import FlowTyping.Proofs.Signature.Solved

/-!
# The signature that a call takes

A call tries the signatures one after the other and takes the first that fits. Whether one fits is decided by
functions that look at the parameter list on their own: the number of arguments, inference, the bounds, and each
argument at its position.

* **`Universe.Takes`** — a signature takes a call: its type parameters are bound within their bounds, and every
  argument is below the parameter type at its position in the instance.
* **`Universe.Sound.attempt_fits_iff`** — a signature fits if it takes the call and the number of arguments.
* **`Universe.History.resolve_chosen`** — the chosen signature takes the call and fills its required parameters
  if these come first, and none before it does both.
* **`Universe.number_missing`** — a call that leaves out a required number.
-/

namespace FlowTyping

open Ty Signature OverloadSet

namespace Universe

variable {h : Hierarchy} {u v : Universe} {sig inst : Signature} {sigs : List Signature} {subst : Subst}
  {args explicit : List Ty} {ps qs : List (Param Ty)} {i j n : Nat} {t : Ty}

/-! ## One signature -/

/-- What a call binds the type parameters of a signature to, and the instance that it gets. A signature without
type parameters takes no type arguments and is its own instance. -/
inductive Binds (u : Universe) (sig : Signature) (args explicit : List Ty) : Subst → Signature → Prop where
  | plain (hplain : sig.typeParams = []) (hnone : explicit = []) : Binds u sig args explicit [] sig
  | generic {sol : Solution} (hgeneric : sig.typeParams ≠ [])
    (hsolve : ((sig.solve args explicit : InUniverse _).run u).1 = .ok sol) :
    Binds u sig args explicit sol.subst sol.signature

/-- A signature takes a call, with these bindings and as this instance. -/
structure Takes (u : Universe) (sig : Signature) (args explicit : List Ty) (subst : Subst) (inst : Signature) :
    Prop where
  binds : u.Binds sig args explicit subst inst
  within : subst.Within u.classes sig.typeParams
  arg : ∀ (i : Nat) (a : Ty), args[i]? = some a →
    ∃ wanted, inst.paramType? i = some wanted ∧ u.classes.subtype a wanted = true

/-- The result of a generic signature is that of its declaration with the bindings put in. -/
def ResultOf (h : Hierarchy) (sig : Signature) (subst : Subst) (t : Ty) : Prop :=
  (sig.typeParams = [] ∧ t = sig.ret) ∨ t.key = (h.replaced subst sig.ret).key

theorem Sound.keeps_typeAt (hu : u.Sound h) (hps : ∀ p ∈ ps, u.Keeps p.type) (ht : typeAt ps i = some t) :
    u.Keeps t := by
  refine hu.keeps_paramType? (fun s hs => ?_)
    (show ({ params := ps, ret := .never } : Signature).paramType? i = some t from ht)
  rcases List.mem_append.1 hs with hs | hs
  · obtain ⟨p, hp, rfl⟩ := List.mem_map.1 (by simpa using hs)
    exact hps p hp
  · exact List.mem_singleton.1 hs ▸ hu.atom (by simp [atoms])

/-- The arguments are looked at one by one. -/
theorem yields_firstBadArg (hparams : ∀ p ∈ inst.params, u.Keeps p.type) (ha : ∀ a ∈ args, u.Keeps a) :
    u.Yields h (firstBadArg inst i args) fun _ bad => bad = none ↔ ∀ (k : Nat) (a : Ty), args[k]? = some a →
      h.subtype a ((inst.paramType? (i + k)).getD .never) = true := by
  induction args generalizing u i with
  | nil => exact .pure fun _ _ _ => by simp
  | cons a args ih =>
    refine .of_sound fun v hv huv => ?_
    have hwanted : v.Keeps ((inst.paramType? i).getD .never) := by
      cases hget : inst.paramType? i with
      | none => exact hv.atom (by simp [atoms])
      | some wanted => exact hv.keeps_typeAt (fun p hp => huv.keeps (hparams p hp)) hget
    have hsplit : (∀ (k : Nat) (b : Ty), (a :: args)[k]? = some b →
        h.subtype b ((inst.paramType? (i + k)).getD .never) = true) ↔
        h.subtype a ((inst.paramType? i).getD .never) = true ∧ ∀ (k : Nat) (b : Ty), args[k]? = some b →
          h.subtype b ((inst.paramType? (i + 1 + k)).getD .never) = true := by
      constructor
      · refine fun hall => ⟨hall 0 a rfl, fun k b hb => ?_⟩
        have hnext := hall (k + 1) b hb
        rwa [Nat.add_comm k, ← Nat.add_assoc] at hnext
      · rintro ⟨hfirst, hrest⟩ (_ | k) b hb
        · cases hb
          exact hfirst
        · have hnext := hrest k b hb
          rwa [Nat.add_assoc, Nat.add_comm 1] at hnext
    rw [firstBadArg]
    refine (says_subtype (hv.stands (huv.keeps (ha a (by simp)))) (hv.stands hwanted)).ite ?_ ?_
    · intro hyes
      refine (ih (fun p hp => huv.keeps (hparams p hp)) fun b hb => huv.keeps (ha b (by simp [hb]))).imp ?_
      intro _ _ _ _ hiff
      rw [hiff, hsplit, and_iff_right hyes]
    · exact fun hno => .pure fun _ _ _ => by simp [hsplit, hno]

/-- Instances take the numbers of arguments that the signature takes. -/
theorem arityOf_replaced (hps : List.Forall₂ (u.ReplacedParam h subst) qs ps) : arityOf qs = arityOf ps := by
  induction hps with
  | nil => rfl
  | cons hp _ ih => rw [arityOf, arityOf, ih, hp.rest, hp.optional]

/-- Where a type is wanted for each argument, the arguments fit exactly if they are below it. -/
theorem fit_iff (harity : inst.arity = sig.arity) (hn : sig.accepts args.length = true) :
    (∀ (k : Nat) (a : Ty), args[k]? = some a → h.subtype a ((inst.paramType? (0 + k)).getD .never) = true) ↔
      ∀ (k : Nat) (a : Ty), args[k]? = some a →
        ∃ wanted, inst.paramType? k = some wanted ∧ h.subtype a wanted = true := by
  refine forall₃_congr fun k a hk => ?_
  have haccepts : inst.accepts args.length = true := by
    rw [accepts, harity]
    exact hn
  obtain ⟨wanted, hwanted⟩ :=
    Option.isSome_iff_exists.1 (isSome_paramType? haccepts (List.getElem?_eq_some_iff.1 hk).1)
  simp [hwanted]

variable (hu : u.Sound u.classes) (hproper : u.classes.Proper)

include hu hproper in
/-- Trying a signature leaves the universe sound. -/
theorem Sound.attempt_sound (hs : ∀ t ∈ sig.types, u.Keeps t) (ha : ∀ a ∈ args, u.Keeps a)
    (he : ∀ t ∈ explicit, u.Keeps t) :
    ((attempt sig args explicit : InUniverse _).run u).2.Sound u.classes ∧
      u.Grows u.classes ((attempt sig args explicit : InUniverse _).run u).2 := by
  have hrun := Yields.of_agree hu hproper
    (Twins.agree_attempt (signature_alike_self hs) (alike_self ha) (alike_self he)) u hu (.refl _ u)
  exact ⟨hrun.1, hrun.2.1⟩

/-- A signature without type parameters that takes that many arguments fits if they do. -/
theorem fits_plain_iff (hplain : sig.typeParams = []) (hnone : explicit = []) (hn : sig.accepts args.length = true)
    {bad : Option (Nat × Ty)} {w : Universe}
    (hrun : (firstBadArg sig 0 args : InUniverse _).run u = (bad, w))
    (hbad : bad = none ↔ ∀ (k : Nat) (a : Ty), args[k]? = some a →
      ∃ wanted, sig.paramType? k = some wanted ∧ u.classes.subtype a wanted = true) :
    (∃ sol, ((attempt sig args explicit : InUniverse _).run u).1 = .fits inst sol) ↔
      ∃ subst, u.Takes sig args explicit subst inst := by
  rw [attempt, if_neg (by simpa using hn), if_neg (by simp [hnone]), if_neg (by simp [isGeneric, hplain]),
    StateT.run_bind, hrun]
  cases bad with
  | some bad =>
    refine iff_of_false (by rintro ⟨_, hfits⟩; cases hfits) ?_
    rintro ⟨subst, htakes⟩
    cases htakes.binds with
    | plain _ _ => exact absurd (hbad.2 htakes.arg) (by simp)
    | generic hgeneric _ => exact hgeneric hplain
  | none =>
    constructor
    · rintro ⟨sol, hfits⟩
      cases hfits
      exact ⟨[], .plain hplain hnone, by simp [Subst.Within, hplain], hbad.1 rfl⟩
    · rintro ⟨subst, htakes⟩
      cases htakes.binds with
      | plain _ _ => exact ⟨none, rfl⟩
      | generic hgeneric _ => exact absurd hplain hgeneric

/-- A signature with type parameters that takes that many arguments fits if its solution does. -/
theorem fits_generic_iff (hgeneric : sig.typeParams ≠ []) (hn : sig.accepts args.length = true)
    (hcount : (!explicit.isEmpty && explicit.length != sig.typeParams.length) = false) {sol : Solution}
    {v w : Universe} (hsolve : (sig.solve args explicit : InUniverse _).run u = (.ok sol, v))
    (hok : sol.ok = true ↔ sol.subst.Within u.classes sig.typeParams) {bad : Option (Nat × Ty)}
    (hrun : (firstBadArg sol.signature 0 args : InUniverse _).run v = (bad, w))
    (hbad : bad = none ↔ ∀ (k : Nat) (a : Ty), args[k]? = some a →
      ∃ wanted, sol.signature.paramType? k = some wanted ∧ u.classes.subtype a wanted = true) :
    (∃ o, ((attempt sig args explicit : InUniverse _).run u).1 = .fits inst o) ↔
      ∃ subst, u.Takes sig args explicit subst inst := by
  -- the signature is bound in one way only
  have hbinds {subst : Subst} (hb : u.Binds sig args explicit subst inst) :
      subst = sol.subst ∧ inst = sol.signature := by
    cases hb with
    | plain hnone _ => exact absurd hnone hgeneric
    | generic _ hsolve' =>
      rw [hsolve] at hsolve'
      cases hsolve'
      exact ⟨rfl, rfl⟩
  rw [attempt, if_neg (by simpa using hn), if_neg (by simp [hcount]), if_pos (by simpa [isGeneric] using hgeneric),
    StateT.run_bind, hsolve]
  show (∃ o, (StateT.run (firstBadArg sol.signature 0 args >>= fun bad => _ : InUniverse Attempt) v).1 = _) ↔ _
  rw [StateT.run_bind, hrun]
  cases bad with
  | some bad =>
    refine iff_of_false (by rintro ⟨_, hfits⟩; cases hfits) ?_
    rintro ⟨subst, htakes⟩
    obtain ⟨-, rfl⟩ := hbinds htakes.binds
    exact absurd (hbad.2 htakes.arg) (by simp)
  | none =>
    show (∃ o, (if sol.ok = true then Attempt.fits sol.signature (some sol) else .badBounds sol) = _) ↔ _
    constructor
    · rintro ⟨o, hfits⟩
      split at hfits
      · rename_i hyes
        cases hfits
        exact ⟨sol.subst, .generic hgeneric (by rw [hsolve]), hok.1 hyes, hbad.1 rfl⟩
      · cases hfits
    · rintro ⟨subst, htakes⟩
      obtain ⟨rfl, rfl⟩ := hbinds htakes.binds
      exact ⟨some sol, if_pos (hok.2 htakes.within)⟩

include hu hproper in
/-- **When a signature fits**: if it takes that many arguments, and the call. -/
theorem Sound.attempt_fits_iff (hs : ∀ t ∈ sig.types, u.Keeps t) (ha : ∀ a ∈ args, u.Keeps a)
    (he : ∀ t ∈ explicit, u.Keeps t) :
    (∃ sol, ((attempt sig args explicit : InUniverse _).run u).1 = .fits inst sol) ↔
      sig.accepts args.length = true ∧ ∃ subst, u.Takes sig args explicit subst inst := by
  by_cases hn : sig.accepts args.length = true
  swap
  · rw [attempt, if_pos (by simpa using hn)]
    simp [hn]
  rw [and_iff_right hn]
  -- type arguments of the wrong number fit no signature
  by_cases hcount : (!explicit.isEmpty && explicit.length != sig.typeParams.length) = true
  · rw [attempt, if_neg (by simpa using hn), if_pos hcount]
    refine iff_of_false (by simp) ?_
    rintro ⟨_, htakes⟩
    cases htakes.binds with
    | plain hplain hnone => simp [hnone] at hcount
    | generic _ hsolve =>
      rw [solve, if_pos hcount] at hsolve
      simp at hsolve
  -- a plain signature takes the arguments as it stands, a generic one is solved first
  by_cases hplain : sig.typeParams = []
  · have hparams (p) (hp : p ∈ sig.params) : u.Keeps p.type :=
      hs _ (by simp [Signature.types, List.mem_map_of_mem hp])
    have hbad := (yields_firstBadArg (i := 0) hparams ha u hu (.refl _ u)).2.2
    exact fits_plain_iff hplain (by simpa [hplain] using hcount) hn rfl (hbad.trans (fit_iff rfl hn))
  · obtain ⟨hv, huv, hsolved⟩ := yields_solve_spec hu hproper hplain hs ha he u hu (.refl _ u)
    rcases hsolve : (sig.solve args explicit : InUniverse _).run u with ⟨_ | sol, v⟩
    · rw [attempt, if_neg (by simpa using hn), if_neg hcount, if_pos (by simpa [isGeneric] using hplain),
        StateT.run_bind, hsolve]
      refine iff_of_false (by rintro ⟨_, hfits⟩; cases hfits) ?_
      rintro ⟨_, htakes⟩
      cases htakes.binds with
      | plain hnone _ => exact hplain hnone
      | generic _ hsolve' =>
        rw [hsolve] at hsolve'
        cases hsolve'
    · rw [hsolve] at hv huv hsolved
      have hsol := hsolved sol rfl
      have hparams (p) (hp : p ∈ sol.signature.params) : v.Keeps p.type := by
        obtain ⟨q, -, hpq⟩ := exists_mem_right hsol.inst.params hp
        exact hv.keeps_of_stands hpq.type
      have hbad := (yields_firstBadArg (i := 0) hparams (fun a hmem => huv.keeps (ha a hmem)) v hv
        (.refl _ v)).2.2
      exact fits_generic_iff hplain hn (by simpa using hcount) hsolve hsol.ok_iff rfl
        (hbad.trans (fit_iff (arityOf_replaced hsol.inst.params) hn))

/-- The result of an instance is that of the declaration with the bindings put in. -/
theorem Sound.resultOf_of_takes (hu : u.Sound u.classes) (hproper : u.classes.Proper)
    (hs : ∀ t ∈ sig.types, u.Keeps t) (ha : ∀ a ∈ args, u.Keeps a) (he : ∀ t ∈ explicit, u.Keeps t)
    (htakes : u.Takes sig args explicit subst inst) : ResultOf u.classes sig subst inst.ret := by
  cases htakes.binds with
  | plain hplain _ => exact .inl ⟨hplain, rfl⟩
  | @generic sol hgeneric hsolve =>
    obtain ⟨hv, -, hsolved⟩ := yields_solve_spec hu hproper hgeneric hs ha he u hu (.refl _ u)
    exact .inr (hv.key_eq (hsolved sol hsolve).inst.ret.lookup?)

/-- A signature that takes a call and whose required parameters are filled takes the number of arguments. -/
theorem Sound.accepts_of_takes (hu : u.Sound u.classes) (hproper : u.classes.Proper)
    (hs : ∀ t ∈ sig.types, u.Keeps t) (hlast : RestLast sig.params) (ha : ∀ a ∈ args, u.Keeps a)
    (he : ∀ t ∈ explicit, u.Keeps t) (htakes : u.Takes sig args explicit subst inst)
    (hfills : Fills sig.params args.length) : sig.accepts args.length = true := by
  have harity : inst.arity = sig.arity := by
    cases htakes.binds with
    | plain _ _ => rfl
    | @generic sol hgeneric hsolve =>
      obtain ⟨-, -, hsolved⟩ := yields_solve_spec hu hproper hgeneric hs ha he u hu (.refl _ u)
      exact arityOf_replaced (hsolved sol hsolve).inst.params
  refine accepts_iff.2 ⟨hfills.arityOf_le hlast, fun limit hlimit => ?_⟩
  rcases Nat.eq_zero_or_pos args.length with hnone | hpos
  · omega
  · obtain ⟨a, hlastArg⟩ : ∃ a, args[args.length - 1]? = some a :=
      ⟨_, List.getElem?_eq_getElem (Nat.sub_lt hpos Nat.one_pos)⟩
    obtain ⟨wanted, hwanted, -⟩ := htakes.arg _ a hlastArg
    rw [← show arityOf inst.params = sig.arity from harity] at hlimit
    have := isSome_typeAt_iff.1 (Option.isSome_iff_exists.2 ⟨wanted, hwanted⟩) limit hlimit
    omega

/-! ## One after the other -/

/-- The universe after some signatures were tried on a call. -/
def trying (u : Universe) (args explicit : List Ty) (sigs : List Signature) : Universe :=
  sigs.foldl (fun v sig => ((attempt sig args explicit : InUniverse _).run v).2) u

/-- What trying the signature at a position comes to, after those before it. -/
def attemptAt (u : Universe) (args explicit : List Ty) (sigs : List Signature) (i : Nat) (sig : Signature) : Attempt :=
  ((attempt sig args explicit : InUniverse _).run (u.trying args explicit (sigs.take i))).1

/-- A signature that does not fit is passed over. -/
theorem run_tryAll_cons_iff {k : Nat} {o : Option Solution} {first : Attempt}
    (hrun : (attempt sig args explicit : InUniverse _).run u = (first, v))
    (hno : ¬ ∃ inst' o', first = .fits inst' o') :
    ((tryAll args explicit n (sig :: sigs) : InUniverse _).run u).1 = .ok (k, inst, o) ↔
      ((tryAll args explicit (n + 1) sigs : InUniverse _).run v).1 = .ok (k, inst, o) := by
  rw [tryAll, StateT.run_bind, hrun]
  cases first with
  | fits inst' o' => exact absurd ⟨inst', o', rfl⟩ hno
  | _ =>
    show (StateT.run (tryAll args explicit (n + 1) sigs >>= fun found => _ : InUniverse _) v).1 = _ ↔ _
    rw [StateT.run_bind]
    rcases (tryAll args explicit (n + 1) sigs : InUniverse _).run v with ⟨_ | found, w⟩
    · exact iff_of_false (by rintro ⟨⟩) (by rintro ⟨⟩)
    · rfl

/-- The first signature that fits is found, wherever the count begins. -/
theorem run_tryAll_iff {k : Nat} {o : Option Solution} :
    ((tryAll args explicit n sigs : InUniverse _).run u).1 = .ok (k, inst, o) ↔ ∃ i sig, k = n + i ∧
      sigs[i]? = some sig ∧ u.attemptAt args explicit sigs i sig = .fits inst o ∧
        ∀ j < i, ∀ sig', sigs[j]? = some sig' → ∀ inst' o', u.attemptAt args explicit sigs j sig' ≠ .fits inst' o' := by
  induction sigs generalizing u n with
  | nil => simp [tryAll]
  | cons sig sigs ih =>
    rcases hrun : (attempt sig args explicit : InUniverse _).run u with ⟨first, v⟩
    have hfirst : u.attemptAt args explicit (sig :: sigs) 0 sig = first := congrArg Prod.fst hrun
    -- later signatures are tried in the universe that the first attempt leaves behind
    have hlater (i : Nat) (sig' : Signature) :
        u.attemptAt args explicit (sig :: sigs) (i + 1) sig' = v.attemptAt args explicit sigs i sig' := by
      simp [attemptAt, trying, hrun]
    by_cases hfits : ∃ inst' o', first = .fits inst' o'
    · obtain ⟨inst', o', rfl⟩ := hfits
      rw [tryAll, StateT.run_bind, hrun]
      show (Except.ok (n, inst', o') : Except (List Attempt) _) = _ ↔ _
      constructor
      · intro heq
        cases heq
        exact ⟨0, sig, rfl, rfl, hfirst, by simp⟩
      · rintro ⟨_ | i, sig', rfl, hsig, hat, hbefore⟩
        · cases hsig
          rw [hfirst] at hat
          cases hat
          rfl
        · exact absurd hfirst (hbefore 0 (Nat.succ_pos i) sig rfl inst' o')
    · rw [run_tryAll_cons_iff hrun hfits, ih]
      constructor
      · rintro ⟨i, sig', rfl, hsig, hat, hbefore⟩
        refine ⟨i + 1, sig', by omega, hsig, (hlater i sig').trans hat, ?_⟩
        rintro (_ | j) hj sig'' hsig'' inst' o' hfits'
        · cases hsig''
          exact hfits ⟨inst', o', hfirst.symm.trans hfits'⟩
        · exact hbefore j (Nat.lt_of_succ_lt_succ hj) sig'' hsig'' inst' o' ((hlater j sig'').symm.trans hfits')
      · rintro ⟨_ | i, sig', rfl, hsig, hat, hbefore⟩
        · cases hsig
          exact absurd ⟨inst, o, hfirst.symm.trans hat⟩ hfits
        · refine ⟨i, sig', by omega, hsig, (hlater i sig').symm.trans hat, fun j hj sig'' hsig'' inst' o' hfits' => ?_⟩
          exact hbefore (j + 1) (Nat.succ_lt_succ hj) sig'' hsig'' inst' o' ((hlater j sig'').trans hfits')

/-- A call that is resolved takes the first signature that fits. -/
theorem chosen_of_resolve {s : OverloadSet} {r : CallResult} (hr : ((s.resolve args explicit : InUniverse _).run u).1 = r)
    (hchosen : r.chosen = some (i, inst)) :
    r.ret = inst.ret ∧ ∃ sig o, s.signatures[i]? = some sig ∧ u.attemptAt args explicit s.signatures i sig = .fits inst o ∧
      ∀ j < i, ∀ sig', s.signatures[j]? = some sig' →
        ∀ inst' o', u.attemptAt args explicit s.signatures j sig' ≠ .fits inst' o' := by
  unfold resolve at hr
  rw [StateT.run_bind] at hr
  rcases hrun : (tryAll args explicit 0 s.signatures : InUniverse _).run u with ⟨attempts | ⟨k, inst', o⟩, v⟩
  · -- a refused call has no signature, whatever is found out about the reason
    have hspread {f : Option (List Text) → InUniverse CallResult} (hf : ∀ o w, ((f o).run w).1.chosen = none) :
        ((spread s explicit [] args >>= f).run v).1.chosen = none := hf _ _
    have hnone : r.chosen = none := by
      rw [← hr, hrun]
      cases s.overloaded with
      | true => exact hspread (by rintro (_ | candidates) w <;> rfl)
      | false =>
        cases attempts with
        | nil => exact hspread (by rintro (_ | candidates) w <;> rfl)
        | cons first rest => rfl
    exact absurd (hnone.symm.trans hchosen) (by simp)
  · rw [hrun] at hr
    have hr : CallResult.mk s.name args (some (k, inst')) inst'.ret ((o.map Solution.findings).getD []) = r := hr
    subst hr
    cases hchosen
    obtain ⟨i', sig, hi, hsig, hat, hbefore⟩ := run_tryAll_iff.1 (congrArg Prod.fst hrun)
    obtain rfl : i = i' := by omega
    exact ⟨rfl, sig, o, hsig, hat, hbefore⟩

include hu hproper in
theorem Sound.trying_sound (hs : ∀ sig ∈ sigs, ∀ t ∈ sig.types, u.Keeps t) (ha : ∀ a ∈ args, u.Keeps a)
    (he : ∀ t ∈ explicit, u.Keeps t) :
    (u.trying args explicit sigs).Sound u.classes ∧ u.Grows u.classes (u.trying args explicit sigs) := by
  induction sigs generalizing u with
  | nil => exact ⟨hu, .refl _ u⟩
  | cons sig sigs ih =>
    obtain ⟨hv, huv⟩ := hu.attempt_sound hproper (hs sig (by simp)) ha he
    have hclasses := hv.classes_eq
    have hrest := ih (hclasses.symm ▸ hv) (hclasses.symm ▸ hproper)
      (fun sig hsig t ht => huv.keeps (hs sig (by simp [hsig]) t ht)) (fun a hmem => huv.keeps (ha a hmem))
      fun t ht => huv.keeps (he t ht)
    rw [hclasses] at hrest
    exact ⟨hrest.1, huv.trans hrest.2⟩

/-- **What a resolved call has taken**: arguments are below the parameter types at their positions, bindings are
within their bounds, the type of the call is the instance's result, and required parameters are filled if they
come first. No signature before it does all that. -/
theorem History.resolve_chosen (hu : u.History) {s : OverloadSet}
    (hs : ∀ sig ∈ s.signatures, (∀ t ∈ sig.types, u.Keeps t) ∧ RestLast sig.params)
    (ha : ∀ a ∈ args, u.Keeps a) (he : ∀ t ∈ explicit, u.Keeps t) {r : CallResult}
    (hr : ((s.resolve args explicit : InUniverse _).run u).1 = r) (hchosen : r.chosen = some (i, inst)) :
    ∃ sig subst, s.signatures[i]? = some sig ∧
      (RequiredFirst sig.params → Fills sig.params args.length) ∧
      (u.trying args explicit (s.signatures.take i)).Takes sig args explicit subst inst ∧
      r.ret = inst.ret ∧ ResultOf u.classes sig subst inst.ret ∧
      ∀ j < i, ∀ sig', s.signatures[j]? = some sig' → Fills sig'.params args.length → ∀ subst' inst',
        ¬ (u.trying args explicit (s.signatures.take j)).Takes sig' args explicit subst' inst' := by
  obtain ⟨hsound, hproper⟩ := hu.sound
  have htrying (j : Nat) {w : Universe} (hw : u.trying args explicit (s.signatures.take j) = w) :
      w.Sound w.classes ∧ w.classes.Proper ∧ w.classes = u.classes ∧ ∀ t, u.Keeps t → w.Keeps t := by
    obtain ⟨hv, huv⟩ := hsound.trying_sound hproper
      (fun sig hsig => (hs sig (List.mem_of_mem_take hsig)).1) ha he
    rw [hw] at hv huv
    rw [hv.classes_eq]
    exact ⟨hv, hproper, rfl, fun t ht => huv.keeps ht⟩
  have hfits {j : Nat} {sig inst : Signature} (hsig : s.signatures[j]? = some sig) :
      (∃ o, u.attemptAt args explicit s.signatures j sig = .fits inst o) ↔ sig.accepts args.length = true ∧
        ∃ subst, (u.trying args explicit (s.signatures.take j)).Takes sig args explicit subst inst := by
    obtain ⟨hw, hwproper, -, hkept⟩ := htrying j rfl
    exact hw.attempt_fits_iff hwproper (fun t ht => hkept t ((hs sig (List.mem_of_getElem? hsig)).1 t ht))
      (fun a hmem => hkept a (ha a hmem)) fun t ht => hkept t (he t ht)
  obtain ⟨hret, sig, o, hsig, hat, hbefore⟩ := chosen_of_resolve hr hchosen
  have hmem := hs sig (List.mem_of_getElem? hsig)
  obtain ⟨hn, subst, htakes⟩ := (hfits hsig).1 ⟨o, hat⟩
  refine ⟨sig, subst, hsig, fun hfirst => (accepts_fills_iff hmem.2).2 hfirst _ hn, htakes, hret, ?_, ?_⟩
  · obtain ⟨hw, hwproper, hclasses, hkept⟩ := htrying i rfl
    rw [← hclasses]
    exact hw.resultOf_of_takes hwproper (fun t ht => hkept t (hmem.1 t ht)) (fun a hmem => hkept a (ha a hmem))
      (fun t ht => hkept t (he t ht)) htakes
  · intro j hj sig' hsig' hfills subst' inst' htakes'
    obtain ⟨hw, hwproper, -, hkept⟩ := htrying j rfl
    have hmem' := hs sig' (List.mem_of_getElem? hsig')
    have hn' := hw.accepts_of_takes hwproper (fun t ht => hkept t (hmem'.1 t ht)) hmem'.2
      (fun a hmem => hkept a (ha a hmem)) (fun t ht => hkept t (he t ht)) htakes' hfills
    obtain ⟨o', hat'⟩ := (hfits hsig').2 ⟨hn', subst', htakes'⟩
    exact hbefore j hj sig' hsig' inst' o' hat'

/-! ## A required parameter after an optional one -/

/-- Nothing is wanted. -/
def nothing : Signature where
  params := []
  ret := .undefined

/-- One string is wanted. -/
def wantsText : Signature where
  params := oneText
  ret := .undefined

/-- A string that may be left out, then a number that may not. -/
def maybeThenNumber : Signature where
  params := [{ name := "a", type := .string, optional := true }, { name := "b", type := .number }]
  ret := .undefined

theorem attempt_text {sig : Signature} (hplain : sig.typeParams = []) (hn : sig.accepts 1 = true)
    (hfirst : sig.paramType? 0 = some .string) :
    (attempt sig [.string] [] : InUniverse Attempt) = pure (.fits sig none) := by
  have hbad : (firstBadArg sig 0 [.string] : InUniverse _) = pure none := by
    rw [firstBadArg, hfirst]
    show (TypeStore.subtype .string .string >>= fun yes => _) = _
    rw [subtype_self_eq]
    rfl
  rw [attempt, if_neg (by simpa using hn), if_neg (by simp), if_neg (by simp [isGeneric, hplain]), hbad]
  rfl

/-- A call with one string passes over the signature that takes nothing. -/
theorem wantsText_chosen : (Universe.new 0).History ∧ ∃ r subst,
    ((OverloadSet.resolve { name := "f", signatures := [nothing, wantsText], implementation := wantsText }
      [.string] [] : InUniverse _).run (.new 0)).1 = r ∧ r.chosen = some (1, wantsText) ∧
    ((Universe.new 0).trying [.string] [] [nothing]).Takes wantsText [.string] [] subst wantsText ∧
    Fills wantsText.params 1 := by
  have hnothing : (attempt nothing [.string] [] : InUniverse Attempt) = pure .badCount := rfl
  have hrun : (tryAll [.string] [] 0 [nothing, wantsText] : InUniverse _) = pure (.ok (1, wantsText, none)) := by
    rw [tryAll, hnothing, pure_bind]
    show (tryAll [.string] [] 1 [wantsText] >>= fun found => _) = _
    rw [tryAll, attempt_text rfl rfl rfl]
    rfl
  have hresolve : ((OverloadSet.resolve { name := "f", signatures := [nothing, wantsText], implementation := wantsText }
      [.string] [] : InUniverse _).run (.new 0)).1 =
        { callee := "f", args := [.string], chosen := some (1, wantsText), ret := .undefined, findings := [] } := by
    rw [OverloadSet.resolve, hrun]
    rfl
  have hatom {t : Ty} (ht : t ∈ atoms) : (Universe.new 0).Keeps t := lookup?_new.2 ⟨ht, rfl⟩
  have hs : ∀ sig ∈ [nothing, wantsText], (∀ t ∈ sig.types, (Universe.new 0).Keeps t) ∧ RestLast sig.params := by
    intro sig hsig
    rcases (by simpa using hsig : sig = nothing ∨ sig = wantsText) with rfl | rfl
    · refine ⟨fun t ht => hatom ?_, .nil⟩
      simp [show t = .undefined by simpa [nothing, Signature.types] using ht, atoms]
    · refine ⟨fun t ht => hatom ?_, .cons (by simp) .nil⟩
      rcases (by simpa [wantsText, oneText, Signature.types] using ht : t = .string ∨ t = .undefined) with rfl | rfl <;>
        simp [atoms]
  obtain ⟨sig, subst, hsig, hfills, htakes, -⟩ := (History.new 0).resolve_chosen hs
    (by simpa using hatom (by simp [atoms])) (by simp) hresolve rfl
  cases hsig
  exact ⟨.new 0, _, subst, hresolve, rfl, htakes, hfills (by simp [wantsText, oneText, RequiredFirst])⟩

/-- **A required number is left out**: one argument is enough in number, since only one parameter is required,
and it goes to the other one. -/
theorem number_missing : (Universe.new 0).History ∧ RestLast maybeThenNumber.params ∧
    ((OverloadSet.resolve (.single "f" maybeThenNumber) [.string] [] : InUniverse _).run (.new 0)).1.chosen =
      some (0, maybeThenNumber) ∧
    ¬ Fills maybeThenNumber.params 1 := by
  refine ⟨.new 0, .cons (by simp) (.cons (by simp) .nil), ?_, fun hfills => ?_⟩
  · rw [OverloadSet.resolve]
    show ((tryAll [.string] [] 0 [maybeThenNumber] >>= fun found => _ : InUniverse CallResult).run (.new 0)).1.chosen = _
    rw [tryAll, attempt_text rfl rfl rfl]
    rfl
  · have hlast : ({ name := "b", type := .number } : Param Ty) ∈ maybeThenNumber.params.drop 1 := by
      simp [maybeThenNumber]
    exact hfills _ hlast ⟨rfl, rfl⟩

end Universe
end FlowTyping
