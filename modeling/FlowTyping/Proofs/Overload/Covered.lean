import FlowTyping.Proofs.Relation.Contravariant
import FlowTyping.Proofs.Signature.Closed

/-!
# Implementations cover their overloads

Overloads are accepted with an implementation when it takes their numbers of arguments and, at each position
that an overload declares, the type of the argument there. An overload with a rest parameter takes arguments
past its declared positions as well, and these are not looked at.

* **`OverloadSet.Checked`** — what is asked of an overload, and `yields_build`: accepted overloads passed.
* **`Universe.History.build_covers_iff`** — the implementation takes every accepted call exactly if it takes the
  rest elements of each overload in the parameters that it declares past the overload's own.
* **`Universe.uncovered_number`** — an accepted implementation that wants a number where a string is passed.
-/

namespace FlowTyping

open Ty Signature

namespace OverloadSet

/-- What an overload has to fulfil to be accepted with an implementation, the result left out. -/
structure Checked (h : Hierarchy) (impl sig : Signature) : Prop where
  least : impl.arity.1 ≤ sig.arity.1
  greatest : ∀ limit ∈ impl.arity.2, ∃ own ∈ sig.arity.2, own ≤ limit
  param : ∀ i < sig.params.length, ∀ own wanted, sig.paramType? i = some own → impl.paramType? i = some wanted →
    Closed own → Closed wanted → h.subtype own wanted = true

variable {h : Hierarchy} {impl sig : Signature} {n i : Nat}

/-- The implementation takes the numbers of arguments that a checked overload takes. -/
theorem Checked.accepts (hc : Checked h impl sig) (hn : sig.accepts n = true) : impl.accepts n = true := by
  obtain ⟨hleast, hgreatest⟩ := accepts_iff.1 hn
  refine accepts_iff.2 ⟨hc.least.trans hleast, fun limit hlimit => ?_⟩
  obtain ⟨own, hown, hle⟩ := hc.greatest limit hlimit
  exact (hgreatest own hown).trans hle

/-- Where both declare a parameter, or the implementation has a rest parameter, it takes what is passed. -/
theorem Checked.takesAll_iff (hc : Checked h impl sig) {below : Ty → Ty → Prop}
    (himpl : RestLast impl.params) (hsig : RestLast sig.params)
    (hclosed : ∀ i t, impl.paramType? i = some t ∨ sig.paramType? i = some t → Closed t)
    (hbelow : ∀ i own wanted, sig.paramType? i = some own → impl.paramType? i = some wanted →
      (below own wanted ↔ h.subtype own wanted = true)) :
    Universe.TakesAll below impl.params sig.params ↔
      ∀ p ∈ impl.params.drop sig.params.length, ∀ own ∈ restElem? sig.params, below own (Rules.argType p) := by
  have hparam (i : Nat) (hi : i < sig.params.length) (own wanted : Ty) (hown : sig.paramType? i = some own)
      (hwanted : impl.paramType? i = some wanted) : below own wanted :=
    (hbelow i own wanted hown hwanted).2 (hc.param i hi own wanted hown hwanted (hclosed i own (.inr hown))
      (hclosed i wanted (.inl hwanted)))
  rw [Universe.takesAll_iff himpl hsig fun i p q hp hq => hparam i (List.getElem?_eq_some_iff.1 hq).1 _ _
    (typeAt_of_getElem? hsig hq) (typeAt_of_getElem? himpl hp)]
  -- what the overload declares past the implementation's own parameters has been looked at
  refine and_iff_left fun q hq wanted hwanted => ?_
  obtain ⟨i, hi⟩ := List.mem_iff_getElem?.1 hq
  rw [List.getElem?_drop] at hi
  exact hparam _ (List.getElem?_eq_some_iff.1 hi).1 _ _ (typeAt_of_getElem? hsig hi)
    ((typeAt_of_le himpl (Nat.le_add_right _ _)).trans hwanted)

end OverloadSet

namespace Universe

open OverloadSet

variable {h : Hierarchy} {u : Universe} {impl sig : Signature} {sigs : List Signature} {i n : Nat}

/-! ## What the check asks -/

theorem yields_uncoveredParam (hs : ∀ t ∈ sig.types, u.Keeps t) (hi : ∀ t ∈ impl.types, u.Keeps t) :
    u.Yields h (uncoveredParam sig impl i n) fun _ reason => reason = none → ∀ k, i ≤ k → k < i + n →
      ∀ own wanted, sig.paramType? k = some own → impl.paramType? k = some wanted → Closed own →
        Closed wanted → h.subtype own wanted = true := by
  induction n generalizing i u with
  | zero => exact .pure fun _ _ _ _ k hk hlt => by omega
  | succ n ih =>
    refine .of_sound fun v hv huv => ?_
    replace hs := fun t ht => huv.keeps (hs t ht)
    replace hi := fun t ht => huv.keeps (hi t ht)
    -- the first position is settled if the rest is looked at
    have hrest {w : Universe} (hvw : v.Grows h w) (hfirst : ∀ own wanted, sig.paramType? i = some own →
        impl.paramType? i = some wanted → Closed own → Closed wanted → h.subtype own wanted = true) :
        w.Yields h (uncoveredParam sig impl (i + 1) n) fun _ reason => reason = none → ∀ k, i ≤ k →
          k < i + (n + 1) → ∀ own wanted, sig.paramType? k = some own → impl.paramType? k = some wanted →
            Closed own → Closed wanted → h.subtype own wanted = true := by
      refine (ih (fun t ht => hvw.keeps (hs t ht)) (fun t ht => hvw.keeps (hi t ht))).imp ?_
      intro _ reason _ _ hall hnone k hk hlt
      rcases Nat.eq_or_lt_of_le hk with rfl | hk
      · exact hfirst
      · exact hall hnone k hk (by omega)
    rw [uncoveredParam]
    split
    · rename_i own wanted hown hwanted
      split
      · rename_i hopen
        refine hrest (.refl h v) fun own' wanted' hown' hwanted' hclosed hclosed' => ?_
        cases hown.symm.trans hown'
        cases hwanted.symm.trans hwanted'
        simp [hclosed, hclosed'] at hopen
      · refine (says_subtype (hv.stands (hv.keeps_paramType? hs hown))
          (hv.stands (hv.keeps_paramType? hi hwanted))).ite (fun hyes => ?_) fun _ => ?_
        · refine hrest (.refl h v) fun own' wanted' hown' hwanted' _ _ => ?_
          cases hown.symm.trans hown'
          cases hwanted.symm.trans hwanted'
          exact hyes
        · exact .pure fun _ _ _ hnone => by simp at hnone
    · rename_i hno
      exact hrest (.refl h v) fun own wanted hown hwanted _ _ => absurd hwanted (hno own wanted hown)

/-- An overload that nothing is said against has passed. -/
theorem yields_uncovered (hs : ∀ t ∈ sig.types, u.Keeps t) (hi : ∀ t ∈ impl.types, u.Keeps t) :
    u.Yields h (uncovered sig impl) fun _ reason => reason = none → Checked h impl sig := by
  unfold uncovered
  rcases hown : sig.arity with ⟨least, greatest⟩
  rcases himpl : impl.arity with ⟨implLeast, implGreatest⟩
  dsimp only
  split
  · exact .pure fun _ _ _ hnone => by simp at hnone
  rename_i hleast
  split
  · exact .pure fun _ _ _ hnone => by simp at hnone
  rename_i hgreatest
  have hgreatest : ∀ limit ∈ implGreatest, ∃ own ∈ greatest, own ≤ limit := by
    intro limit hlimit
    rw [Option.filter_eq_none_iff] at hgreatest
    have hnot := hgreatest limit hlimit
    simpa [Option.all_eq_true] using hnot
  refine (yields_uncoveredParam hs hi).bind fun v reason hv huv hparam => ?_
  cases reason with
  | some reason => exact .pure fun _ _ _ hnone => by simp at hnone
  | none =>
    have hchecked : Checked h impl sig :=
      ⟨by simpa [hown, himpl] using hleast, by simpa [hown, himpl] using hgreatest,
        fun i hlt => hparam rfl i (Nat.zero_le i) (by simpa using hlt)⟩
    have hret : v.Keeps sig.ret := huv.keeps (hs _ (by simp [Signature.types]))
    have hret' : v.Keeps impl.ret := huv.keeps (hi _ (by simp [Signature.types]))
    dsimp only
    split
    · exact .pure fun _ _ _ _ => hchecked
    · refine (asks_subtype hret hret').bind fun w yes _ hvw _ => ?_
      split
      · exact .pure fun _ _ _ _ => hchecked
      · refine (asks_subtype (hvw.keeps hret') (hvw.keeps hret)).bind fun w' yes' _ _ _ => ?_
        split <;> exact .pure fun _ _ _ _ => hchecked

theorem yields_firstUncovered {name : String} {position : Nat} (hs : ∀ sig ∈ sigs, ∀ t ∈ sig.types, u.Keeps t)
    (hi : ∀ t ∈ impl.types, u.Keeps t) :
    u.Yields h (firstUncovered name impl position sigs) fun _ reason =>
      reason = none → ∀ sig ∈ sigs, Checked h impl sig := by
  induction sigs generalizing u position with
  | nil => exact .pure fun _ _ _ => by simp
  | cons sig sigs ih =>
    rw [firstUncovered]
    refine (yields_uncovered (hs sig (by simp)) hi).bind fun v reason _ huv hfirst => ?_
    cases reason with
    | some reason => exact .pure fun _ _ _ hnone => by simp at hnone
    | none =>
      refine (ih (fun sig hsig t ht => huv.keeps (hs sig (by simp [hsig]) t ht))
        fun t ht => huv.keeps (hi t ht)).imp fun _ _ _ _ hrest hnone => ?_
      exact List.forall_mem_cons.2 ⟨hfirst rfl, hrest hnone⟩

/-- Overloads that are accepted have passed. -/
theorem yields_build {name : String} (hs : ∀ sig ∈ sigs, ∀ t ∈ sig.types, u.Keeps t)
    (hi : ∀ t ∈ impl.types, u.Keeps t) :
    u.Yields h (build name sigs impl) fun _ built =>
      ∀ s, built = .ok s → ∀ sig ∈ sigs, Checked h impl sig := by
  unfold build
  split
  · rename_i hempty
    rw [List.isEmpty_iff.1 hempty]
    exact .pure fun _ _ _ => by simp
  · refine (yields_firstUncovered hs hi).bind fun v reason _ _ hall => ?_
    cases reason with
    | some reason => exact .pure fun _ _ _ s hs => by simp at hs
    | none => exact .pure fun _ _ _ _ _ => hall rfl

/-! ## What accepted calls pass -/

/-- The implementation takes all arguments of all calls that fit the overload in number: at each position both
have a parameter type, and that of the overload is below that of the implementation. -/
def Covers (u : Universe) (impl sig : Signature) : Prop :=
  ∀ n, sig.accepts n = true → ∀ i < n, ∃ own wanted, sig.paramType? i = some own ∧
    impl.paramType? i = some wanted ∧ u.Below own wanted

theorem isSome_paramType? (hn : sig.accepts n = true) (hi : i < n) : (sig.paramType? i).isSome = true :=
  isSome_typeAt_iff.2 fun limit hlimit => Nat.lt_of_lt_of_le hi ((accepts_iff.1 hn).2 limit hlimit)

/-- A position belongs to some accepted call exactly if a type is wanted there. -/
theorem covers_iff_takesAll (haccepts : ∀ n, sig.accepts n = true → impl.accepts n = true) :
    u.Covers impl sig ↔ TakesAll u.Below impl.params sig.params := by
  constructor
  · intro hall i own wanted hown hwanted
    have hlimit := isSome_typeAt_iff.1 (Option.isSome_iff_exists.2 ⟨own, hown⟩)
    have hn : sig.accepts (max (i + 1) sig.params.length) = true := by
      refine accepts_iff.2 ⟨(arityOf_fst_le_length).trans (Nat.le_max_right _ _), fun limit hmem => ?_⟩
      have := hlimit limit hmem
      have := length_le_of_mem_arityOf hmem
      omega
    obtain ⟨own', wanted', hown', hwanted', hbelow⟩ := hall _ hn i (by omega)
    cases hown.symm.trans hown'
    cases hwanted.symm.trans hwanted'
    exact hbelow
  · intro hall n hn i hi
    obtain ⟨own, hown⟩ := Option.isSome_iff_exists.1 (isSome_paramType? hn hi)
    obtain ⟨wanted, hwanted⟩ := Option.isSome_iff_exists.1 (isSome_paramType? (haccepts n hn) hi)
    exact ⟨own, wanted, hown, hwanted, hall i own wanted hown hwanted⟩

theorem closed_of_scoped (hplain : sig.typeParams = []) (hscoped : sig.Scoped) {t : Ty}
    (ht : t ∈ sig.params.map (·.type)) : Closed t := by
  refine List.eq_nil_iff_forall_not_mem.2 fun v hv => ?_
  obtain ⟨w, hw, -⟩ := hscoped t (List.mem_append_left _ ht) v hv
  simp [hplain] at hw

theorem closed_paramType? (hlast : RestLast sig.params) (hplain : sig.typeParams = []) (hscoped : sig.Scoped)
    {t : Ty} (ht : sig.paramType? i = some t) : Closed t := by
  have harg (p) (hp : p ∈ sig.params) : Closed (Rules.argType p) := by
    have hclosed := closed_of_scoped hplain hscoped (List.mem_map_of_mem hp)
    rw [Rules.argType.eq_def]
    split
    · rename_i elems rest _ htype
      exact Closed.part (htype ▸ hclosed) (by simp [parts])
    · exact hclosed
  rw [paramType?, typeAt_eq hlast] at ht
  rcases Option.or_eq_some_iff.1 ht with hat | ⟨-, hrest⟩
  · obtain ⟨p, hp, rfl⟩ := Option.map_eq_some_iff.1 hat
    exact harg p (List.mem_of_getElem? hp)
  · obtain ⟨p, hp, -, rfl⟩ := restElem?_eq_some_iff.1 hrest
    exact harg p (List.mem_of_getLast? hp)

/-- **What an accepted implementation covers**: it takes every number of arguments that an overload takes, with
a parameter for each, and all arguments exactly if the parameters that it declares past those of an overload take
the overload's rest elements. -/
theorem History.build_covers_iff (hu : u.History) (name : String)
    (hkept : ∀ sig ∈ impl :: sigs, ∀ t ∈ sig.types, u.Keeps t)
    (hlast : ∀ sig ∈ impl :: sigs, RestLast sig.params)
    (hplain : ∀ sig ∈ impl :: sigs, sig.typeParams = [] ∧ sig.Scoped) {s : OverloadSet}
    (hs : ((build name sigs impl : InUniverse _).run u).1 = .ok s) :
    (∀ sig ∈ sigs, ∀ n, sig.accepts n = true →
        impl.accepts n = true ∧ ∀ i < n, (impl.paramType? i).isSome = true) ∧
      ((∀ sig ∈ sigs, u.Covers impl sig) ↔ ∀ sig ∈ sigs, ∀ p ∈ impl.params.drop sig.params.length,
        ∀ own ∈ restElem? sig.params, u.Below own (Rules.argType p)) := by
  obtain ⟨hsound, -⟩ := hu.sound
  have hchecked := (yields_build (fun sig hsig => hkept sig (by simp [hsig])) (hkept impl (by simp)) u hsound
    (.refl _ u)).2.2 s hs
  refine ⟨fun sig hsig n hn => ?_, forall₂_congr fun sig hsig => ?_⟩
  · have hn := (hchecked sig hsig).accepts hn
    exact ⟨hn, fun i hi => isSome_paramType? hn hi⟩
  have hmem : sig ∈ impl :: sigs := List.mem_cons_of_mem _ hsig
  have himpl : impl ∈ impl :: sigs := List.mem_cons_self ..
  rw [covers_iff_takesAll fun n hn => (hchecked sig hsig).accepts hn]
  refine (hchecked sig hsig).takesAll_iff (hlast impl himpl) (hlast sig hmem) ?_ ?_
  · rintro i t (ht | ht)
    · exact closed_paramType? (hlast impl himpl) (hplain impl himpl).1 (hplain impl himpl).2 ht
    · exact closed_paramType? (hlast sig hmem) (hplain sig hmem).1 (hplain sig hmem).2 ht
  · exact fun i own wanted hown hwanted => hsound.below_iff (hsound.keeps_paramType? (hkept sig hmem) hown)
      (hsound.keeps_paramType? (hkept impl himpl) hwanted)

/-! ## An overload with a rest parameter -/

/-- Any number of strings, and nothing in return. -/
def manyTexts : Signature where
  params := texts
  ret := .undefined

/-- A string that may be left out, then any number of values of one type. -/
def textThenMany (elem : Ty) : Signature where
  params := [{ name := "a", type := .string, optional := true },
    { name := "xs", type := .tuple [] (some elem), rest := true }]
  ret := .undefined

/-- The entries after arrays of strings and of numbers were made. -/
def arrays : List Ty := atoms ++ [.tuple [] (some .string)] ++ [.tuple [] (some .number)]

theorem arrays_history : (holding arrays).History := by
  have htexts := history_array .string (show (holding atoms).History from .new 0) (by decide) (by decide)
    (by simp [atoms])
  exact history_array .number htexts (by decide) (by decide) (by simp [atoms])

theorem arrays_keeps {t : Ty} (ht : t ∈ arrays) : (holding arrays).Keeps t :=
  (lookup?_holding (by decide)).2 ⟨ht, rfl⟩

/-- The only position that is looked at is the first. -/
theorem build_textThenMany (elem : Ty) : (build "f" [manyTexts] (textThenMany elem) : InUniverse _) =
    pure (.ok { name := "f", signatures := [manyTexts], implementation := textThenMany elem }) := by
  have hclosed (t : Ty) (ht : t ∈ atoms) : (!t.freeVars.isEmpty) = false := by
    rw [show t.freeVars = [] from closed_hereditary.atom ht, List.isEmpty_nil, Bool.not_true]
  have hstring := hclosed .string (by simp [atoms])
  have hundefined := hclosed .undefined (by simp [atoms])
  have hparam : (uncoveredParam manyTexts (textThenMany elem) 0 1 : InUniverse _) = pure none := by
    rw [uncoveredParam]
    show (if !Ty.string.freeVars.isEmpty || !Ty.string.freeVars.isEmpty then _ else _) = _
    rw [hstring]
    show (TypeStore.subtype .string .string >>= fun yes => _) = _
    rw [subtype_self_eq]
    rfl
  have hcovered : (uncovered manyTexts (textThenMany elem) : InUniverse _) = pure none := by
    show (uncoveredParam manyTexts (textThenMany elem) 0 1 >>= fun reason => _) = _
    rw [hparam, pure_bind]
    show (if !Ty.undefined.freeVars.isEmpty || !Ty.undefined.freeVars.isEmpty then _ else _) = _
    rw [hundefined]
    show (TypeStore.subtype .undefined .undefined >>= fun yes => _) = _
    rw [subtype_self_eq]
    rfl
  show (firstUncovered "f" (textThenMany elem) 1 [manyTexts] >>= fun reason => _) = _
  rw [firstUncovered, hcovered]
  rfl

theorem arrays_types {elem : Ty} (helem : elem = .string ∨ elem = .number) {sig : Signature}
    (hsig : sig ∈ [textThenMany elem, manyTexts]) {t : Ty} (ht : t ∈ sig.types) : t ∈ arrays ∧ Closed t := by
  have hatom {t : Ty} (ht : t ∈ atoms) : t ∈ arrays ∧ Closed t :=
    ⟨by simp [arrays, ht], closed_hereditary.atom ht⟩
  have harray (elem : Ty) (helem : elem = .string ∨ elem = .number) :
      .tuple [] (some elem) ∈ arrays ∧ Closed (.tuple [] (some elem)) := by
    refine ⟨?_, closed_tuple (by simp) fun t ht => ?_⟩
    · rcases helem with rfl | rfl <;> simp [arrays]
    · obtain rfl := Option.some.inj ht
      exact closed_hereditary.atom (by rcases helem with rfl | rfl <;> simp [atoms])
  rcases (by simpa using hsig : sig = textThenMany elem ∨ sig = manyTexts) with rfl | rfl
  · rcases (by simpa [textThenMany, Signature.types] using ht :
      t = .string ∨ t = .tuple [] (some elem) ∨ t = .undefined) with rfl | rfl | rfl
    · exact hatom (by simp [atoms])
    · exact harray elem helem
    · exact hatom (by simp [atoms])
  · rcases (by simpa [manyTexts, texts, Signature.types] using ht :
      t = .tuple [] (some .string) ∨ t = .undefined) with rfl | rfl
    · exact harray .string (.inl rfl)
    · exact hatom (by simp [atoms])

theorem restLast_textThenMany (elem : Ty) : RestLast (textThenMany elem).params :=
  .cons (by simp) (.cons (fun _ => ⟨rfl, _, rfl⟩) .nil)

/-- An implementation that takes many strings covers an overload that does. -/
theorem texts_covered : (holding arrays).History ∧ (holding arrays).Covers (textThenMany .string) manyTexts := by
  have hsig (sig) (hsig : sig ∈ [textThenMany .string, manyTexts]) :
      RestLast sig.params ∧ sig.typeParams = [] := by
    rcases (by simpa using hsig : sig = textThenMany .string ∨ sig = manyTexts) with rfl | rfl
    · exact ⟨restLast_textThenMany _, rfl⟩
    · exact ⟨restLast_texts, rfl⟩
  have hscoped (sig) (hsig : sig ∈ [textThenMany .string, manyTexts]) : sig.Scoped := by
    intro t ht v hv
    have hmem : t ∈ sig.types := by
      rw [Signature.types, List.append_assoc]
      exact List.mem_append_right _ ht
    rw [(arrays_types (.inl rfl) hsig hmem).2] at hv
    exact absurd hv List.not_mem_nil
  refine ⟨arrays_history, (arrays_history.build_covers_iff "f"
    (fun sig hsig t ht => arrays_keeps (arrays_types (.inl rfl) hsig ht).1) (fun s hs => (hsig s hs).1)
    (fun s hs => ⟨(hsig s hs).2, hscoped s hs⟩) (congrArg (fun x => (x.run (holding arrays)).1)
      (build_textThenMany .string))).2.2 (fun sig hsig p hp own hown => ?_) manyTexts (by simp)⟩
  -- past its own parameter the overload passes strings to the rest parameter
  obtain rfl := List.mem_singleton.1 hsig
  obtain rfl : p = { name := "xs", type := .tuple [] (some .string), rest := true } := List.mem_singleton.1 hp
  cases hown
  exact below_self _ _

/-- **A string is passed where a number is wanted**: the implementation is accepted, since only the first
position is looked at. -/
theorem uncovered_number : (holding arrays).History ∧
    ((build "f" [manyTexts] (textThenMany .number) : InUniverse _).run (holding arrays)).1 =
      .ok { name := "f", signatures := [manyTexts], implementation := textThenMany .number } ∧
    manyTexts.accepts 2 = true ∧ manyTexts.paramType? 1 = some .string ∧
    (textThenMany .number).paramType? 1 = some .number ∧ ¬ (holding arrays).Below .string .number := by
  refine ⟨arrays_history, congrArg (fun x => (x.run (holding arrays)).1) (build_textThenMany .number), rfl, rfl,
    rfl, fun hbelow => ?_⟩
  rw [arrays_history.sound.1.below_iff (arrays_keeps (by simp [arrays, atoms]))
    (arrays_keeps (by simp [arrays, atoms])), Hierarchy.subtype_eq] at hbelow
  revert hbelow
  decide

end Universe
end FlowTyping
