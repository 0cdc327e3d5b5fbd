import FlowTyping.Proofs.Relation.Greatest
import FlowTyping.Proofs.Signature.Positions

/-!
# Functions and the arguments they take

One function may stand for another when it takes what the other takes. The rule compares the declared
parameters pairwise, as far as both functions have them; a call looks through a rest parameter. So positions
that are declared on one side alone are not compared.

* **`Hierarchy.subtype_function_iff`** — the rule for two functions.
* **`Universe.History.contravariant_iff`** — a subtype takes, at every position, what its supertype takes there
  exactly if this is so where one side declares a parameter and the other has a rest parameter.
* **`Universe.passed_number`** — a function that wants a number in second place stands for one that takes any
  number of strings.
-/

namespace FlowTyping

open Ty

/-! ## The rule -/

namespace Rules

/-- Parameters are compared position by position as far as both lists go. -/
theorem paramsSubtype_iff {h : Hierarchy} (r : Rules (Ideal h)) {ps qs : List (Param Ty)} :
    (paramsSubtype r ps qs).run = true ↔ ∀ (i : Nat) (p q : Param Ty), ps[i]? = some p → qs[i]? = some q →
      (r.subtype (argType q) (argType p)).run = true := by
  induction ps generalizing qs with
  | nil => simp [paramsSubtype]
  | cons p ps ih =>
    cases qs with
    | nil => simp [paramsSubtype]
    | cons q qs =>
      have hstep : (paramsSubtype r (p :: ps) (q :: qs)).run = true ↔
          (r.subtype (argType q) (argType p)).run = true ∧ (paramsSubtype r ps qs).run = true := by
        rw [paramsSubtype, Ideal.run_bind]
        cases (r.subtype (argType q) (argType p)).run <;> simp
      rw [hstep, ih]
      constructor
      · rintro ⟨hfirst, hrest⟩ (_ | i) p' q' hp hq
        · cases hp
          cases hq
          exact hfirst
        · exact hrest i p' q' hp hq
      · exact fun hall => ⟨hall 0 p q rfl rfl, fun i p' q' hp hq => hall (i + 1) p' q' hp hq⟩

end Rules

namespace Hierarchy

open Rules

variable {h : Hierarchy} {ps qs : List (Param Ty)} {s t : Ty}

/-- **When a function is below another**: calls of the other fill its required parameters, it takes what the
other takes where both declare a parameter, and its result fits, as any does where `undefined` is returned. -/
theorem subtype_function_iff : h.subtype (.function ps s) (.function qs t) = true ↔
    (Ty.function ps s).key = (Ty.function qs t).key ∨
      (requiredCount ps ≤ qs.length ∨ endsInRest qs = true) ∧
        (∀ (i : Nat) (p q : Param Ty), ps[i]? = some p → qs[i]? = some q →
          h.subtype (argType q) (argType p) = true) ∧
        (t.isUndefined = true ∨ h.subtype s t = true) := by
  have hparams := @paramsSubtype_iff h h.answers ps qs
  simp only [Ideal.run_answers_subtype] at hparams
  rw [subtype_eq, Bool.or_eq_true_iff, decide_eq_true_iff, ← hparams]
  refine or_congr_right ?_
  show (functionSubtype h.answers ps s qs t).run = true ↔ _
  rw [functionSubtype, Ideal.run_ite]
  by_cases hfew : (decide (qs.length < requiredCount ps) && !endsInRest qs) = true
  · rw [if_pos hfew]
    simp only [Bool.and_eq_true, decide_eq_true_eq, Bool.not_eq_true'] at hfew
    simp [hfew.1, hfew.2]
  · rw [if_neg hfew, Ideal.run_bind]
    have hcount : requiredCount ps ≤ qs.length ∨ endsInRest qs = true := by
      simp only [Bool.and_eq_true, decide_eq_true_eq, Bool.not_eq_true', not_and, Bool.not_eq_false] at hfew
      exact (Nat.lt_or_ge qs.length (requiredCount ps)).symm.imp id hfew
    cases (paramsSubtype h.answers ps qs).run <;> cases t.isUndefined <;> simp [hcount]

end Hierarchy

/-! ## Functions in a universe -/

namespace Universe

open Signature Rules

variable {h : Hierarchy} {u : Universe} {a b s t : Ty} {ps qs : List (Param Ty)}

/-- The universe answers that one type is a subtype of another. -/
def Below (u : Universe) (a b : Ty) : Prop := ((TypeStore.subtype a b : InUniverse Bool).run u).1 = true

theorem Sound.below_iff (hu : u.Sound h) (ha : u.Keeps a) (hb : u.Keeps b) :
    u.Below a b ↔ h.subtype a b = true := by
  rw [Below, (says_subtype (hu.stands ha) (hu.stands hb) u hu (.refl h u)).2.2]

/-- A type is below itself, in every universe. -/
theorem subtype_self_eq (a : Ty) : (TypeStore.subtype a a : InUniverse Bool) = pure true := by
  have hpos : stepBound [a, a] ≠ 0 := by
    rw [stepBound]
    have hpos : 0 < 16 * (Ty.sizeAll [a, a] + 8) := by omega
    exact (Nat.mul_pos hpos (by omega)).ne'
  obtain ⟨n, hn⟩ := Nat.exists_eq_succ_of_ne_zero hpos
  have hself : ((Rules.upTo (n + 1)).subtype a a : InUniverse Bool) = pure true := if_pos rfl
  rw [TypeStore.subtype, hn, hself]
  rfl

@[simp] theorem below_self (u : Universe) (a : Ty) : u.Below a a := by
  rw [Below, subtype_self_eq]
  rfl

theorem Sound.keeps_argType (hu : u.Sound h) {p : Param Ty} (hp : u.Keeps p.type) : u.Keeps (argType p) := by
  rw [argType.eq_def]
  split
  · rename_i elems rest _ htype
    exact hu.part (htype ▸ hp) rest (by simp [parts])
  · exact hp

theorem Sound.keeps_param (hu : u.Sound h) (hf : u.Keeps (.function ps s)) {p : Param Ty} (hp : p ∈ ps) :
    u.Keeps (argType p) :=
  hu.keeps_argType (hu.part hf p.type (by simp [parts, List.mem_map_of_mem hp]))

/-- One parameter list takes what another wants, wherever both want something. -/
def TakesAll (below : Ty → Ty → Prop) (ps qs : List (Param Ty)) : Prop :=
  ∀ (i : Nat) (given wanted : Ty), typeAt qs i = some given → typeAt ps i = some wanted → below given wanted

/-- One parameter list takes what another wants where one of the two declares a parameter and the other has
a rest parameter. -/
def TakesRest (below : Ty → Ty → Prop) (ps qs : List (Param Ty)) : Prop :=
  (∀ p ∈ ps.drop qs.length, ∀ given ∈ restElem? qs, below given (argType p)) ∧
    ∀ q ∈ qs.drop ps.length, ∀ wanted ∈ restElem? ps, below (argType q) wanted

theorem getLast?_mem_drop {α : Type} {xs : List α} {x : α} {n : Nat} (hx : xs.getLast? = some x)
    (hn : n < xs.length) : x ∈ xs.drop n := by
  refine List.mem_of_getLast? ?_
  rw [List.getLast?_drop, if_neg (by omega), hx]

/-- Where the parameters that both lists declare fit, only the others are left to compare. -/
theorem takesAll_iff {below : Ty → Ty → Prop} (hps : RestLast ps) (hqs : RestLast qs)
    (hboth : ∀ (i : Nat) (p q : Param Ty), ps[i]? = some p → qs[i]? = some q → below (argType q) (argType p)) :
    TakesAll below ps qs ↔ TakesRest below ps qs := by
  constructor
  · refine fun hall => ⟨fun p hp given hgiven => ?_, fun q hq wanted hwanted => ?_⟩
    · obtain ⟨i, hi⟩ := List.mem_iff_getElem?.1 hp
      rw [List.getElem?_drop] at hi
      exact hall (qs.length + i) _ _ ((typeAt_of_le hqs (Nat.le_add_right _ _)).trans hgiven)
        (typeAt_of_getElem? hps hi)
    · obtain ⟨i, hi⟩ := List.mem_iff_getElem?.1 hq
      rw [List.getElem?_drop] at hi
      exact hall (ps.length + i) _ _ (typeAt_of_getElem? hqs hi)
        ((typeAt_of_le hps (Nat.le_add_right _ _)).trans hwanted)
  · rintro ⟨hleft, hright⟩ i given wanted hgiven hwanted
    rcases Nat.lt_or_ge i ps.length with hp | hp <;> rcases Nat.lt_or_ge i qs.length with hq | hq
    · rw [typeAt_of_getElem? hqs (List.getElem?_eq_getElem hq)] at hgiven
      rw [typeAt_of_getElem? hps (List.getElem?_eq_getElem hp)] at hwanted
      cases hgiven
      cases hwanted
      exact hboth i _ _ (List.getElem?_eq_getElem hp) (List.getElem?_eq_getElem hq)
    · rw [typeAt_of_le hqs hq] at hgiven
      rw [typeAt_of_getElem? hps (List.getElem?_eq_getElem hp)] at hwanted
      cases hwanted
      refine hleft _ (List.mem_iff_getElem?.2 ⟨i - qs.length, ?_⟩) _ hgiven
      rw [List.getElem?_drop, Nat.add_sub_cancel' hq, List.getElem?_eq_getElem hp]
    · rw [typeAt_of_getElem? hqs (List.getElem?_eq_getElem hq)] at hgiven
      rw [typeAt_of_le hps hp] at hwanted
      cases hgiven
      refine hright _ (List.mem_iff_getElem?.2 ⟨i - ps.length, ?_⟩) _ hwanted
      rw [List.getElem?_drop, Nat.add_sub_cancel' hp, List.getElem?_eq_getElem hq]
    · rw [typeAt_of_le hqs hq] at hgiven
      rw [typeAt_of_le hps hp] at hwanted
      obtain ⟨q, hlastq, -, rfl⟩ := restElem?_eq_some_iff.1 hgiven
      obtain ⟨p, hlastp, -, rfl⟩ := restElem?_eq_some_iff.1 hwanted
      -- the rest parameters are declared at one position, or one is declared after the other list ends
      rcases Nat.lt_trichotomy qs.length ps.length with hlt | heq | hgt
      · exact hleft p (getLast?_mem_drop hlastp hlt) _ hgiven
      · rw [List.getLast?_eq_getElem?] at hlastq hlastp
        exact hboth _ p q (heq ▸ hlastp) hlastq
      · exact hright q (getLast?_mem_drop hlastq hgt) _ hwanted

/-- **Where a function takes what its supertype takes**: at every position, exactly if it does so at those that
one of the two declares and the other covers by a rest parameter. -/
theorem History.contravariant_iff (hu : u.History) (hf : u.Keeps (.function ps s)) (hg : u.Keeps (.function qs t))
    (hps : RestLast ps) (hqs : RestLast qs) (hfg : u.Below (.function ps s) (.function qs t)) :
    TakesAll u.Below ps qs ↔ TakesRest u.Below ps qs := by
  obtain ⟨hsound, -⟩ := hu.sound
  refine takesAll_iff hps hqs fun i p q hp hq => ?_
  have hkept := hsound.keeps_param hf (List.mem_of_getElem? hp)
  refine (hsound.below_iff (hsound.keeps_param hg (List.mem_of_getElem? hq)) hkept).2 ?_
  rcases Hierarchy.subtype_function_iff.1 ((hsound.below_iff hf hg).1 hfg) with hkey | ⟨-, hall, -⟩
  · -- one key, one entry
    cases hf.eq_of_key_eq hg hkey
    cases hp.symm.trans hq
    exact Hierarchy.subtype_self _ _
  · exact hall i p q hp hq

/-! ## A function of two arguments and one of any number -/

/-- Making an array is part of a history. -/
theorem history_array {ts : List Ty} (elem : Ty) (hu : (holding ts).History) (hts : (ts.map Ty.key).Nodup)
    (hnew : (Ty.tuple [] (some elem)).key ∉ ts.map Ty.key) (helem : elem ∈ ts) :
    (holding (ts ++ [.tuple [] (some elem)])).History := by
  have hcall : ((Call.array elem).serve.run (holding ts)).2 = holding (ts ++ [.tuple [] (some elem)]) := by
    show ((holding ts).intern (.tuple [] (some elem))).2 = _
    rw [intern_of_not_mem hts hnew]
  rw [← hcall]
  refine .call hu _ (fun t ht => ?_) (by simp [Call.names])
  obtain rfl := List.mem_singleton.1 ht
  exact (lookup?_holding hts).2 ⟨helem, rfl⟩

/-- Making a function is part of a history. -/
theorem history_function {ts : List Ty} (ps : List (Param Ty)) (ret : Ty) (hu : (holding ts).History)
    (hts : (ts.map Ty.key).Nodup) (hnew : (Ty.function ps ret).key ∉ ts.map Ty.key)
    (hparams : ∀ p ∈ ps, p.type ∈ ts) (hret : ret ∈ ts) : (holding (ts ++ [.function ps ret])).History := by
  have hcall : ((Call.function ps ret).serve.run (holding ts)).2 = holding (ts ++ [.function ps ret]) := by
    show ((holding ts).intern (.function ps ret)).2 = _
    rw [intern_of_not_mem hts hnew]
  rw [← hcall]
  refine .call hu _ (fun t ht => ?_) (by simp [Call.names])
  rcases List.mem_append.1 ht with ht | ht
  · obtain ⟨p, hp, rfl⟩ := List.mem_map.1 ht
    exact (lookup?_holding hts).2 ⟨hparams p hp, rfl⟩
  · exact (lookup?_holding hts).2 ⟨List.mem_singleton.1 ht ▸ hret, rfl⟩

/-- One string. -/
def oneText : List (Param Ty) := [{ name := "a", type := .string }]

/-- A string and a number. -/
def textThenNumber : List (Param Ty) := [{ name := "a", type := .string }, { name := "b", type := .number }]

/-- Any number of strings. -/
def texts : List (Param Ty) := [{ name := "xs", type := .tuple [] (some .string), rest := true }]

/-- The entries after three functions were made that take these and return nothing. -/
def takers : List Ty :=
  atoms ++ [.tuple [] (some .string)] ++ [.function oneText .undefined] ++
    [.function textThenNumber .undefined] ++ [.function texts .undefined]

theorem takers_history : (holding takers).History := by
  have harray := history_array .string (show (holding atoms).History from .new 0) (by decide) (by decide)
    (by simp [atoms])
  have hone := history_function oneText .undefined harray (by decide) (by decide) (by simp [oneText, atoms])
    (by simp [atoms])
  have htwo := history_function textThenNumber .undefined hone (by decide) (by decide)
    (by simp [textThenNumber, atoms]) (by simp [atoms])
  exact history_function texts .undefined htwo (by decide) (by decide) (by simp [texts]) (by simp [atoms])

theorem takers_keeps {t : Ty} (ht : t ∈ takers) : (holding takers).Keeps t :=
  (lookup?_holding (by decide)).2 ⟨ht, rfl⟩

theorem restLast_texts : RestLast texts := .cons (fun _ => ⟨rfl, _, rfl⟩) .nil

theorem takers_below {ps : List (Param Ty)} (hps : .function ps .undefined ∈ takers)
    (hfirst : ps.head?.map argType = some .string) :
    (holding takers).Below (.function ps .undefined) (.function texts .undefined) := by
  refine (takers_history.sound.1.below_iff (takers_keeps hps) (takers_keeps (by simp [takers]))).2
    (Hierarchy.subtype_function_iff.2 (.inr ⟨.inr rfl, fun i p q hp hq => ?_, .inl rfl⟩))
  cases i with
  | zero =>
    rw [← List.head?_eq_getElem?] at hp
    rw [hp] at hfirst
    cases hq
    rw [Option.some.inj hfirst]
    exact Hierarchy.subtype_self _ _
  | succ i => simp [texts] at hq

/-- A function of one string takes whatever string is passed to a function of many. -/
theorem oneText_takes_all : (holding takers).History ∧
    (holding takers).Below (.function oneText .undefined) (.function texts .undefined) ∧
    TakesAll (holding takers).Below oneText texts := by
  have hone : .function oneText .undefined ∈ takers := by simp [takers]
  have hbelow := takers_below hone rfl
  have hrest : TakesRest (holding takers).Below oneText texts := ⟨by simp [oneText, texts], by simp [oneText, texts]⟩
  exact ⟨takers_history, hbelow, (takers_history.contravariant_iff (takers_keeps hone)
    (takers_keeps (by simp [takers])) (.cons (by simp) .nil) restLast_texts hbelow).2 hrest⟩

/-- **A string is passed where a number is wanted**: the second argument, through a function type that takes
any number of strings. -/
theorem passed_number : (holding takers).History ∧ RestLast textThenNumber ∧ RestLast texts ∧
    (holding takers).Below (.function textThenNumber .undefined) (.function texts .undefined) ∧
    typeAt texts 1 = some .string ∧ typeAt textThenNumber 1 = some .number ∧
    ¬ (holding takers).Below .string .number := by
  refine ⟨takers_history, .cons (by simp) (.cons (by simp) .nil), restLast_texts,
    takers_below (by simp [takers]) rfl, rfl, rfl, fun hbelow => ?_⟩
  rw [takers_history.sound.1.below_iff (takers_keeps (by simp [takers, atoms]))
    (takers_keeps (by simp [takers, atoms])), Hierarchy.subtype_eq] at hbelow
  revert hbelow
  decide

end Universe
end FlowTyping
