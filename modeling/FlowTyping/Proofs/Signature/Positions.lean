import FlowTyping.Proofs.Relation.Order
import FlowTyping.Signature.Basic

/-!
# Which parameter an argument feeds

Calls look at a parameter list by position: the list says how many arguments it takes, and for each of
them the type that is wanted. Subtyping and overloads walk the declared parameters instead. This module
relates the two views, for lists as the notation writes them.

* **`Signature.typeAt_eq`** — the type wanted at a position is that of the parameter declared there; past
  the declared ones it is the element type of the rest parameter.
* **`Signature.isSome_typeAt_iff`** — the positions at which a type is wanted are those that an accepted
  number of arguments reaches.
* **`Signature.accepts_fills_iff`** — an accepted number of arguments fills all required parameters exactly
  if these come before the optional ones.
-/

namespace FlowTyping

namespace Signature

open Rules

variable {p q : Param Ty} {ps : List (Param Ty)} {sig : Signature} {i n : Nat} {t : Ty}

/-! ## Types by position -/

/-- Only the last parameter may take any number of arguments, and then its type is an array. -/
inductive RestLast : List (Param Ty) → Prop where
  | nil : RestLast []
  | cons {p : Param Ty} {ps : List (Param Ty)}
    (hrest : p.rest = true → ps = [] ∧ ∃ elem, p.type = .tuple [] (some elem)) (hps : RestLast ps) :
    RestLast (p :: ps)

/-- The element type of a rest parameter at the end. -/
def restElem? (ps : List (Param Ty)) : Option Ty := (ps.getLast?.filter (·.rest)).map argType

theorem argType_of_plain (hp : p.rest = false) : argType p = p.type := by
  rw [argType, hp]

theorem restElem?_cons (hp : p.rest = false) : restElem? (p :: ps) = restElem? ps := by
  cases ps with
  | nil => simp [restElem?, hp]
  | cons q ps => simp [restElem?, List.getLast?_cons_cons]

@[simp] theorem typeAt_nil (i : Nat) : typeAt [] i = none := rfl

theorem typeAt_rest (hp : p.rest = true) (i : Nat) : typeAt (p :: ps) i = some (restType p.type i) := by
  cases i <;> simp [typeAt, hp]

theorem typeAt_zero (hp : p.rest = false) : typeAt (p :: ps) 0 = some p.type := by simp [typeAt, hp]

theorem typeAt_succ (hp : p.rest = false) (i : Nat) : typeAt (p :: ps) (i + 1) = typeAt ps i := by
  simp [typeAt, hp]

/-- **The type wanted at a position** is that of the parameter there, or of the rest parameter past the last
one. -/
theorem typeAt_eq (hps : RestLast ps) (i : Nat) : typeAt ps i = (ps[i]?.map argType).or (restElem? ps) := by
  induction hps generalizing i with
  | nil => rfl
  | @cons p ps hrest _ ih =>
    cases hp : p.rest with
    | true =>
      obtain ⟨rfl, elem, helem⟩ := hrest hp
      have harg : argType p = elem := by rw [argType, hp, helem]
      have hlast : restElem? [p] = some elem := by simp [restElem?, Option.filter, hp, harg]
      rw [typeAt_rest hp, helem, hlast]
      cases i <;> simp [restType, harg]
    | false =>
      rw [restElem?_cons hp]
      cases i with
      | zero => simp [typeAt_zero hp, argType_of_plain hp]
      | succ i => simpa [typeAt_succ hp] using ih i

theorem typeAt_of_getElem? (hps : RestLast ps) (hp : ps[i]? = some p) : typeAt ps i = some (argType p) := by
  simp [typeAt_eq hps, hp]

theorem typeAt_of_le (hps : RestLast ps) (hi : ps.length ≤ i) : typeAt ps i = restElem? ps := by
  simp [typeAt_eq hps, List.getElem?_eq_none hi]

theorem restElem?_eq_some_iff : restElem? ps = some t ↔ ∃ p, ps.getLast? = some p ∧ p.rest = true ∧ argType p = t := by
  simp [restElem?, Option.filter_eq_some_iff, and_assoc]

/-! ## Numbers of arguments -/

/-- A parameter that every call has to fill. -/
def Required (p : Param Ty) : Prop := p.optional = false ∧ p.rest = false

/-- Every required parameter has its position among the first `n`. -/
def Fills (ps : List (Param Ty)) (n : Nat) : Prop := ∀ p ∈ ps.drop n, ¬ Required p

/-- No required parameter comes after an optional one. -/
def RequiredFirst (ps : List (Param Ty)) : Prop := ps.Pairwise fun p q => p.optional = true → ¬ Required q

theorem accepts_iff : sig.accepts n = true ↔ sig.arity.1 ≤ n ∧ ∀ limit ∈ sig.arity.2, n ≤ limit := by
  simp [accepts, Option.all_eq_true]

@[simp] theorem arityOf_nil : arityOf [] = (0, some 0) := rfl

theorem arityOf_cons (hp : p.rest = false) : arityOf (p :: ps) =
    (if p.optional then (arityOf ps).1 else (arityOf ps).1 + 1, (arityOf ps).2.map (· + 1)) := by
  rw [arityOf, if_neg (by simp [hp])]

theorem arityOf_rest (hp : p.rest = true) : arityOf (p :: ps) = (0, none) := by
  rw [arityOf, if_pos hp]

/-- A type is wanted at a position exactly if that many arguments and one more are not too many. -/
theorem isSome_typeAt_iff : (typeAt ps i).isSome = true ↔ ∀ limit ∈ (arityOf ps).2, i < limit := by
  induction ps generalizing i with
  | nil => simp
  | cons p ps ih =>
    cases hp : p.rest with
    | true => simp [arityOf_rest hp, typeAt_rest hp]
    | false =>
      rw [arityOf_cons hp]
      cases i with
      | zero => simp [typeAt_zero hp]
      | succ i => simp [typeAt_succ hp, ih]

/-- At least as many arguments are wanted as there are required parameters, and the declared parameters
take no more than one each. -/
theorem arityOf_fst_le_length : (arityOf ps).1 ≤ ps.length := by
  induction ps with
  | nil => simp
  | cons p ps ih =>
    cases hp : p.rest with
    | true => simp [arityOf_rest hp]
    | false =>
      rw [arityOf_cons hp, List.length_cons]
      split <;> omega

theorem length_le_of_mem_arityOf {limit : Nat} (hlimit : limit ∈ (arityOf ps).2) : ps.length = limit := by
  induction ps generalizing limit with
  | nil => simpa using hlimit
  | cons p ps ih =>
    cases hp : p.rest with
    | true => simp [arityOf_rest hp] at hlimit
    | false =>
      rw [arityOf_cons hp] at hlimit
      obtain ⟨limit', hlimit', rfl⟩ := Option.map_eq_some_iff.1 hlimit
      rw [List.length_cons, ih hlimit']

theorem fills_cons_succ : Fills (p :: ps) (n + 1) ↔ Fills ps n := by simp [Fills]

/-- All required parameters can only be filled by as many arguments. -/
theorem Fills.arityOf_le (hps : RestLast ps) (hfills : Fills ps n) : (arityOf ps).1 ≤ n := by
  induction hps generalizing n with
  | nil => simp
  | @cons p ps hrest _ ih =>
    cases hp : p.rest with
    | true => simp [arityOf_rest hp]
    | false =>
      rw [arityOf_cons hp]
      cases n with
      | zero =>
        have hp' : p.optional = true := by
          have hreq : ¬ Required p := hfills p (by simp)
          simpa [Required, hp] using hreq
        simpa [hp'] using ih (n := 0) fun q hq => hfills q (List.mem_cons_of_mem p hq)
      | succ n =>
        have := ih (fills_cons_succ.1 hfills)
        dsimp only
        split <;> omega

theorem RequiredFirst.fills (hps : RestLast ps) (hfirst : RequiredFirst ps) (hn : (arityOf ps).1 ≤ n) :
    Fills ps n := by
  induction hps generalizing n with
  | nil => simp [Fills]
  | @cons p ps hrest _ ih =>
    obtain ⟨hlater, hfirst⟩ := List.pairwise_cons.1 hfirst
    cases hp : p.rest with
    | true =>
      obtain ⟨rfl, -⟩ := hrest hp
      intro q hq
      obtain rfl := List.mem_singleton.1 (List.mem_of_mem_drop hq)
      exact fun hreq => by simp [Required, hp] at hreq
    | false =>
      rw [arityOf_cons hp] at hn
      cases ho : p.optional with
      | true =>
        -- nothing required is left
        intro q hq
        rcases List.mem_cons.1 (List.mem_of_mem_drop hq) with rfl | hq
        · exact fun hreq => by simp [Required, ho] at hreq
        · exact hlater q hq ho
      | false =>
        obtain ⟨m, rfl⟩ : ∃ m, n = m + 1 := ⟨n - 1, by simp [ho] at hn; omega⟩
        exact fills_cons_succ.2 (ih hfirst (by simpa [ho] using hn))

theorem requiredFirst_of_fills (hps : RestLast ps) (hfills : Fills ps (arityOf ps).1) : RequiredFirst ps := by
  induction hps with
  | nil => exact .nil
  | @cons p ps hrest hps ih =>
    cases hp : p.rest with
    | true =>
      obtain ⟨rfl, -⟩ := hrest hp
      simp [RequiredFirst]
    | false =>
      rw [arityOf_cons hp] at hfills
      cases ho : p.optional with
      | false => exact .cons (by simp [ho]) (ih (by simpa [ho, fills_cons_succ] using hfills))
      | true =>
        simp only [ho, if_true] at hfills
        have hzero : (arityOf ps).1 = 0 := by
          cases hleast : (arityOf ps).1 with
          | zero => rfl
          | succ least =>
            -- the optional parameter takes up a position that the required ones need
            rw [hleast, fills_cons_succ] at hfills
            have := hfills.arityOf_le hps
            omega
        rw [hzero] at hfills
        have hnone : Fills ps 0 := fun q hq => hfills q (List.mem_cons_of_mem p hq)
        exact .cons (fun q hq _ => hnone q hq) (ih (hzero ▸ hnone))

/-- **What numbers of arguments fill**: the accepted ones fill all required parameters exactly if these come
first. -/
theorem accepts_fills_iff (hps : RestLast sig.params) :
    (∀ n, sig.accepts n = true → Fills sig.params n) ↔ RequiredFirst sig.params := by
  constructor
  · intro hall
    refine requiredFirst_of_fills hps (hall _ (accepts_iff.2 ⟨Nat.le_refl _, fun limit hlimit => ?_⟩))
    exact length_le_of_mem_arityOf hlimit ▸ arityOf_fst_le_length
  · exact fun hfirst n hn => hfirst.fills hps (accepts_iff.1 hn).1

end Signature
end FlowTyping
