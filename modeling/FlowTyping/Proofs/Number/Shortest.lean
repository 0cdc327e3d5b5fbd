import FlowTyping.Proofs.Number.Numeral
import Mathlib.Algebra.Order.Field.Power
import Mathlib.Data.Rat.Cast.Order
import Mathlib.Tactic.Linarith
import Mathlib.Tactic.NormNum
import Mathlib.Tactic.Positivity

/-!
# A numeral tells its number

The digits that are written for a number lie in its band, the magnitudes that round to it. Bands of
different numbers have nothing in common: neighbours meet at most in a common end, and one of their
significands is odd, so that its band lacks its ends. So a numeral is written for one number only.

* **`Number.Inside`** — a magnitude is in the band of a number.
* **`Number.eq_of_inside`** — no magnitude is in two bands.
* **`Number.shortest_inside`** — the digits found are in the band. Where the search for few digits fails,
  eighteen of them are closer than a quarter of a unit.
* **`Number.render_injective`**
-/

namespace FlowTyping.Number

variable {m m' : Nat} {e e' : Int} {q : ℚ}

/-! ## Bands -/

/-- Quarter units between a number and the lower end of its band. -/
def belowOf (m : Nat) (e : Int) : Nat := if m = 2 ^ 52 ∧ leastExponent < e then 1 else 2

theorem belowOf_le (m : Nat) (e : Int) : 1 ≤ belowOf m e ∧ belowOf m e ≤ 2 := by
  unfold belowOf
  split <;> omega

/-- The ends of the band of `m · 2 ^ e`. -/
def lowEnd (m : Nat) (e : Int) : ℚ := (4 * m - belowOf m e) * 2 ^ (e - 2)

def highEnd (m : Nat) (e : Int) : ℚ := (4 * m + 2) * 2 ^ (e - 2)

/-- A magnitude is in the band of `m · 2 ^ e`; the ends belong to it if the significand is even. -/
def Inside (m : Nat) (e : Int) (q : ℚ) : Prop :=
  lowEnd m e ≤ q ∧ q ≤ highEnd m e ∧ (m % 2 = 1 → lowEnd m e < q ∧ q < highEnd m e)

/-- A magnitude written in the one way that counts, however large. -/
def IsNormal (m : Nat) (e : Int) : Prop :=
  m < 2 ^ 53 ∧ (2 ^ 52 ≤ m ∨ e = leastExponent) ∧ leastExponent ≤ e

theorem IsDouble.isNormal (hd : IsDouble m e) : IsNormal m e := ⟨hd.1, hd.2.1, hd.2.2.1⟩

/-- The band of a number ends where the one of a later number begins, or before that; they share no end
that belongs to both. -/
theorem highEnd_le_lowEnd (hd : IsNormal m e) (hd' : IsNormal m' e') (hlt : e < e' ∨ e = e' ∧ m < m') :
    highEnd m e ≤ lowEnd m' e' ∧ (m % 2 = 0 → m' % 2 = 0 → highEnd m e < lowEnd m' e') := by
  have hpos : (0 : ℚ) < 2 ^ (e - 2) := by positivity
  have hbelow : (belowOf m' e' : ℚ) ≤ 2 := by exact_mod_cast (belowOf_le m' e').2
  rcases hlt with hlt | ⟨rfl, hlt⟩
  · -- the unit of the later number is at least twice as large
    have hunit : (2 : ℚ) * 2 ^ (e - 2) ≤ 2 ^ (e' - 2) := by
      calc (2 : ℚ) * 2 ^ (e - 2) = 2 ^ (e - 2 + 1) := by rw [zpow_add_one₀ (by norm_num)]; ring
        _ ≤ 2 ^ (e' - 2) := zpow_le_zpow_right₀ (by norm_num) (by omega)
    have hm : (4 * m + 2 : ℚ) ≤ 2 ^ 55 - 2 := by
      have hbound := hd.1
      have hnat : 4 * m + 2 + 2 ≤ 2 ^ 55 := by omega
      have hcast : ((4 * m + 2 + 2 : Nat) : ℚ) ≤ ((2 ^ 55 : Nat) : ℚ) := by exact_mod_cast hnat
      push_cast at hcast
      linarith
    have hm' : (2 ^ 54 - 1 : ℚ) ≤ 4 * m' - belowOf m' e' := by
      have hleast : leastExponent < e' := by have := hd.2.2; omega
      have hnormal : 2 ^ 52 ≤ m' := hd'.2.1.resolve_right (by omega)
      have hnat : 2 ^ 54 + belowOf m' e' ≤ 4 * m' + 1 := by
        unfold belowOf
        split <;> omega
      have hcast : ((2 ^ 54 + belowOf m' e' : Nat) : ℚ) ≤ ((4 * m' + 1 : Nat) : ℚ) := by
        exact_mod_cast hnat
      push_cast at hcast
      linarith
    have hmiddle : ((2 ^ 55 - 2 : ℚ)) * 2 ^ (e - 2) ≤ lowEnd m' e' := by
      calc ((2 ^ 55 - 2 : ℚ)) * 2 ^ (e - 2) = (2 ^ 54 - 1) * (2 * 2 ^ (e - 2)) := by ring
        _ ≤ (2 ^ 54 - 1) * 2 ^ (e' - 2) := by
            apply mul_le_mul_of_nonneg_left hunit
            norm_num
        _ ≤ lowEnd m' e' := by
            apply mul_le_mul_of_nonneg_right hm'
            positivity
    refine ⟨le_trans (mul_le_mul_of_nonneg_right hm hpos.le) hmiddle, fun heven _ => ?_⟩
    have hless : (4 * m + 2 : ℚ) < 2 ^ 55 - 2 := by
      have hbound := hd.1
      have hnat : 4 * m + 2 + 2 < 2 ^ 55 := by omega
      have hcast : ((4 * m + 2 + 2 : Nat) : ℚ) < ((2 ^ 55 : Nat) : ℚ) := by exact_mod_cast hnat
      push_cast at hcast
      linarith
    exact lt_of_lt_of_le (mul_lt_mul_of_pos_right hless hpos) hmiddle
  · -- the same unit: numbers that lie beside each other share an end, but not if both are even
    constructor
    · have hcast : (m + 1 : ℚ) ≤ m' := by exact_mod_cast hlt
      apply mul_le_mul_of_nonneg_right _ hpos.le
      linarith
    · intro heven heven'
      have hcast : (m + 2 : ℚ) ≤ m' := by exact_mod_cast (by omega : m + 2 ≤ m')
      apply mul_lt_mul_of_pos_right _ hpos
      linarith

/-- No magnitude is in the bands of two numbers. -/
theorem eq_of_inside (hd : IsNormal m e) (hd' : IsNormal m' e') (hq : Inside m e q)
    (hq' : Inside m' e' q) : m = m' ∧ e = e' := by
  have hapart {m m' : Nat} {e e' : Int} (hd : IsNormal m e) (hd' : IsNormal m' e')
      (hq : Inside m e q) (hq' : Inside m' e' q) : ¬ (e < e' ∨ e = e' ∧ m < m') := by
    intro hlt
    obtain ⟨hle, hstrict⟩ := highEnd_le_lowEnd hd hd' hlt
    rcases Nat.mod_two_eq_zero_or_one m with hm | hm
    · rcases Nat.mod_two_eq_zero_or_one m' with hm' | hm'
      · exact absurd (lt_of_le_of_lt hq.2.1 (hstrict hm hm')) (not_lt.2 hq'.1)
      · exact absurd (lt_of_le_of_lt (le_trans hq.2.1 hle) (hq'.2.2 hm').1) (lt_irrefl q)
    · exact absurd (lt_of_lt_of_le (hq.2.2 hm).2 hle) (not_lt.2 hq'.1)
  have h1 := hapart hd hd' hq hq'
  have h2 := hapart hd' hd hq' hq
  omega

/-! ## The band in whole numbers -/

/-- A power is a quotient of powers with natural exponents. -/
theorem pow_toNat_eq {b : ℚ} (hb : b ≠ 0) (k : Int) : b ^ k.toNat = b ^ k * b ^ (-k).toNat := by
  rcases Int.le_total 0 k with hk | hk
  · rw [show (-k).toNat = 0 by omega, pow_zero, mul_one, ← zpow_natCast, Int.toNat_of_nonneg hk]
  · rw [show k.toNat = 0 by omega, pow_zero, ← zpow_natCast, Int.toNat_of_nonneg (by omega),
      ← zpow_add₀ hb, add_neg_cancel, zpow_zero]

section Band

variable (m : Nat) (e : Int)

theorem den_band_pos : (0 : ℚ) < (band m e).den := by
  show (0 : ℚ) < ((2 ^ (2 - e).toNat : Nat) : ℚ)
  positivity

/-- The ends and the middle of the band, over their common denominator. -/
theorem band_scaled (n : Nat) :
    ((n * 2 ^ (e - 2).toNat : Nat) : ℚ) = n * 2 ^ (e - 2) * (band m e).den := by
  have hden : (((band m e).den : Nat) : ℚ) = 2 ^ (-(e - 2)).toNat := by
    show ((2 ^ (2 - e).toNat : Nat) : ℚ) = _
    rw [show -(e - 2) = 2 - e by omega]
    push_cast
    rfl
  rw [hden]
  push_cast
  rw [pow_toNat_eq (by norm_num), mul_assoc]

theorem band_low (hm : m ≠ 0) : ((band m e).low : ℚ) = lowEnd m e * (band m e).den := by
  have hlow : (band m e).low = (4 * m - belowOf m e) * 2 ^ (e - 2).toNat := by
    show (4 * m - if (decide (m = 2 ^ 52) && decide (leastExponent < e)) = true then 1 else 2) * _ = _
    unfold belowOf
    simp only [Bool.and_eq_true, decide_eq_true_eq]
  have hle : belowOf m e ≤ 4 * m := by
    have := belowOf_le m e
    omega
  rw [hlow, band_scaled, Nat.cast_sub hle, lowEnd]
  push_cast
  rfl

theorem band_high : ((band m e).high : ℚ) = highEnd m e * (band m e).den := by
  show (((4 * m + 2) * 2 ^ (e - 2).toNat : Nat) : ℚ) = _
  rw [band_scaled, highEnd]
  push_cast
  rfl

theorem band_value : ((band m e).value : ℚ) = m * 2 ^ e * (band m e).den := by
  show ((4 * m * 2 ^ (e - 2).toNat : Nat) : ℚ) = _
  rw [band_scaled]
  have hpower : (2 : ℚ) ^ e = 4 * 2 ^ (e - 2) := by
    rw [show (4 : ℚ) = 2 ^ (2 : Int) by norm_num, ← zpow_add₀ (by norm_num)]
    congr 1
    omega
  rw [hpower]
  push_cast
  ring

end Band

/-- What the search for digits finds is in the band. -/
theorem contains_inside (hm : m ≠ 0) {c : Nat} {k : Int} (hc : (band m e).contains c k = true) :
    Inside m e (c * 10 ^ k) := by
  have hscale : (0 : ℚ) < (10 ^ (-k).toNat : Nat) * (band m e).den := by
    apply mul_pos _ (den_band_pos m e)
    positivity
  have hx : ((c * 10 ^ k.toNat * (band m e).den : Nat) : ℚ) =
      c * 10 ^ k * ((10 ^ (-k).toNat : Nat) * (band m e).den) := by
    push_cast
    rw [pow_toNat_eq (by norm_num) k]
    ring
  have hlow : (((band m e).low * 10 ^ (-k).toNat : Nat) : ℚ) =
      lowEnd m e * ((10 ^ (-k).toNat : Nat) * (band m e).den) := by
    push_cast
    rw [band_low m e hm]
    ring
  have hhigh : (((band m e).high * 10 ^ (-k).toNat : Nat) : ℚ) =
      highEnd m e * ((10 ^ (-k).toNat : Nat) * (band m e).den) := by
    push_cast
    rw [band_high]
    ring
  unfold Band.contains at hc
  rcases Nat.mod_two_eq_zero_or_one m with heven | hodd
  · have hclosed : (band m e).closed = true := beq_iff_eq.2 heven
    simp only [hclosed, if_true, Bool.and_eq_true, decide_eq_true_eq] at hc
    refine ⟨?_, ?_, fun h => absurd h (by omega)⟩
    · apply le_of_mul_le_mul_right _ hscale
      rw [← hlow, ← hx]
      exact_mod_cast hc.1
    · apply le_of_mul_le_mul_right _ hscale
      rw [← hhigh, ← hx]
      exact_mod_cast hc.2
  · have hopen : (band m e).closed = false := beq_eq_false_iff_ne.2 (by omega)
    simp only [hopen, Bool.false_eq_true, if_false, Bool.and_eq_true, decide_eq_true_eq] at hc
    have hstrict : lowEnd m e < c * 10 ^ k ∧ c * 10 ^ k < highEnd m e := by
      constructor
      · apply lt_of_mul_lt_mul_right _ hscale.le
        rw [← hlow, ← hx]
        exact_mod_cast hc.1
      · apply lt_of_mul_lt_mul_right _ hscale.le
        rw [← hhigh, ← hx]
        exact_mod_cast hc.2
    exact ⟨hstrict.1.le, hstrict.2.le, fun _ => hstrict⟩

theorem pick_contains {b : Band} {k : Int} {c : Nat} (hp : b.pick k = some c) : b.contains c k = true := by
  unfold Band.pick at hp
  simp only at hp
  split at hp
  · rename_i hlow hhigh
    obtain rfl := Option.some.inj hp
    split
    · exact hlow
    · split
      · exact hhigh
      · split
        · exact hlow
        · exact hhigh
  · rename_i hlow _
    obtain rfl := Option.some.inj hp
    exact hlow
  · rename_i _ hhigh
    obtain rfl := Option.some.inj hp
    exact hhigh
  · simp at hp

/-! ## The power of ten of the first digit -/

/-- A power of ten is below a quotient, in whole numbers. -/
theorem pow_le_div_iff {num den : Nat} (hden : 0 < den) (x : Int) :
    10 ^ x.toNat * den ≤ num * 10 ^ (-x).toNat ↔ (10 : ℚ) ^ x ≤ num / den := by
  have hden : (0 : ℚ) < den := by exact_mod_cast hden
  have hdown : (0 : ℚ) < 10 ^ (-x).toNat := by positivity
  rw [le_div_iff₀ hden, ← mul_le_mul_iff_left₀ hdown, mul_right_comm, ← pow_toNat_eq (by norm_num) x]
  exact_mod_cast Iff.rfl

/-- The search for the power of ten ends below the number, if its last candidate is. -/
theorem decimalExponent_le {num den : Nat} (hden : 0 < den) {fuel : Nat} {start : Int}
    (hlast : (10 : ℚ) ^ (start - fuel) ≤ num / den) :
    (10 : ℚ) ^ decimalExponent num den fuel start ≤ num / den := by
  induction fuel generalizing start with
  | zero => simpa [decimalExponent] using hlast
  | succ fuel ih =>
    rw [decimalExponent]
    split
    · rename_i hfound
      exact (pow_le_div_iff hden start).1 hfound
    · apply ih
      rwa [show start - 1 - (fuel : Int) = start - ((fuel + 1 : Nat) : Int) by push_cast; omega]

/-- A power of ten that the rational bounds on the logarithm of two put below a power of two. -/
theorem ten_pow_le_two_pow {y L : Int} (hup : 0 ≤ y → 10 * y ≤ 3 * L)
    (hdown : y < 0 → 0 ≤ L ∨ 28 * -L ≤ 93 * -y) : (10 : ℚ) ^ y ≤ 2 ^ L := by
  rcases Int.lt_or_le y 0 with hy | hy
  · rcases hdown hy with hL | hL
    · calc (10 : ℚ) ^ y ≤ 1 := zpow_le_one_of_nonpos₀ (by norm_num) hy.le
        _ ≤ 2 ^ L := one_le_zpow₀ (by norm_num) hL
    · -- `2 ^ 93 ≤ 10 ^ 28`
      obtain ⟨Y, rfl⟩ : ∃ Y : Nat, y = -Y := ⟨(-y).toNat, by omega⟩
      have hM : 28 * (-L).toNat ≤ 93 * Y := by omega
      have hpower : (2 : ℚ) ^ (-L).toNat ≤ 10 ^ Y := by
        refine le_of_pow_le_pow_left₀ (n := 93) (by norm_num) (by positivity) ?_
        calc ((2 : ℚ) ^ (-L).toNat) ^ 93 = (2 ^ 93) ^ (-L).toNat := by
              rw [← pow_mul, ← pow_mul, Nat.mul_comm]
          _ ≤ (10 ^ 28) ^ (-L).toNat := pow_le_pow_left₀ (by norm_num) (by norm_num) _
          _ = 10 ^ (28 * (-L).toNat) := by rw [← pow_mul]
          _ ≤ 10 ^ (93 * Y) := pow_le_pow_right₀ (by norm_num) hM
          _ = (10 ^ Y) ^ 93 := by rw [← pow_mul, Nat.mul_comm]
      have hone : (2 : ℚ) ^ L * 2 ^ (-L).toNat ≥ 1 := by
        rw [← pow_toNat_eq (by norm_num)]
        exact one_le_pow₀ (by norm_num)
      rw [zpow_neg, zpow_natCast, inv_le_iff_one_le_mul₀ (by positivity)]
      calc (1 : ℚ) ≤ 2 ^ L * 2 ^ (-L).toNat := hone
        _ ≤ 2 ^ L * 10 ^ Y := by
            apply mul_le_mul_of_nonneg_left hpower
            positivity
  · -- `10 ^ 3 ≤ 2 ^ 10`
    obtain ⟨Y, rfl⟩ : ∃ Y : Nat, y = Y := ⟨y.toNat, by omega⟩
    obtain ⟨M, rfl⟩ : ∃ M : Nat, L = M := ⟨L.toNat, by omega⟩
    have hle : 10 * Y ≤ 3 * M := by omega
    rw [zpow_natCast, zpow_natCast]
    refine le_of_pow_le_pow_left₀ (n := 3) (by norm_num) (by positivity) ?_
    calc ((10 : ℚ) ^ Y) ^ 3 = (10 ^ 3) ^ Y := by rw [← pow_mul, ← pow_mul, Nat.mul_comm]
      _ ≤ (2 ^ 10) ^ Y := pow_le_pow_left₀ (by norm_num) (by norm_num) Y
      _ = 2 ^ (10 * Y) := by rw [← pow_mul]
      _ ≤ 2 ^ (3 * M) := pow_le_pow_right₀ (by norm_num) hle
      _ = (2 ^ M) ^ 3 := by rw [← pow_mul, Nat.mul_comm]

/-- Number of binary digits of a double, as far as the search for the power of ten needs it. -/
theorem log2_band (hd : IsDouble m e) (hm : m ≠ 0) :
    (2 : ℚ) ^ (((band m e).value.log2 : Int) - ((band m e).den.log2 : Int)) ≤ m * 2 ^ e ∧
      e ≤ ((band m e).value.log2 : Int) - ((band m e).den.log2 : Int) ∧
      ((band m e).value.log2 : Int) - ((band m e).den.log2 : Int) ≤ e + 52 := by
  have hvalue : (band m e).value = 4 * m * 2 ^ (e - 2).toNat := rfl
  have hden : (band m e).den = 2 ^ (2 - e).toNat := rfl
  have hne : (band m e).value ≠ 0 := by
    rw [hvalue]
    positivity
  have hlog : (band m e).den.log2 = (2 - e).toNat := by rw [hden, Nat.log2_two_pow]
  have hleast : (e - 2).toNat + 2 ≤ (band m e).value.log2 := by
    rw [Nat.le_log2 hne, hvalue, Nat.pow_add, Nat.mul_comm]
    apply Nat.mul_le_mul_right
    omega
  have hmost : (band m e).value.log2 < (e - 2).toNat + 55 := by
    rw [Nat.log2_lt hne, hvalue, Nat.pow_add, Nat.mul_comm]
    apply Nat.mul_lt_mul_of_pos_left
    · have := hd.1
      omega
    · positivity
  refine ⟨?_, by omega, by omega⟩
  have hpos := den_band_pos m e
  apply le_of_mul_le_mul_right _ hpos
  rw [← band_value, hlog, hden]
  push_cast
  rw [← zpow_natCast, ← zpow_add₀ (by norm_num), sub_add_cancel, zpow_natCast]
  exact_mod_cast Nat.log2_self_le hne

/-- The first digit that is tried does not stand for more than the number. -/
theorem firstPower_le (hd : IsDouble m e) (hm : m ≠ 0) :
    (10 : ℚ) ^ decimalExponent (band m e).value (band m e).den 8
      ((((band m e).value.log2 : Int) - ((band m e).den.log2 : Int) + 1) * 30103 / 100000 + 1) ≤
        m * 2 ^ e := by
  obtain ⟨hpower, hleast, hmost⟩ := log2_band hd hm
  have hpos := den_band_pos m e
  have hvalue : ((band m e).value : ℚ) / (band m e).den = m * 2 ^ e := by
    rw [band_value, mul_div_assoc, div_self hpos.ne', mul_one]
  rw [← hvalue] at hpower ⊢
  apply decimalExponent_le (by exact_mod_cast hpos)
  refine le_trans (ten_pow_le_two_pow ?_ ?_) hpower
  · have := hd.2.2
    unfold leastExponent greatestExponent at this
    omega
  · have := hd.2.2
    unfold leastExponent greatestExponent at this
    omega

/-! ## The digits that are found -/

/-- Eighteen digits are closer to the number than a quarter of a unit. -/
theorem truncated_inside (hd : IsDouble m e) {x : Int} (hx : (10 : ℚ) ^ x ≤ m * 2 ^ e) :
    Inside m e (((band m e).value * 10 ^ (17 - x).toNat / ((band m e).den * 10 ^ (x - 17).toNat) : Nat) *
      10 ^ (x - 17)) := by
  have hunit : (0 : ℚ) < 2 ^ (e - 2) := by positivity
  have hgrid : (0 : ℚ) < 10 ^ (x - 17) := by positivity
  have hvalue : (m * 2 ^ e : ℚ) = 4 * m * 2 ^ (e - 2) := by
    rw [show e = e - 2 + 2 by omega, zpow_add₀ (by norm_num)]
    norm_num
    ring
  have hfine : (10 : ℚ) ^ (x - 17) < 2 ^ (e - 2) := by
    have hsmall : (m : ℚ) < 2 ^ 53 := by exact_mod_cast hd.1
    have hle : (10 : ℚ) ^ (x - 17) * 10 ^ 17 ≤ 4 * m * 2 ^ (e - 2) := by
      rw [← hvalue, ← zpow_natCast, ← zpow_add₀ (by norm_num)]
      simpa using hx
    have hlt : 4 * (m : ℚ) * 2 ^ (e - 2) < 10 ^ 17 * 2 ^ (e - 2) := by
      apply mul_lt_mul_of_pos_right _ hunit
      calc 4 * (m : ℚ) < 4 * 2 ^ 53 := by linarith
        _ < 10 ^ 17 := by norm_num
    nlinarith
  generalize hc : (band m e).value * 10 ^ (17 - x).toNat / ((band m e).den * 10 ^ (x - 17).toNat) = c
  -- the digits are the quotient, rounded down
  have hpos : 0 < (band m e).den * 10 ^ (x - 17).toNat := by
    have hden : 0 < (band m e).den := by exact_mod_cast den_band_pos m e
    positivity
  have hscaled : (((band m e).value * 10 ^ (17 - x).toNat : Nat) : ℚ) * 10 ^ (x - 17) =
      m * 2 ^ e * ((band m e).den * 10 ^ (x - 17).toNat : Nat) := by
    push_cast
    rw [band_value, pow_toNat_eq (by norm_num) (x - 17), show -(x - 17) = 17 - x by omega]
    ring
  have hD : (0 : ℚ) < ((band m e).den * 10 ^ (x - 17).toNat : Nat) := by exact_mod_cast hpos
  have hle : (c : ℚ) * 10 ^ (x - 17) ≤ m * 2 ^ e := by
    apply le_of_mul_le_mul_right _ hD
    rw [← hscaled, mul_right_comm]
    apply mul_le_mul_of_nonneg_right _ hgrid.le
    rw [← hc]
    exact_mod_cast Nat.div_mul_le_self _ _
  have hlt : (m * 2 ^ e : ℚ) < (c + 1) * 10 ^ (x - 17) := by
    apply lt_of_mul_lt_mul_right _ hD.le
    rw [← hscaled, mul_right_comm]
    apply mul_lt_mul_of_pos_right _ hgrid
    rw [← hc]
    exact_mod_cast (Nat.div_lt_iff_lt_mul hpos).1 (Nat.lt_succ_self _)
  have hbelow : (1 : ℚ) ≤ belowOf m e := by exact_mod_cast (belowOf_le m e).1
  have hstrict : lowEnd m e < c * 10 ^ (x - 17) ∧ c * 10 ^ (x - 17) < highEnd m e := by
    constructor
    · calc lowEnd m e ≤ (4 * m - 1) * 2 ^ (e - 2) := by
            apply mul_le_mul_of_nonneg_right _ hunit.le
            linarith
        _ < c * 10 ^ (x - 17) := by linarith
    · calc (c * 10 ^ (x - 17) : ℚ) ≤ 4 * m * 2 ^ (e - 2) := by linarith
        _ < highEnd m e := by
            apply mul_lt_mul_of_pos_right _ hunit
            linarith
  exact ⟨hstrict.1.le, hstrict.2.le, fun _ => hstrict⟩

/-- The digits that are found stand for a magnitude in the band. -/
theorem search_inside (hd : IsDouble m e) (hm : m ≠ 0) {x : Int} (hx : (10 : ℚ) ^ x ≤ m * 2 ^ e)
    {fuel n : Nat} (hn : fuel + n = 18) :
    ∃ c k, (band m e).search x fuel n = trimmed c k ∧ Inside m e (c * 10 ^ k) := by
  induction fuel generalizing n with
  | zero =>
    obtain rfl : n = 18 := by omega
    refine ⟨_, x - 17, ?_, truncated_inside hd hx⟩
    rw [Band.search, show ((18 : Nat) : Int) - 1 - x = 17 - x by omega,
      show x - ((18 : Nat) : Int) + 1 = x - 17 by omega]
  | succ fuel ih =>
    rw [Band.search]
    cases hp : (band m e).pick (x - n + 1) with
    | some c => exact ⟨c, x - n + 1, rfl, contains_inside hm (pick_contains hp)⟩
    | none => exact ih (by omega)

theorem Inside.pos (hm : m ≠ 0) (hq : Inside m e q) : 0 < q := by
  have hm1 : (1 : ℚ) ≤ m := by exact_mod_cast Nat.one_le_iff_ne_zero.2 hm
  have hbelow : (belowOf m e : ℚ) ≤ 2 := by exact_mod_cast (belowOf_le m e).2
  have hlow : 0 < lowEnd m e := by
    apply mul_pos _ (by positivity)
    linarith
  exact lt_of_lt_of_le hlow hq.1

/-- The digits of a number stand for a magnitude in its band. -/
theorem shortest_inside (hd : IsDouble m e) (hm : m ≠ 0) :
    AllDigits (shortest m e).1 ∧ (shortest m e).1 ≠ [] ∧
      Inside m e (decimalValue (shortest m e).1 (shortest m e).2) := by
  obtain ⟨c, k, hsearch, hinside⟩ :=
    search_inside hd hm (firstPower_le hd hm) (show 17 + 1 = 18 from rfl)
  have hshortest : shortest m e = trimmed c k := hsearch
  have hc : c ≠ 0 := by
    rintro rfl
    have hpos := hinside.pos hm
    simp at hpos
  rw [hshortest]
  refine ⟨allDigits_trimmed c k, trimmed_ne_nil hc k, ?_⟩
  rw [trimmed_value]
  exact hinside

/-! ## Numerals -/

/-- A finite number is written as a numeral of its sign, for zero or for a magnitude in its band. -/
theorem numeralValue_render (negative : Bool) (hd : IsDouble m e) :
    ∃ q, numeralValue (render (.finite negative m e hd)).toList = (negative, q) ∧
      (m = 0 ∧ q = 0 ∨ m ≠ 0 ∧ Inside m e q) := by
  unfold render
  rw [String.toList_ofList]
  by_cases hm : m = 0
  · refine ⟨0, ?_, .inl ⟨hm, rfl⟩⟩
    have hzero : AllDigits ['0'] := by simp [AllDigits]
    have hnone : AllDigits [] := by simp [AllDigits]
    have hparts := numeralValue_parts hzero (by simp) hnone none negative
    rw [if_pos hm]
    simpa [digitsValue, pointed, exponentText] using hparts
  · obtain ⟨hdigits, hne, hinside⟩ := shortest_inside hd hm
    refine ⟨_, ?_, .inr ⟨hm, hinside⟩⟩
    rw [if_neg hm]
    exact numeralValue_write hdigits hne _ negative

theorem render_ne_infinite (negative negative' : Bool) (hd : IsDouble m e) :
    render (.finite negative m e hd) ≠ render (.infinite negative') := by
  intro heq
  obtain ⟨q, hq, hcase⟩ := numeralValue_render negative hd
  -- the words for the infinite numbers have no digits
  have hzero : (numeralValue (render (.infinite negative')).toList).2 = 0 := by
    have hdigits : (splitNumeral (render (.infinite negative')).toList).2.1 = 0 := by
      cases negative' <;> decide
    unfold numeralValue
    simp only [hdigits, Nat.cast_zero, zero_mul]
  rw [← heq, hq] at hzero
  obtain ⟨rfl, -⟩ | ⟨hm, hinside⟩ := hcase
  · have hchars := congrArg String.toList heq
    unfold render at hchars
    rw [String.toList_ofList, if_pos rfl] at hchars
    cases negative <;> cases negative' <;> simp at hchars
  · exact absurd hzero (hinside.pos hm).ne'

/-- **Different numbers are written differently.** -/
theorem render_injective : Function.Injective render := by
  intro a b hab
  have hvalue : numeralValue a.render.toList = numeralValue b.render.toList := by rw [hab]
  cases a with
  | finite negative m e hd =>
    cases b with
    | finite negative' m' e' hd' =>
      obtain ⟨q, hq, hcase⟩ := numeralValue_render negative hd
      obtain ⟨q', hq', hcase'⟩ := numeralValue_render negative' hd'
      rw [hq, hq'] at hvalue
      obtain ⟨rfl, rfl⟩ := Prod.mk.inj hvalue
      have hsame : m = m' ∧ e = e' := by
        rcases hcase with ⟨rfl, rfl⟩ | ⟨hm, hinside⟩
        · rcases hcase' with ⟨rfl, -⟩ | ⟨hm', hinside'⟩
          · -- a zero has the least exponent
            have he := hd.2.1.resolve_left (by decide)
            have he' := hd'.2.1.resolve_left (by decide)
            exact ⟨rfl, he.trans he'.symm⟩
          · exact absurd (hinside'.pos hm') (lt_irrefl 0)
        · rcases hcase' with ⟨-, rfl⟩ | ⟨hm', hinside'⟩
          · exact absurd (hinside.pos hm) (lt_irrefl 0)
          · exact eq_of_inside hd.isNormal hd'.isNormal hinside hinside'
      obtain ⟨rfl, rfl⟩ := hsame
      rfl
    | infinite negative' => exact absurd hab (render_ne_infinite negative negative' hd)
  | infinite negative =>
    cases b with
    | finite negative' m' e' hd' => exact absurd hab.symm (render_ne_infinite negative' negative hd')
    | infinite negative' =>
      cases negative <;> cases negative' <;> first | rfl | exact absurd hab (by decide)

end FlowTyping.Number
