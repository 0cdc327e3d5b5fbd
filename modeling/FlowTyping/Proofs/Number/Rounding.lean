import FlowTyping.Proofs.Number.Shortest

/-!
# A numeral reads back as its number

Reading rounds a decimal to the nearest magnitude, a tie to the even significand. Whatever is rounded
lies in the band of the magnitude it is rounded to, and no magnitude is in two bands: so the digits that
are written for a number, which lie in its band, are read as that number.

* **`Number.roundDiv_rounded`** — a rounded quotient is at most half a unit away, less if it is odd.
* **`Number.unitExponent_bounds`** — the chosen exponent leaves 53 bits before the point.
* **`Number.ofRatio_of_inside`** — a fraction in the band of a number is rounded to it.
* **`Number.parse_render`**
-/

namespace FlowTyping.Number

variable {m : Nat} {e : Int} {q : ℚ}

/-! ## Rounding to whole units -/

/-- A magnitude is at most half a unit away from `m · 2 ^ e`, and less than that if `m` is odd. -/
def Rounded (m : Nat) (e : Int) (q : ℚ) : Prop :=
  (4 * m - 2) * 2 ^ (e - 2) ≤ q ∧ q ≤ highEnd m e ∧
    (m % 2 = 1 → (4 * m - 2) * 2 ^ (e - 2) < q ∧ q < highEnd m e)

/-- Twice a rounded quotient, in whole numbers. -/
theorem roundDiv_bounds (n : Nat) {d : Nat} (hd : 0 < d) :
    2 * (roundDiv n d * d) ≤ 2 * n + d ∧ 2 * n ≤ 2 * (roundDiv n d * d) + d ∧
      (roundDiv n d % 2 = 1 → 2 * (roundDiv n d * d) < 2 * n + d ∧ 2 * n < 2 * (roundDiv n d * d) + d) := by
  have hn : n / d * d + n % d = n := Nat.div_add_mod' n d
  have hmod : n % d < d := Nat.mod_lt n hd
  have hsucc : (n / d + 1) * d = n / d * d + d := Nat.succ_mul _ _
  unfold roundDiv
  simp only
  split
  · omega
  · split
    · rw [hsucc]
      omega
    · split
      · omega
      · rw [hsucc]
        omega

/-- A rounded quotient is at most half a unit away, less if it is odd. -/
theorem roundDiv_rounded {n d : Nat} (hd : 0 < d) (hq : q * d = n * 2 ^ e) :
    Rounded (roundDiv n d) e q := by
  obtain ⟨hlow, hhigh, hstrict⟩ := roundDiv_bounds n hd
  generalize roundDiv n d = r at hlow hhigh hstrict
  have hpos : (0 : ℚ) < d := by exact_mod_cast hd
  have hunit : (0 : ℚ) < 2 ^ (e - 2) := by positivity
  have hpower : (2 : ℚ) ^ e = 4 * 2 ^ (e - 2) := by
    rw [show (4 : ℚ) = 2 ^ (2 : Int) by norm_num, ← zpow_add₀ (by norm_num)]
    congr 1
    omega
  rw [hpower] at hq
  -- everything over the common denominator, in quarter units
  have hle {x y : Nat} (hxy : x ≤ y) : (x : ℚ) * (2 * 2 ^ (e - 2)) ≤ y * (2 * 2 ^ (e - 2)) := by
    apply mul_le_mul_of_nonneg_right _ (by positivity)
    exact_mod_cast hxy
  have hlt {x y : Nat} (hxy : x < y) : (x : ℚ) * (2 * 2 ^ (e - 2)) < y * (2 * 2 ^ (e - 2)) := by
    apply mul_lt_mul_of_pos_right _ (by positivity)
    exact_mod_cast hxy
  refine ⟨?_, ?_, fun hodd => ⟨?_, ?_⟩⟩
  · apply le_of_mul_le_mul_right _ hpos
    have h := hle hlow
    push_cast at h
    linarith
  · apply le_of_mul_le_mul_right _ hpos
    have h := hle hhigh
    push_cast at h
    unfold highEnd
    linarith
  · apply lt_of_mul_lt_mul_right _ hpos.le
    have h := hlt (hstrict hodd).1
    push_cast at h
    linarith
  · apply lt_of_mul_lt_mul_right _ hpos.le
    have h := hlt (hstrict hodd).2
    push_cast at h
    unfold highEnd
    linarith

/-! ## The exponent -/

section Exponent

variable {num den : Nat}

/-- The numbers of binary digits bound a quotient from both sides. -/
theorem div_log2_bounds (hn : num ≠ 0) (hd : den ≠ 0) :
    (2 : ℚ) ^ ((num.log2 : Int) - den.log2 - 1) < num / den ∧
      (num : ℚ) / den < 2 ^ ((num.log2 : Int) - den.log2 + 1) := by
  have hpos : (0 : ℚ) < den := by exact_mod_cast Nat.pos_of_ne_zero hd
  have hbelow {n : Nat} (hn : n ≠ 0) : (2 : ℚ) ^ (n.log2 : Int) ≤ n := by
    rw [zpow_natCast]
    exact_mod_cast Nat.log2_self_le hn
  have habove (n : Nat) : (n : ℚ) < 2 ^ ((n.log2 : Int) + 1) := by
    rw [← Nat.cast_succ, zpow_natCast]
    exact_mod_cast Nat.lt_log2_self
  constructor
  · rw [lt_div_iff₀ hpos]
    calc (2 : ℚ) ^ ((num.log2 : Int) - den.log2 - 1) * den
      _ < 2 ^ ((num.log2 : Int) - den.log2 - 1) * 2 ^ ((den.log2 : Int) + 1) := by
          apply mul_lt_mul_of_pos_left (habove den)
          positivity
      _ = 2 ^ (num.log2 : Int) := by
          rw [← zpow_add₀ (by norm_num)]
          congr 1
          omega
      _ ≤ num := hbelow hn
  · rw [div_lt_iff₀ hpos]
    calc (num : ℚ) < 2 ^ ((num.log2 : Int) + 1) := habove num
      _ = 2 ^ ((num.log2 : Int) - den.log2 + 1) * 2 ^ (den.log2 : Int) := by
          rw [← zpow_add₀ (by norm_num)]
          congr 1
          omega
      _ ≤ 2 ^ ((num.log2 : Int) - den.log2 + 1) * den := by
          apply mul_le_mul_of_nonneg_left (hbelow hd)
          positivity

/-- A quotient is below a power of two, in whole numbers. -/
theorem div_lt_two_pow_iff (hd : den ≠ 0) (g : Int) :
    (if 0 ≤ g then decide (num < den * 2 ^ (52 + g.toNat))
      else decide (num * 2 ^ ((-g).toNat) < den * 2 ^ (52 : Nat))) = true ↔
        (num : ℚ) / den < 2 ^ (g + 52) := by
  have hpos : (0 : ℚ) < den := by exact_mod_cast Nat.pos_of_ne_zero hd
  have hpower : (2 : ℚ) ^ (g + 52) = 2 ^ g * 2 ^ 52 := by
    rw [zpow_add₀ (by norm_num)]
    rfl
  rw [div_lt_iff₀ hpos, hpower]
  split
  · rename_i hg
    obtain ⟨G, rfl⟩ : ∃ G : Nat, g = G := ⟨g.toNat, by omega⟩
    rw [decide_eq_true_eq, Int.toNat_natCast, zpow_natCast, Nat.add_comm, Nat.pow_add, Nat.mul_comm]
    exact_mod_cast Iff.rfl
  · rename_i hg
    obtain ⟨G, rfl⟩ : ∃ G : Nat, g = -G := ⟨(-g).toNat, by omega⟩
    have hG : (0 : ℚ) < 2 ^ G := by positivity
    rw [decide_eq_true_eq, neg_neg, Int.toNat_natCast, zpow_neg, zpow_natCast, inv_mul_eq_div,
      div_mul_eq_mul_div, lt_div_iff₀ hG, mul_comm ((2 : ℚ) ^ 52)]
    exact_mod_cast Iff.rfl

/-- The chosen exponent leaves 53 bits before the point, or is the least one. -/
theorem unitExponent_bounds (hn : num ≠ 0) (hd : den ≠ 0) :
    leastExponent ≤ unitExponent num den ∧
      (num : ℚ) / den < 2 ^ (unitExponent num den + 53) ∧
      ((2 : ℚ) ^ (unitExponent num den + 52) ≤ num / den ∨ unitExponent num den = leastExponent) := by
  obtain ⟨hbelow, habove⟩ := div_log2_bounds hn hd
  -- the exponent before it is held at the least one
  suffices hfree : ∃ x, unitExponent num den = max leastExponent x ∧
      (2 : ℚ) ^ (x + 52) ≤ num / den ∧ (num : ℚ) / den < 2 ^ (x + 53) by
    obtain ⟨x, hx, hlow, hhigh⟩ := hfree
    refine ⟨hx ▸ le_max_left _ _, lt_of_lt_of_le hhigh ?_, ?_⟩
    · apply zpow_le_zpow_right₀ (by norm_num)
      omega
    · rcases Int.le_total leastExponent x with hle | hle
      · left
        rwa [hx, max_eq_right hle]
      · right
        rw [hx, max_eq_left hle]
  have hlow := @div_lt_two_pow_iff num den hd ((num.log2 : Int) - den.log2 - 52)
  unfold unitExponent
  simp only
  refine ⟨_, rfl, ?_⟩
  -- whether the guess is one too large
  generalize (if 0 ≤ (num.log2 : Int) - den.log2 - 52 then _ else _ : Bool) = low at hlow ⊢
  cases low with
  | true =>
    have hless := hlow.1 rfl
    rw [if_pos rfl]
    constructor
    · rw [show (num.log2 : Int) - den.log2 - 52 - 1 + 52 = num.log2 - den.log2 - 1 by omega]
      exact hbelow.le
    · rwa [show (num.log2 : Int) - den.log2 - 52 - 1 + 53 = num.log2 - den.log2 - 52 + 52 by omega]
  | false =>
    have hmore := not_lt.1 (mt hlow.2 Bool.false_ne_true)
    rw [if_neg Bool.false_ne_true]
    refine ⟨hmore, ?_⟩
    rwa [show (num.log2 : Int) - den.log2 - 52 + 53 = num.log2 - den.log2 + 1 by omega]

end Exponent

/-! ## Fractions -/

/-- The significand and exponent of a rounded magnitude: one that has grown by a bit is halved. -/
def carried (m : Nat) (e : Int) : Nat × Int := if m = 2 ^ 53 then (2 ^ 52, e + 1) else (m, e)

/-- Powers in quarters of the unit. -/
theorem pow_add_eq_quarters (e : Int) (k : Nat) : (2 : ℚ) ^ (e + k) = 2 ^ k * (4 * 2 ^ (e - 2)) := by
  rw [show e + k = (e - 2) + 2 + k by omega, zpow_add₀ (by norm_num), zpow_add₀ (by norm_num), zpow_natCast]
  norm_num
  ring

theorem Rounded.le_pow (hr : Rounded m e q) (hhigh : q < 2 ^ 53 * (4 * 2 ^ (e - 2))) : m ≤ 2 ^ 53 := by
  have hunit : (0 : ℚ) < 2 ^ (e - 2) := by positivity
  have hlt : (4 * m - 2 : ℚ) < 2 ^ 53 * 4 := by
    apply lt_of_mul_lt_mul_right _ hunit.le
    linarith [hr.1]
  have hcast : (m : ℚ) < ((2 ^ 53 + 1 : Nat) : ℚ) := by
    push_cast
    linarith
  exact Nat.lt_succ_iff.1 (by exact_mod_cast hcast)

/-- A magnitude that has grown by a bit is even, and its band ends where the next binade begins. -/
theorem inside_of_carried (he : leastExponent ≤ e) (hhigh : q < 2 ^ 53 * (4 * 2 ^ (e - 2)))
    (hr : Rounded (2 ^ 53) e q) : IsNormal (2 ^ 52) (e + 1) ∧ Inside (2 ^ 52) (e + 1) q := by
  have hunit : (0 : ℚ) < 2 ^ (e - 2) := by positivity
  have hdouble : (2 : ℚ) ^ (e + 1 - 2) = 2 * 2 ^ (e - 2) := by
    rw [show e + 1 - 2 = e - 2 + 1 by omega, zpow_add_one₀ (by norm_num), mul_comm]
  have hbelow : belowOf (2 ^ 52) (e + 1) = 1 := if_pos ⟨rfl, by omega⟩
  have hfloor := hr.1
  push_cast at hfloor
  refine ⟨⟨by norm_num, .inl (Nat.le_refl _), by omega⟩, ?_, ?_, fun hodd => absurd hodd (by norm_num)⟩
  · unfold lowEnd
    rw [hbelow, hdouble]
    push_cast
    linarith
  · unfold highEnd
    rw [hdouble]
    push_cast
    linarith

/-- What is rounded lies in the band of what it is rounded to. -/
theorem inside_of_rounded (he : leastExponent ≤ e) (hlow : (2 : ℚ) ^ (e + 52) ≤ q ∨ e = leastExponent)
    (hhigh : q < 2 ^ (e + 53)) (hr : Rounded m e q) :
    IsNormal (carried m e).1 (carried m e).2 ∧ Inside (carried m e).1 (carried m e).2 q := by
  have hunit : (0 : ℚ) < 2 ^ (e - 2) := by positivity
  have h52 := pow_add_eq_quarters e 52
  have h53 := pow_add_eq_quarters e 53
  push_cast at h52 h53
  rw [h52] at hlow
  rw [h53] at hhigh
  have hmost := hr.le_pow hhigh
  unfold carried
  -- a significand that is rounded up to one digit more is carried to the next power of two
  by_cases hm : m = 2 ^ 53
  · rw [if_pos hm]
    exact inside_of_carried he hhigh (hm ▸ hr)
  · rw [if_neg hm]
    have hceiling := hr.2.1
    refine ⟨⟨by omega, ?_, he⟩, ?_, hr.2.1, fun hodd => ?_⟩
    · rcases hlow with hlow | hleast
      · left
        have hlt : (2 ^ 52 * 4 : ℚ) ≤ 4 * m + 2 := by
          apply le_of_mul_le_mul_right _ hunit
          unfold highEnd at hceiling
          linarith
        have hcast : ((2 ^ 52 * 4 : Nat) : ℚ) ≤ ((4 * m + 2 : Nat) : ℚ) := by
          push_cast
          linarith
        have hnat : 2 ^ 52 * 4 ≤ 4 * m + 2 := by exact_mod_cast hcast
        omega
      · exact .inr hleast
    · -- below a power of two the numbers lie closer, but `q` is not below it
      unfold lowEnd belowOf
      split
      · rename_i hleast
        have hq := hlow.resolve_right (by omega)
        rw [hleast.1]
        push_cast
        linarith
      · exact_mod_cast hr.1
    · have hbelow : belowOf m e = 2 := if_neg fun h => by omega
      unfold lowEnd
      rw [hbelow]
      exact_mod_cast hr.2.2 hodd

/-- **A fraction in the band of a number is rounded to it.** -/
theorem ofRatio_of_inside (negative : Bool) {num den : Nat} (hn : num ≠ 0) (hden : den ≠ 0)
    (hd : IsDouble m e) (hq : Inside m e (num / den)) :
    ofRatio negative num den = some (.finite negative m e hd) := by
  obtain ⟨hleast, hhigh, hlow⟩ := unitExponent_bounds hn hden
  have hpos : (0 : ℚ) < den := by exact_mod_cast Nat.pos_of_ne_zero hden
  have hrounded : Rounded
      (if 0 ≤ unitExponent num den then roundDiv num (den * 2 ^ (unitExponent num den).toNat)
        else roundDiv (num * 2 ^ (-unitExponent num den).toNat) den)
      (unitExponent num den) (num / den) := by
    split
    · rename_i hE
      apply roundDiv_rounded (Nat.mul_pos (Nat.pos_of_ne_zero hden) (Nat.two_pow_pos _))
      push_cast
      rw [← mul_assoc, div_mul_cancel₀ _ hpos.ne', ← zpow_natCast, Int.toNat_of_nonneg hE]
    · rename_i hE
      apply roundDiv_rounded (Nat.pos_of_ne_zero hden)
      push_cast
      rw [div_mul_cancel₀ _ hpos.ne', mul_assoc, ← zpow_natCast, Int.toNat_of_nonneg (by omega),
        ← zpow_add₀ (by norm_num), neg_add_cancel, zpow_zero, mul_one]
  obtain ⟨hnormal, hinside⟩ := inside_of_rounded hleast hlow hhigh hrounded
  obtain ⟨hm, he⟩ := eq_of_inside hnormal hd.isNormal hinside hq
  subst hm he
  unfold ofRatio
  rw [if_neg hn]
  show (if double : IsDouble (carried _ _).1 (carried _ _).2 then
    some (Number.finite negative (carried _ _).1 (carried _ _).2 double) else none) = _
  rw [dif_pos hd]

/-! ## Decimals -/

/-- The number of its digits bounds a number from both sides. -/
theorem digitCount_bounds {c : Nat} (hc : c ≠ 0) :
    (10 : ℚ) ^ ((digitCount c : Int) - 1) ≤ c ∧ (c : ℚ) < 10 ^ (digitCount c : Int) := by
  have hpos : 0 < digitCount c := Nat.length_toDigits_pos
  have hiff {k : Nat} (hk : 0 < k) : digitCount c ≤ k ↔ c < 10 ^ k :=
    Nat.length_toDigits_le_iff (by decide) hk
  obtain ⟨k, hk⟩ : ∃ k, digitCount c = k + 1 := ⟨digitCount c - 1, by omega⟩
  constructor
  · rw [show (digitCount c : Int) - 1 = k by omega, zpow_natCast]
    rcases Nat.eq_zero_or_pos k with rfl | hpositive
    · rw [pow_zero]
      exact_mod_cast Nat.pos_of_ne_zero hc
    · have hle := not_lt.1 (mt (hiff hpositive).2 (by omega))
      exact_mod_cast hle
  · rw [zpow_natCast]
    exact_mod_cast (hiff hpos).1 (Nat.le_refl _)

/-- The bands of all numbers lie between two powers of ten. -/
theorem inside_bounds (hm : m ≠ 0) (hd : IsDouble m e) (hq : Inside m e q) :
    (10 : ℚ) ^ (-330 : Int) ≤ q ∧ q < 10 ^ (310 : Int) := by
  obtain ⟨hsmall, -, hleast, hgreatest⟩ := hd
  constructor
  · have hone : (1 : ℚ) ≤ m := by exact_mod_cast Nat.one_le_iff_ne_zero.2 hm
    have hbelow : (belowOf m e : ℚ) ≤ 2 := by exact_mod_cast (belowOf_le m e).2
    have htwo : (2 : ℚ) ^ (-1075 : Int) = 2 * 2 ^ (-1076 : Int) := by
      rw [show (-1075 : Int) = -1076 + 1 by rfl, zpow_add_one₀ (by norm_num), mul_comm]
    calc (10 : ℚ) ^ (-330 : Int) ≤ 2 ^ (-1075 : Int) :=
          ten_pow_le_two_pow (fun h => absurd h (by decide)) fun _ => .inr (by decide)
      _ = 2 * 2 ^ (-1076 : Int) := htwo
      _ ≤ (4 * m - belowOf m e) * 2 ^ (e - 2) := by
          apply mul_le_mul (by linarith) _ (by positivity) (by linarith)
          apply zpow_le_zpow_right₀ (by norm_num)
          unfold leastExponent at hleast
          omega
      _ ≤ q := hq.1
  · have hmost : (4 * m + 2 : ℚ) ≤ 2 ^ 55 := by
      have hnat : 4 * m + 2 ≤ 2 ^ 55 := by omega
      exact_mod_cast hnat
    calc q ≤ (4 * m + 2) * 2 ^ (e - 2) := hq.2.1
      _ ≤ 2 ^ 55 * 2 ^ (969 : Int) := by
          apply mul_le_mul hmost _ (by positivity) (by positivity)
          apply zpow_le_zpow_right₀ (by norm_num)
          unfold greatestExponent at hgreatest
          omega
      _ = 2 ^ 1024 := by rw [show (969 : Int) = (969 : Nat) from rfl, zpow_natCast, ← pow_add]
      _ < 10 ^ (310 : Int) := by
          have hnat : 2 ^ 1024 < 10 ^ 310 := by decide +kernel
          rw [show (310 : Int) = (310 : Nat) from rfl, zpow_natCast]
          exact_mod_cast hnat

/-- **A decimal in the band of a number is rounded to it.** -/
theorem ofDecimal_of_inside (negative : Bool) {c : Nat} {k : Int} (hc : c ≠ 0) (hm : m ≠ 0)
    (hd : IsDouble m e) (hq : Inside m e (c * 10 ^ k)) :
    ofDecimal negative c k = some (.finite negative m e hd) := by
  obtain ⟨hlow, hhigh⟩ := digitCount_bounds hc
  obtain ⟨hleast, hmost⟩ := inside_bounds hm hd hq
  have hten : (0 : ℚ) < 10 ^ k := by positivity
  -- the power of ten is neither too large nor too small to be tried
  have hlarge : ¬ 310 < k + (digitCount c : Int) := by
    intro hlt
    have hpower : (10 : ℚ) ^ (310 : Int) ≤ c * 10 ^ k := by
      calc (10 : ℚ) ^ (310 : Int) ≤ 10 ^ ((digitCount c : Int) - 1 + k) :=
            zpow_le_zpow_right₀ (by norm_num) (by omega)
        _ = 10 ^ ((digitCount c : Int) - 1) * 10 ^ k := zpow_add₀ (by norm_num) _ _
        _ ≤ c * 10 ^ k := mul_le_mul_of_nonneg_right hlow hten.le
    exact absurd (lt_of_le_of_lt hpower hmost) (lt_irrefl _)
  have hsmall : ¬ k + (digitCount c : Int) < -330 := by
    intro hlt
    have hpower : (c : ℚ) * 10 ^ k < 10 ^ (-330 : Int) := by
      calc (c : ℚ) * 10 ^ k < 10 ^ (digitCount c : Int) * 10 ^ k := mul_lt_mul_of_pos_right hhigh hten
        _ = 10 ^ ((digitCount c : Int) + k) := (zpow_add₀ (by norm_num) _ _).symm
        _ ≤ 10 ^ (-330 : Int) := zpow_le_zpow_right₀ (by norm_num) (by omega)
    exact absurd (lt_of_le_of_lt hleast hpower) (lt_irrefl _)
  unfold ofDecimal
  rw [if_neg hc]
  simp only
  rw [if_neg hlarge, if_neg hsmall]
  split
  · rename_i hk
    apply ofRatio_of_inside negative (Nat.mul_ne_zero hc (pow_ne_zero _ (by decide))) (by decide) hd
    push_cast
    rwa [div_one, ← zpow_natCast, Int.toNat_of_nonneg hk]
  · rename_i hk
    apply ofRatio_of_inside negative hc (pow_ne_zero _ (by decide)) hd
    push_cast
    rwa [← zpow_natCast, Int.toNat_of_nonneg (by omega), zpow_neg, div_inv_eq_mul]

/-- **A finite number is read back from its text.** -/
theorem parse_render (negative : Bool) (hd : IsDouble m e) :
    parse (render (.finite negative m e hd)).toList = some (.finite negative m e hd) := by
  obtain ⟨q, hq, hcase⟩ := numeralValue_render negative hd
  obtain ⟨hsign, hvalue⟩ := Prod.mk.inj hq
  show ofDecimal (splitNumeral _).1 (splitNumeral _).2.1 (splitNumeral _).2.2 = _
  rw [show (splitNumeral (render (.finite negative m e hd)).toList).1 = negative from hsign]
  generalize (splitNumeral (render (.finite negative m e hd)).toList).2.1 = c at hvalue ⊢
  generalize (splitNumeral (render (.finite negative m e hd)).toList).2.2 = k at hvalue ⊢
  have hten : (0 : ℚ) < 10 ^ k := by positivity
  rcases hcase with ⟨rfl, rfl⟩ | ⟨hm, hinside⟩
  · -- a zero has the least exponent
    have he := hd.2.1.resolve_left (by decide)
    subst he
    have hzero : c = 0 := by
      have hcast := (mul_eq_zero.1 hvalue).resolve_right hten.ne'
      exact_mod_cast hcast
    exact if_pos hzero
  · have hpos := hinside.pos hm
    have hc : c ≠ 0 := by
      rintro rfl
      rw [← hvalue] at hpos
      simp at hpos
    rw [← hvalue] at hinside
    exact ofDecimal_of_inside negative hc hm hd hinside

/-- A finite number is written as a sign, digits, a fraction and an exponent. -/
theorem render_parts (negative : Bool) (hd : IsDouble m e) :
    ∃ whole fraction o, AllDigits whole ∧ whole ≠ [] ∧ AllDigits fraction ∧
      (render (.finite negative m e hd)).toList =
        (if negative then ['-'] else []) ++ (whole ++ (pointed fraction ++ exponentText o)) := by
  have hsign (body : List Char) :
      (if negative then '-' :: body else body) = (if negative then ['-'] else []) ++ body := by
    cases negative <;> rfl
  unfold render
  rw [String.toList_ofList, hsign]
  by_cases hm : m = 0
  · rw [if_pos hm]
    exact ⟨['0'], [], none, by simp [AllDigits], by simp, by simp [AllDigits], rfl⟩
  · obtain ⟨hdigits, hne, -⟩ := shortest_inside hd hm
    obtain ⟨whole, fraction, o, hw, hwne, hf, hwrite, -⟩ := write_parts hdigits hne (shortest m e).2
    rw [if_neg hm]
    exact ⟨whole, fraction, o, hw, hwne, hf, congrArg _ hwrite⟩

end FlowTyping.Number
