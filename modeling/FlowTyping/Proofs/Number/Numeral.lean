import FlowTyping.Number.Decimal
import Mathlib.Algebra.Field.Rat
import Mathlib.Algebra.GroupWithZero.Basic
import Mathlib.Tactic.FieldSimp
import Mathlib.Tactic.Ring

/-!
# What a numeral says

A numeral is read as a sign and a decimal `c · 10 ^ k`. Whatever layout the digits of a number are written
in, they are read back with the power of ten that they were written for.

* **`Number.digitsValue_toDigits`** — the digits of a number stand for it.
* **`Number.trimmed_value`** — trailing zeros go into the power of ten.
* **`Number.numeralValue_write`** — a written decimal is read back, in each of the three layouts.
-/

namespace FlowTyping.Number

/-- All characters are decimal digits. -/
def AllDigits (digits : List Char) : Prop := ∀ c ∈ digits, c.isDigit = true

/-! ## Digits -/

theorem foldl_digits (n : Nat) (digits : List Char) :
    digits.foldl (fun n c => n * 10 + (c.toNat - 48)) n = n * 10 ^ digits.length + digitsValue digits := by
  induction digits generalizing n with
  | nil => simp [digitsValue]
  | cons c cs ih =>
    have hcons : digitsValue (c :: cs) = (0 * 10 + (c.toNat - 48)) * 10 ^ cs.length + digitsValue cs := ih _
    rw [List.foldl_cons, ih, hcons, List.length_cons, Nat.pow_succ]
    ring

theorem digitsValue_append (xs ys : List Char) :
    digitsValue (xs ++ ys) = digitsValue xs * 10 ^ ys.length + digitsValue ys := by
  unfold digitsValue
  rw [List.foldl_append, foldl_digits]
  rfl

theorem digitsValue_zeros (n : Nat) : digitsValue (List.replicate n '0') = 0 := by
  induction n with
  | zero => rfl
  | succ n ih =>
    rw [List.replicate_succ', digitsValue_append, ih]
    rfl

theorem digitsValue_toDigits (n : Nat) : digitsValue (Nat.toDigits 10 n) = n := by
  induction n using Nat.strongRecOn with
  | _ n ih =>
    by_cases hn : n < 10
    · have hsmall : ∀ n < 10, digitsValue (Nat.toDigits 10 n) = n := by decide
      exact hsmall n hn
    · rw [Nat.toDigits_of_base_le (by decide) (by omega), digitsValue_append, ih (n / 10) (by omega)]
      have hlast : ∀ d < 10, digitsValue [Nat.digitChar d] = d := by decide
      rw [hlast (n % 10) (Nat.mod_lt n (by decide)), List.length_singleton]
      omega

theorem allDigits_toDigits (n : Nat) : AllDigits (Nat.toDigits 10 n) := fun _ hc =>
  Nat.isDigit_of_mem_toDigits (by decide) (by decide) hc

/-! ## Trailing zeros -/

/-- The digits are those that are kept, then zeros. -/
theorem trimmed_append (c : Nat) (k : Int) :
    ∃ z, Nat.toDigits 10 c = (trimmed c k).1 ++ List.replicate z '0' := by
  have hzeros : (Nat.toDigits 10 c).reverse.takeWhile (· == '0') =
      List.replicate ((Nat.toDigits 10 c).reverse.takeWhile (· == '0')).length '0' := by
    refine List.eq_replicate_iff.2 ⟨rfl, fun d hd => ?_⟩
    simpa using List.all_eq_true.1 List.all_takeWhile d hd
  refine ⟨((Nat.toDigits 10 c).reverse.takeWhile (· == '0')).length, ?_⟩
  calc Nat.toDigits 10 c
    _ = ((Nat.toDigits 10 c).reverse.takeWhile (· == '0') ++
          (Nat.toDigits 10 c).reverse.dropWhile (· == '0')).reverse := by
        rw [List.takeWhile_append_dropWhile, List.reverse_reverse]
    _ = (trimmed c k).1 ++ ((Nat.toDigits 10 c).reverse.takeWhile (· == '0')).reverse := by
        rw [List.reverse_append]
        rfl
    _ = _ := by
        conv_lhs => rw [hzeros, List.reverse_replicate]

theorem allDigits_trimmed (c : Nat) (k : Int) : AllDigits (trimmed c k).1 := by
  obtain ⟨z, hz⟩ := trimmed_append c k
  intro d hd
  apply allDigits_toDigits c d
  rw [hz]
  exact List.mem_append_left _ hd

theorem trimmed_ne_nil {c : Nat} (hc : c ≠ 0) (k : Int) : (trimmed c k).1 ≠ [] := by
  intro hnil
  obtain ⟨z, hz⟩ := trimmed_append c k
  apply hc
  rw [← digitsValue_toDigits c, hz, hnil, List.nil_append, digitsValue_zeros]

/-- A decimal with its first digit at a power of ten. -/
def decimalValue (digits : List Char) (x : Int) : ℚ :=
  digitsValue digits * 10 ^ (x - digits.length + 1)

/-- What is left of a decimal without its trailing zeros has the same value. -/
theorem trimmed_value (c : Nat) (k : Int) :
    decimalValue (trimmed c k).1 (trimmed c k).2 = c * 10 ^ k := by
  obtain ⟨z, hz⟩ := trimmed_append c k
  have hvalue : c = digitsValue (trimmed c k).1 * 10 ^ z := by
    calc c = digitsValue (Nat.toDigits 10 c) := (digitsValue_toDigits c).symm
      _ = digitsValue (trimmed c k).1 * 10 ^ z := by
          conv_lhs => rw [hz, digitsValue_append, digitsValue_zeros, List.length_replicate]
          rfl
  have hlength : ((Nat.toDigits 10 c).length : Int) = (trimmed c k).1.length + z := by
    conv_lhs => rw [hz, List.length_append, List.length_replicate]
    push_cast
    rfl
  have hpower : (trimmed c k).2 - (trimmed c k).1.length + 1 = z + k := by
    show k + ((Nat.toDigits 10 c).length : Int) - 1 - (trimmed c k).1.length + 1 = z + k
    omega
  unfold decimalValue
  conv_rhs => rw [hvalue]
  rw [hpower, zpow_add₀ (by norm_num), zpow_natCast]
  push_cast
  ring

/-! ## Reading -/

/-- The sign and the value that a numeral is read as. -/
def numeralValue (text : List Char) : Bool × ℚ :=
  ((splitNumeral text).1, (splitNumeral text).2.1 * 10 ^ (splitNumeral text).2.2)

theorem span_digits {ds rest : List Char} (hd : AllDigits ds)
    (hr : ∀ c ∈ rest.head?, c.isDigit = false) : (ds ++ rest).span Char.isDigit = (ds, rest) := by
  rw [List.span_eq_takeWhile_dropWhile, List.takeWhile_append_of_pos hd, List.dropWhile_append_of_pos hd]
  cases rest with
  | nil => simp
  | cons c cs =>
    have hc : c.isDigit = false := hr c rfl
    simp [hc]

/-- A fraction behind its point. -/
def pointed : List Char → List Char
  | [] => []
  | fraction => '.' :: fraction

/-- An exponent as it is written. -/
def exponentText : Option Int → List Char
  | none => []
  | some x => 'e' :: (if x < 0 then '-' else '+') :: padLeft layout.exponentWidth (Nat.toDigits 10 x.natAbs)

theorem digitsValue_padLeft (width n : Nat) : digitsValue (padLeft width (Nat.toDigits 10 n)) = n := by
  unfold padLeft
  rw [digitsValue_append, digitsValue_zeros, digitsValue_toDigits, Nat.zero_mul, Nat.zero_add]

theorem head_exponentText (o : Option Int) : ∀ c ∈ (exponentText o).head?, c.isDigit = false := by
  cases o with
  | none => simp [exponentText]
  | some x => simp [exponentText]

theorem takeFraction_pointed {fraction : List Char} (hf : AllDigits fraction) (o : Option Int) :
    takeFraction (pointed fraction ++ exponentText o) = (fraction, exponentText o) := by
  cases fraction with
  | nil => cases o <;> rfl
  | cons c cs => exact span_digits hf (head_exponentText o)

theorem exponentValue_exponentText (o : Option Int) : exponentValue (exponentText o) = o.getD 0 := by
  cases o with
  | none => rfl
  | some x =>
    show exponentValue ('e' :: (if x < 0 then '-' else '+') :: padLeft 2 (Nat.toDigits 10 x.natAbs)) = x
    by_cases hx : x < 0
    · rw [if_pos hx, exponentValue, digitsValue_padLeft]
      show -(x.natAbs : Int) = x
      omega
    · rw [if_neg hx, exponentValue, digitsValue_padLeft]
      show (x.natAbs : Int) = x
      omega

/-- A numeral is read as its sign and its digits, at the power of ten that its layout gives. -/
theorem numeralValue_parts {whole fraction : List Char} (hw : AllDigits whole) (hne : whole ≠ [])
    (hf : AllDigits fraction) (o : Option Int) (negative : Bool) :
    numeralValue (if negative then '-' :: (whole ++ (pointed fraction ++ exponentText o))
        else whole ++ (pointed fraction ++ exponentText o)) =
      (negative, (digitsValue (whole ++ fraction) : ℚ) * 10 ^ (o.getD 0 - fraction.length)) := by
  have hsign : takeSign (if negative then '-' :: (whole ++ (pointed fraction ++ exponentText o))
      else whole ++ (pointed fraction ++ exponentText o)) =
        (negative, whole ++ (pointed fraction ++ exponentText o)) := by
    cases negative with
    | true => rfl
    | false =>
      obtain ⟨c, cs, rfl⟩ := List.exists_cons_of_ne_nil hne
      have hc : c ≠ '-' := by
        rintro rfl
        exact absurd (hw '-' (by simp)) (by decide)
      rw [if_neg (by simp), List.cons_append, takeSign]
      exact fun rest heq => hc (List.cons.inj heq).1
  have hspan : (whole ++ (pointed fraction ++ exponentText o)).span Char.isDigit =
      (whole, pointed fraction ++ exponentText o) := by
    apply span_digits hw
    cases fraction with
    | nil => exact head_exponentText o
    | cons c cs => simp [pointed]
  unfold numeralValue splitNumeral
  simp only [hsign, hspan, takeFraction_pointed hf, exponentValue_exponentText]

/-- A decimal is written as digits, a fraction and an exponent, in each of the three layouts. -/
theorem write_parts {digits : List Char} (hd : AllDigits digits) (hne : digits ≠ []) (x : Int) :
    ∃ whole fraction o, AllDigits whole ∧ whole ≠ [] ∧ AllDigits fraction ∧
      layout.write digits x = whole ++ (pointed fraction ++ exponentText o) ∧
      (digitsValue (whole ++ fraction) * 10 ^ (o.getD 0 - fraction.length) : ℚ) = decimalValue digits x := by
  -- in every layout, zeros at either end and the place of the point are made up for by the exponent
  obtain ⟨d, rest, rfl⟩ := List.exists_cons_of_ne_nil hne
  have hd1 : AllDigits [d] := fun c hc => hd c (by simp_all)
  have hrest : AllDigits rest := fun c hc => hd c (by simp [hc])
  have hzeros (n : Nat) : AllDigits (List.replicate n '0') := by
    intro c hc
    rw [List.eq_of_mem_replicate hc]
    rfl
  unfold Layout.write
  split
  · -- exponent form
    refine ⟨[d], rest, some x, hd1, by simp, hrest, ?_, ?_⟩
    · cases rest <;> rfl
    · unfold decimalValue
      rw [List.singleton_append, Option.getD_some, List.length_cons]
      push_cast
      ring_nf
  · split
    · -- a fraction with zeros behind the point
      rename_i hneg
      refine ⟨['0'], List.replicate (x.natAbs - 1) '0' ++ d :: rest, none, hzeros 1, by simp,
        List.forall_mem_append.2 ⟨hzeros _, hd⟩, ?_, ?_⟩
      · have hpoint (z : List Char) : pointed (z ++ d :: rest) = '.' :: (z ++ d :: rest) := by
          cases z <;> rfl
        rw [hpoint]
        simp [exponentText]
      · have hvalue : digitsValue (['0'] ++ (List.replicate (x.natAbs - 1) '0' ++ d :: rest)) =
            digitsValue (d :: rest) := by
          rw [← List.append_assoc, digitsValue_append, digitsValue_append, digitsValue_zeros]
          simp [digitsValue]
        have hpower : Option.getD none 0 - ((List.replicate (x.natAbs - 1) '0' ++ d :: rest).length : Int) =
            x - (d :: rest).length + 1 := by
          rw [List.length_append, List.length_replicate, Option.getD_none]
          push_cast
          omega
        unfold decimalValue
        rw [hvalue, hpower]
    · rename_i hpos
      simp only
      split
      · -- a whole number
        rename_i hlen
        refine ⟨(d :: rest) ++ List.replicate (x.toNat + 1 - (d :: rest).length) '0', [], none,
          List.forall_mem_append.2 ⟨hd, hzeros _⟩, by simp, by simp [AllDigits],
          by simp [pointed, exponentText], ?_⟩
        have hpower : x - (d :: rest).length + 1 = ((x.toNat + 1 - (d :: rest).length : Nat) : Int) := by
          omega
        unfold decimalValue
        rw [List.append_nil, digitsValue_append, digitsValue_zeros, List.length_replicate, hpower,
          zpow_natCast]
        simp
      · -- a point between the digits
        rename_i hlen
        have hwhole : AllDigits ((d :: rest).take (x.toNat + 1)) := fun c hc => hd c (List.mem_of_mem_take hc)
        have hfraction : AllDigits ((d :: rest).drop (x.toNat + 1)) := fun c hc =>
          hd c (List.mem_of_mem_drop hc)
        refine ⟨_, (d :: rest).drop (x.toNat + 1), none, hwhole, by simp, hfraction, ?_, ?_⟩
        · cases hdrop : (d :: rest).drop (x.toNat + 1) with
          | nil => exact absurd (List.drop_eq_nil_iff.1 hdrop) (by omega)
          | cons c cs => simp [pointed, exponentText]
        · unfold decimalValue
          rw [List.take_append_drop, List.length_drop]
          congr 2
          rw [Option.getD_none]
          omega

/-- **A written decimal is read back**, whichever layout it is written in. -/
theorem numeralValue_write {digits : List Char} (hd : AllDigits digits) (hne : digits ≠ []) (x : Int)
    (negative : Bool) :
    numeralValue (if negative then '-' :: layout.write digits x else layout.write digits x) =
      (negative, decimalValue digits x) := by
  obtain ⟨whole, fraction, o, hw, hwne, hf, hwrite, hvalue⟩ := write_parts hd hne x
  rw [hwrite, numeralValue_parts hw hwne hf, hvalue]

end FlowTyping.Number
