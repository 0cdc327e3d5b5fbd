/-!
# Numbers

The numbers of the type language are the double-precision ones. They are never computed with, only
read, written and told apart, so they are kept as exact integers: a finite number is
`± significand · 2 ^ exponent`.

* `Number.ofDecimal` rounds `± m · 10 ^ e` to the nearest number, a tie to the even significand;
  `none` when the result is past the largest number.
* `Number.ofNat`, `Number.ofInt` round whole numbers.
-/

namespace FlowTyping

-- a power of whole numbers is the core one, whatever algebra is in scope
attribute [local instance (1100)] instPowNat

namespace Number

/-- The exponent of the smallest positive number. -/
def leastExponent : Int := -1074

/-- The exponent of the largest number. -/
def greatestExponent : Int := 971

/-- Whether `m · 2 ^ e` is a magnitude in double precision, written in the one way that counts:
`2 ^ 52 ≤ m < 2 ^ 53`, or `e` is the least exponent and `m` is smaller. -/
def IsDouble (m : Nat) (e : Int) : Prop :=
  m < 2 ^ (53 : Nat) ∧ (2 ^ (52 : Nat) ≤ m ∨ e = leastExponent) ∧ leastExponent ≤ e ∧ e ≤ greatestExponent

instance (m : Nat) (e : Int) : Decidable (IsDouble m e) :=
  inferInstanceAs (Decidable (_ ∧ _ ∧ _ ∧ _))

end Number

/-- A double-precision number other than NaN. -/
inductive Number where
  | finite (negative : Bool) (significand : Nat) (exponent : Int)
    (double : Number.IsDouble significand exponent)
  | infinite (negative : Bool)
  deriving DecidableEq, Repr

namespace Number

/-- The zero of a sign. -/
def zero (negative : Bool) : Number := .finite negative 0 leastExponent (by decide)

/-- Whether the number is a zero of either sign. -/
def isZero : Number → Bool
  | .finite _ m _ _ => m == 0
  | .infinite _ => false

/-- `num / den` rounded to the nearest whole number, a tie to the even one. -/
def roundDiv (num den : Nat) : Nat :=
  let q := num / den
  let r := num % den
  if 2 * r < den then q
  else if den < 2 * r then q + 1
  else if q % 2 = 0 then q else q + 1

/-- The exponent of the number nearest to `num / den`: it leaves 53 bits before the point, unless it
would fall below the least one. -/
def unitExponent (num den : Nat) : Int :=
  let guess : Int := (num.log2 : Int) - (den.log2 : Int) - 52
  -- the quotient lies in `2 ^ (guess + 51) .. 2 ^ (guess + 53)`
  let low : Bool :=
    if 0 ≤ guess then num < den * 2 ^ (52 + guess.toNat)
    else num * 2 ^ ((-guess).toNat) < den * 2 ^ (52 : Nat)
  max leastExponent (if low then guess - 1 else guess)

/-- The number nearest to `± num / den`; `none` past the largest one. -/
def ofRatio (negative : Bool) (num den : Nat) : Option Number :=
  if num = 0 then some (zero negative)
  else
    let e := unitExponent num den
    let m := if 0 ≤ e then roundDiv num (den * 2 ^ e.toNat) else roundDiv (num * 2 ^ (-e).toNat) den
    let (m, e) := if m = 2 ^ (53 : Nat) then (2 ^ (52 : Nat), e + 1) else (m, e)
    -- only an exponent past the greatest one makes it none
    if double : IsDouble m e then some (.finite negative m e double) else none

/-- Number of decimal digits of `m`, at least one. -/
def digitCount (m : Nat) : Nat := (Nat.toDigits 10 m).length

/-- The number nearest to `± m · 10 ^ e`; `none` past the largest one. The size of the power is
bounded first, so an exponent of any size is read. -/
def ofDecimal (negative : Bool) (m : Nat) (e : Int) : Option Number :=
  if m = 0 then some (zero negative)
  else
    let magnitude := e + (digitCount m : Int)
    if 310 < magnitude then none
    else if magnitude < -330 then some (zero negative)
    else if 0 ≤ e then ofRatio negative (m * 10 ^ e.toNat) 1
    else ofRatio negative m (10 ^ (-e).toNat)

/-- The number nearest to a whole number of moderate size. -/
def ofNat (n : Nat) : Number := (ofRatio false n 1).getD (.infinite false)

/-- The number nearest to an integer of moderate size. -/
def ofInt (i : Int) : Number := (ofRatio (i < 0) i.natAbs 1).getD (.infinite (i < 0))

end Number
end FlowTyping
