import FlowTyping.Number.Basic

/-!
# Numbers as decimal text

Writing takes the fewest digits that read back as the same number, and of those the digits nearest
to it. Reading takes an optional minus sign, digits, a fraction and an exponent.

* `Number.shortest` gives the digits and the power of ten of the first one.
* `Number.render` lays them out; `Number.layout` fixes where the exponent form begins.
* `Number.parse` reads a numeral of the type notation.
-/

namespace FlowTyping.Number

-- a power of whole numbers is the core one, whatever algebra is in scope
attribute [local instance (1100)] instPowNat

/-- The magnitudes that round to a number, as fractions with one common denominator. -/
structure Band where
  /-- The number itself. -/
  value : Nat
  /-- Least magnitude of the band. -/
  low : Nat
  /-- Greatest magnitude of the band. -/
  high : Nat
  /-- Denominator of the three. -/
  den : Nat
  /-- Whether the two ends belong to the band. -/
  closed : Bool

/-- The band of `m · 2 ^ e`. Its lower half is narrower where the significand is the least of its
binade. The ends round to the number exactly when its significand is even. -/
def band (m : Nat) (e : Int) : Band :=
  let below := if m = 2 ^ (52 : Nat) && leastExponent < e then 1 else 2
  let up := 2 ^ (e - 2).toNat
  { value := 4 * m * up
    low := (4 * m - below) * up
    high := (4 * m + 2) * up
    den := 2 ^ (2 - e).toNat
    closed := m % 2 == 0 }

/-- Whether `c · 10 ^ k` lies in the band. -/
def Band.contains (b : Band) (c : Nat) (k : Int) : Bool :=
  let up := 10 ^ k.toNat
  let down := 10 ^ (-k).toNat
  let x := c * up * b.den
  let low := b.low * down
  let high := b.high * down
  if b.closed then low ≤ x && x ≤ high else low < x && x < high

/-- The nearer to the band's number of the two neighbours `c` and `c + 1` on the grid of `10 ^ k`,
among those in the band. -/
def Band.pick (b : Band) (k : Int) : Option Nat :=
  let up := 10 ^ k.toNat
  let down := 10 ^ (-k).toNat
  let unit := up * b.den
  let v := b.value * down
  let c := v / unit
  match b.contains c k, b.contains (c + 1) k with
  | true, true => some (if 2 * (v % unit) < unit then c
                        else if unit < 2 * (v % unit) then c + 1
                        else if c % 2 = 0 then c else c + 1)
  | true, false => some c
  | false, true => some (c + 1)
  | false, false => none

/-- The greatest `x` with `10 ^ x ≤ num / den`, searched downward from `start` with `fuel` steps. -/
def decimalExponent (num den : Nat) : (fuel : Nat) → (start : Int) → Int
  | 0, x => x
  | n + 1, x =>
    if 10 ^ x.toNat * den ≤ num * 10 ^ (-x).toNat then x else decimalExponent num den n (x - 1)

/-- The digits of `c` without trailing zeros, and the power of ten of the first digit, for a grid
of `10 ^ k`. -/
def trimmed (c : Nat) (k : Int) : List Char × Int :=
  let digits := Nat.toDigits 10 c
  let kept := (digits.reverse.dropWhile (· == '0')).reverse
  (kept, k + (digits.length : Int) - 1)

/-- Tries grids of `n`, `n + 1`, … digits for a number whose first digit stands for `10 ^ x`. -/
def Band.search (b : Band) (x : Int) : (fuel : Nat) → (n : Nat) → List Char × Int
  | 0, n => trimmed (b.value * 10 ^ ((n : Int) - 1 - x).toNat / (b.den * 10 ^ (x - n + 1).toNat)) (x - n + 1)
  | fuel + 1, n =>
    let k := x - n + 1
    match b.pick k with
    | some c => trimmed c k
    | none => b.search x fuel (n + 1)

/-- The fewest digits that read back as `m · 2 ^ e` with `0 < m`, and the power of ten that the first
of them stands for. Seventeen digits always suffice. -/
def shortest (m : Nat) (e : Int) : List Char × Int :=
  let b := band m e
  -- `30103 / 100000` is just above the decimal logarithm of two
  let start : Int := ((b.value.log2 : Int) - (b.den.log2 : Int) + 1) * 30103 / 100000 + 1
  b.search (decimalExponent b.value b.den 8 start) 17 1

/-- Where a decimal text switches between positional and exponent form. -/
structure Layout where
  /-- Powers of ten below this one are written with an exponent. -/
  leastPositional : Int
  /-- Powers of ten from this one on are written with an exponent. -/
  firstScientific : Int
  /-- Least number of digits in an exponent. -/
  exponentWidth : Nat

/-- Numbers are positional from `0.0001` to `999999`; an exponent has a sign and two digits. -/
def layout : Layout := ⟨-4, 6, 2⟩

/-- Pads digits on the left with zeros. -/
def padLeft (width : Nat) (digits : List Char) : List Char :=
  List.replicate (width - digits.length) '0' ++ digits

/-- Lays out digits whose first one stands for `10 ^ x`. -/
def Layout.write (l : Layout) (digits : List Char) (x : Int) : List Char :=
  if x < l.leastPositional || l.firstScientific ≤ x then
    let mantissa :=
      match digits with
      | [] => ['0']
      | [d] => [d]
      | d :: rest => d :: '.' :: rest
    mantissa ++ 'e' :: (if x < 0 then '-' else '+') ::
      padLeft l.exponentWidth (Nat.toDigits 10 x.natAbs)
  else if x < 0 then
    '0' :: '.' :: List.replicate (x.natAbs - 1) '0' ++ digits
  else
    let whole := x.toNat + 1
    if digits.length ≤ whole then digits ++ List.replicate (whole - digits.length) '0'
    else digits.take whole ++ '.' :: digits.drop whole

/-- The text of a number: the fewest digits that read back. -/
def render : Number → String
  | .infinite negative => if negative then "-Inf" else "+Inf"
  | .finite negative m e _ =>
    let body := if m = 0 then ['0'] else let (digits, x) := shortest m e; layout.write digits x
    String.ofList (if negative then '-' :: body else body)

/-- The value of a string of decimal digits. -/
def digitsValue (digits : List Char) : Nat :=
  digits.foldl (fun n c => n * 10 + (c.toNat - 48)) 0

/-- Takes the sign off a numeral: whether it is a minus, and the rest. -/
def takeSign : List Char → Bool × List Char
  | '-' :: rest => (true, rest)
  | text => (false, text)

/-- Takes the digits behind a point off the rest of a numeral. -/
def takeFraction : List Char → List Char × List Char
  | '.' :: rest => rest.span Char.isDigit
  | text => ([], text)

/-- The power of ten that is written at the end of a numeral. -/
def exponentValue : List Char → Int
  | _ :: '-' :: rest => -(digitsValue rest : Int)
  | _ :: '+' :: rest => digitsValue rest
  | _ :: rest => digitsValue rest
  | [] => 0

/-- The sign, digits and power of ten of a numeral `-?digits(.digits)?([eE][+-]?digits)?`. -/
def splitNumeral (text : List Char) : Bool × Nat × Int :=
  let (negative, text) := takeSign text
  let (whole, text) := text.span Char.isDigit
  let (fraction, text) := takeFraction text
  (negative, digitsValue (whole ++ fraction), exponentValue text - fraction.length)

/-- Reads a numeral; `none` when its value is past the largest number. -/
def parse (text : List Char) : Option Number :=
  let (negative, m, e) := splitNumeral text
  ofDecimal negative m e

end FlowTyping.Number
