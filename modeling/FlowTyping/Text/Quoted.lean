import FlowTyping.Text.Basic
import FlowTyping.Text.Printable

/-!
# Quoted text

A text in double quotes with escapes, as literal types print and as messages cite sources.

* `quote` writes a byte string so that nothing unprintable shows: `\a \b \f \n \r \t \v`, `\x01` for
  other controls and stray bytes, `\u200b` and `\U000e0001` for other unprintable characters.
* `unquote?` reads the inside of a quoted text back into bytes; it also accepts `\101` and every
  other escape of three octal digits up to `\377`.
-/

namespace FlowTyping.Text

/-- The hexadecimal digit of a number below sixteen. -/
def hexDigit (n : Nat) : Char :=
  if n < 10 then Char.ofNat (48 + n) else Char.ofNat (87 + n)

/-- The last `width` hexadecimal digits of `n`. -/
def hexDigits : (width : Nat) → Nat → List Char
  | 0, _ => []
  | w + 1, n => hexDigits w (n / 16) ++ [hexDigit (n % 16)]

/-- Escapes of one letter, each with the code point it stands for. -/
def letterEscapes : List (Char × Nat) :=
  [('a', 7), ('b', 8), ('t', 9), ('n', 10), ('v', 11), ('f', 12), ('r', 13)]

/-- How a symbol is written inside quotes of a kind. -/
def quoteSym (mark : Char) : Sym → List Char
  | .stray b => '\\' :: 'x' :: hexDigits 2 b.toNat
  | .char c =>
    if c = mark || c = '\\' then ['\\', c]
    else if isPrintable c then [c]
    else
      match letterEscapes.find? (·.2 = c.toNat) with
      | some (letter, _) => ['\\', letter]
      | none =>
        if c.toNat < 0x20 || c.toNat = 0x7f then '\\' :: 'x' :: hexDigits 2 c.toNat
        else if c.toNat < 0x10000 then '\\' :: 'u' :: hexDigits 4 c.toNat
        else '\\' :: 'U' :: hexDigits 8 c.toNat

/-- A character in single quotes. -/
def quoteChar (c : Char) : String := String.ofList ('\'' :: quoteSym '\'' (.char c) ++ ['\''])

/-- A byte string in double quotes. -/
def quote (bytes : Bytes) : String :=
  String.ofList ('"' :: (decode bytes).flatMap (quoteSym '"') ++ ['"'])

/-- A text in double quotes. -/
def quoteText (t : Text) : String := quote t.toList

/-- The value of a hexadecimal digit of either case. -/
def hexValue? (c : Char) : Option Nat :=
  if '0' ≤ c && c ≤ '9' then some (c.toNat - 48)
  else if 'a' ≤ c && c ≤ 'f' then some (c.toNat - 87)
  else if 'A' ≤ c && c ≤ 'F' then some (c.toNat - 55)
  else none

/-- The value of an octal digit. -/
def octalValue? (c : Char) : Option Nat :=
  if '0' ≤ c && c ≤ '7' then some (c.toNat - 48) else none

/-- Reads exactly `width` digits in the given base off the front. -/
def readDigits (base : Nat) (value? : Char → Option Nat) :
    (width : Nat) → (acc : Nat) → List Sym → Option (Nat × List Sym)
  | 0, acc, rest => some (acc, rest)
  | w + 1, acc, s :: rest =>
    match value? s.toChar with
    | some d => readDigits base value? w (acc * base + d) rest
    | none => none
  | _ + 1, _, [] => none

/-- Whether a code point may be written by an escape: a surrogate may not. -/
def isScalar (n : Nat) : Bool := n < 0xD800 || (0xDFFF < n && n < 0x110000)

/-- Reads what follows a backslash: the bytes it stands for and the rest. -/
def readEscape : List Sym → Option (Bytes × List Sym)
  | [] => none
  | s :: rest =>
    match s.toChar with
    | '\\' => some ([0x5c], rest)
    | '"' => some ([0x22], rest)
    | 'x' => (readDigits 16 hexValue? 2 0 rest).map fun (n, rest) => ([UInt8.ofNat n], rest)
    | 'u' => scalar (readDigits 16 hexValue? 4 0 rest)
    | 'U' => scalar (readDigits 16 hexValue? 8 0 rest)
    | c =>
      match octalValue? c with
      | some d =>
        match readDigits 8 octalValue? 2 d rest with
        | some (n, rest) => if n < 256 then some ([UInt8.ofNat n], rest) else none
        | none => none
      | none => (letterEscapes.find? (·.1 = c)).map fun (_, n) => ([UInt8.ofNat n], rest)
where
  scalar : Option (Nat × List Sym) → Option (Bytes × List Sym)
    | some (n, rest) => if isScalar n then some ((Sym.char (Char.ofNat n)).encode, rest) else none
    | none => none

/-- Reads at most `fuel` pieces (a symbol or an escape) of the inside of a quoted text. -/
def unquoteUpTo : (fuel : Nat) → List Sym → Option Bytes
  | 0, [] => some []
  | 0, _ :: _ => none
  | _ + 1, [] => some []
  | n + 1, .char '\\' :: rest =>
    match readEscape rest with
    | some (bytes, rest) => (unquoteUpTo n rest).map (bytes ++ ·)
    | none => none
  | n + 1, s :: rest =>
    if s = .char '\n' || s = .char '"' then none
    else (unquoteUpTo n rest).map (s.encode ++ ·)

/-- The bytes that the inside of a double-quoted text stands for; `none` for an unknown escape, a
bare quote or a line break. -/
def unquote? (inside : Bytes) : Option Bytes :=
  let syms := decode inside
  unquoteUpTo syms.length syms

end FlowTyping.Text
