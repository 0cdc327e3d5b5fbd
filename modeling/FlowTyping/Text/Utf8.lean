/-!
# UTF-8 as a sequence of symbols

Sources and text literals are byte strings, and not every byte string is UTF-8. `decode` reads any
of them: a well-formed character becomes `Sym.char`, a byte that starts none becomes `Sym.stray`.

* `next?` reads one symbol off the front.
* `encode` writes symbols back.
-/

namespace FlowTyping.Text

/-- A string of bytes, UTF-8 or not. -/
abbrev Bytes := List UInt8

/-- One symbol of a byte string. -/
inductive Sym where
  /-- A well-formed character. -/
  | char (c : Char)
  /-- A byte that starts no well-formed character. -/
  | stray (b : UInt8)
  deriving DecidableEq, Repr

/-- The character that stands for a symbol where only characters can be shown. -/
def Sym.toChar : Sym → Char
  | .char c => c
  | .stray _ => '\uFFFD'

/-- Whether a byte continues a character. -/
def isTail (b : UInt8) : Bool := 0x80 ≤ b && b ≤ 0xBF

/-- Whether `b` may be the second byte of a character whose first byte is `a`: the ranges rule out
overlong forms, surrogates and code points past the last one. -/
def isSecond (a b : UInt8) : Bool :=
  if a = 0xE0 then 0xA0 ≤ b && b ≤ 0xBF
  else if a = 0xED then 0x80 ≤ b && b ≤ 0x9F
  else if a = 0xF0 then 0x90 ≤ b && b ≤ 0xBF
  else if a = 0xF4 then 0x80 ≤ b && b ≤ 0x8F
  else isTail b

/-- The low six bits of a continuing byte. -/
def tailBits (b : UInt8) : Nat := b.toNat % 64

/-- Number of bytes of the character that a first byte announces; `0` for a byte that starts none. -/
def announcedWidth (a : UInt8) : Nat :=
  if a < 0x80 then 1
  else if 0xC2 ≤ a && a ≤ 0xDF then 2
  else if 0xE0 ≤ a && a ≤ 0xEF then 3
  else if 0xF0 ≤ a && a ≤ 0xF4 then 4
  else 0

/-- Reads one symbol and its width in bytes off the front of a byte string. -/
def next? : Bytes → Option (Sym × Nat)
  | [] => none
  | a :: rest =>
    match announcedWidth a, rest with
    | 1, _ => some (.char (Char.ofNat a.toNat), 1)
    | 2, b :: _ =>
      if isSecond a b then
        some (.char (Char.ofNat (a.toNat % 32 * 64 + tailBits b)), 2)
      else some (.stray a, 1)
    | 3, b :: c :: _ =>
      if isSecond a b && isTail c then
        some (.char (Char.ofNat (a.toNat % 16 * 4096 + tailBits b * 64 + tailBits c)), 3)
      else some (.stray a, 1)
    | 4, b :: c :: d :: _ =>
      if isSecond a b && isTail c && isTail d then
        some (.char (Char.ofNat
          (a.toNat % 8 * 262144 + tailBits b * 4096 + tailBits c * 64 + tailBits d)), 4)
      else some (.stray a, 1)
    | _, _ => some (.stray a, 1)

/-- Reads at most `n` symbols. -/
def decodeUpTo : Nat → Bytes → List Sym
  | 0, _ => []
  | n + 1, bytes =>
    match next? bytes with
    | none => []
    | some (s, width) => s :: decodeUpTo n (bytes.drop width)

/-- All symbols of a byte string. A symbol takes at least one byte, so there are no more of them
than bytes. -/
def decode (bytes : Bytes) : List Sym := decodeUpTo bytes.length bytes

/-- The bytes of one symbol. -/
def Sym.encode : Sym → Bytes
  | .char c => c.toString.toUTF8.toList
  | .stray b => [b]

/-- The bytes of a text. -/
def encode (s : String) : Bytes := s.toUTF8.toList

/-- The text of a byte string, with the replacement character for every stray byte. -/
def shown (bytes : Bytes) : String := String.ofList ((decode bytes).map Sym.toChar)

end FlowTyping.Text
