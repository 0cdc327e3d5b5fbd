import FlowTyping.Text.Utf8

/-!
# Bytes in base 64

Three bytes are written as four characters of an alphabet of 64; two bytes or one at the end are filled up
with equals signs. Line ends in between do not count.
-/

namespace FlowTyping.Text

/-- The number of a character of the alphabet. -/
def base64Value? (c : Char) : Option Nat :=
  if c.isUpper then some (c.toNat - 65)
  else if c.isLower then some (c.toNat - 71)
  else if c.isDigit then some (c.toNat + 4)
  else if c = '+' then some 62
  else if c = '/' then some 63
  else none

/-- The bytes of groups of four characters. -/
def base64Groups : List Char → Option Bytes
  | [] => some []
  | [a, b, '=', '='] => do
    let n := 64 * (← base64Value? a) + (← base64Value? b)
    return [UInt8.ofNat (n / 16)]
  | [a, b, c, '='] => do
    let n := 4096 * (← base64Value? a) + 64 * (← base64Value? b) + (← base64Value? c)
    return [UInt8.ofNat (n / 1024), UInt8.ofNat (n / 4)]
  | a :: b :: c :: d :: rest => do
    let n := 262144 * (← base64Value? a) + 4096 * (← base64Value? b) + 64 * (← base64Value? c) +
      (← base64Value? d)
    return UInt8.ofNat (n / 65536) :: UInt8.ofNat (n / 256) :: UInt8.ofNat n :: (← base64Groups rest)
  | _ => none

/-- The bytes that a text stands for. -/
def unbase64? (text : List Char) : Option Bytes :=
  base64Groups (text.filter fun c => c ≠ '\n' && c ≠ '\r')

end FlowTyping.Text
