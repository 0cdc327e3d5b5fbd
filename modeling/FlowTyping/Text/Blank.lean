import FlowTyping.Text.Basic

/-!
# Blanks

The characters of Unicode's White_Space property, and what is left of a text without those at its
ends.
-/

namespace FlowTyping.Text

/-- Whether a character is white space. -/
def isBlank (c : Char) : Bool :=
  let n := c.toNat
  (9 ≤ n && n ≤ 13) || n = 0x20 || n = 0x85 || n = 0xA0 || n = 0x1680 ||
    (0x2000 ≤ n && n ≤ 0x200A) || n = 0x2028 || n = 0x2029 || n = 0x202F || n = 0x205F || n = 0x3000

/-- Whether a symbol is white space. -/
def Sym.isBlank : Sym → Bool
  | .char c => Text.isBlank c
  | .stray _ => false

/-- The text without white space at its ends. -/
def trim (t : Text) : Text :=
  let syms := ((decode t.toList).dropWhile Sym.isBlank).reverse.dropWhile Sym.isBlank
  ofList (syms.reverse.flatMap Sym.encode)

/-- The bytes before the first place where a pattern stands, and those behind it. -/
def cutBytes (pattern : Bytes) : Bytes → Option (Bytes × Bytes)
  | [] => if pattern.isEmpty then some ([], []) else none
  | b :: rest =>
    if pattern.isPrefixOf (b :: rest) then some ([], (b :: rest).drop pattern.length)
    else (cutBytes pattern rest).map fun (before, after) => (b :: before, after)

/-- The text before the first place where a pattern stands, and the text behind it. -/
def cut (t pattern : Text) : Option (Text × Text) :=
  (cutBytes pattern.toList t.toList).map fun (before, after) => (ofList before, ofList after)

end FlowTyping.Text
