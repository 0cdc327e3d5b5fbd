import FlowTyping.Text.Quoted

/-!
# Run identifiers

Every analysis has an identifier by which later queries name it: sixteen bytes in the layout of a
random UUID, in which six bits are fixed.
-/

namespace FlowTyping.RunId

/-- Fixes the bits that mark a random UUID: the version in byte 6, the variant in byte 8. -/
def mark (index : Nat) (b : UInt8) : UInt8 :=
  if index = 6 then b &&& 0x0f ||| 0x40
  else if index = 8 then b &&& 0x3f ||| 0x80
  else b

/-- The indices before which a dash stands. -/
def dashes : List Nat := [4, 6, 8, 10]

/-- The identifier of sixteen bytes. -/
def ofBytes (bytes : List UInt8) : String :=
  String.ofList <|
    bytes.zipIdx.flatMap fun (b, i) =>
      (if dashes.contains i then ['-'] else []) ++ Text.hexDigits 2 (mark i b).toNat

/-- The identifier of a run by its number. -/
def ofNumber (n : Nat) : String := ofBytes (List.replicate 16 (UInt8.ofNat n))

end FlowTyping.RunId
