import FlowTyping.Text.Utf8

/-!
# Texts

A text is a string of bytes. Most texts are the UTF-8 form of characters, but a name or a literal can be
written with escapes that are not, and then it keeps its bytes: two names that only look alike stay
two, and all texts are ordered by their bytes.

* A `String` is a text wherever one is wanted.
* `toList` is the view of a text as a list of bytes, and `toString` shows it, with the replacement
  character for every stray byte.
-/

namespace FlowTyping

-- bytes are compared by the core test, whatever other one is in scope
attribute [local instance (1100)] ByteArray.instDecidableEq

/-- A string of bytes. -/
structure Text where
  bytes : ByteArray
  deriving DecidableEq, Hashable

namespace Text

/-- The text of characters. -/
def ofString (s : String) : Text := ⟨s.toUTF8⟩

instance : Coe String Text := ⟨ofString⟩

instance : Inhabited Text := ⟨""⟩

/-- The text of bytes. -/
def ofList (bytes : Bytes) : Text := ⟨⟨bytes.toArray⟩⟩

/-- The bytes of a text. -/
def toList (t : Text) : Bytes := t.bytes.data.toList

/-- A text in characters, with the replacement character for every stray byte. -/
protected def toString (t : Text) : String :=
  match String.fromUTF8? t.bytes with
  | some s => s
  | none => shown t.toList

instance : ToString Text := ⟨Text.toString⟩

instance : Repr Text := ⟨fun t _ => repr t.toString⟩

instance : Append Text := ⟨fun a b => ⟨a.bytes ++ b.bytes⟩⟩

@[simp] theorem toList_ofList (bytes : Bytes) : (ofList bytes).toList = bytes := rfl

@[simp] theorem toList_append (a b : Text) : (a ++ b).toList = a.toList ++ b.toList := by
  show (a.bytes ++ b.bytes).data.toList = _
  simp [toList]

/-- Whether a text has no bytes. -/
def isEmpty (t : Text) : Bool := t.bytes.size == 0

/-- The order of the first bytes in which two strings differ from a place on; one that ends there comes
first. -/
def compareFrom (a b : ByteArray) (i : Nat) : Ordering :=
  if h : i < a.size then
    if h' : i < b.size then
      if a[i] < b[i] then .lt else if b[i] < a[i] then .gt else compareFrom a b (i + 1)
    else .gt
  else if i < b.size then .lt
  else .eq
termination_by a.size - i

instance : Ord Text := ⟨fun a b => compareFrom a.bytes b.bytes 0⟩

instance : LT Text := ltOfOrd

instance : LE Text := leOfOrd

/-- Texts one after the other. -/
def concat (ts : List Text) : Text := ts.foldl (· ++ ·) ""

/-- Texts with a separator between them. -/
def joinWith (sep : Text) : List Text → Text
  | [] => ""
  | [t] => t
  | t :: ts => t ++ sep ++ joinWith sep ts

/-- Lines as they are written out: a line feed ends each. -/
def unlines (lines : List Text) : Text := concat (lines.map (· ++ ("\n" : Text)))

/-- The parts of a list between the places at which an item stands. -/
def splitAt {α : Type} [BEq α] (item : α) (xs : List α) : List (List α) :=
  let (part, parts) := xs.foldr
    (fun a (part, parts) => if a == item then ([], part :: parts) else (a :: part, parts)) ([], [])
  part :: parts

/-- The lines of a text: its parts between line feeds. -/
def lines (t : Text) : List Text := (splitAt 0x0a t.toList).map ofList

end Text
end FlowTyping
