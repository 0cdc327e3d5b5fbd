import FlowTyping.Ty.Key

/-!
# What a key tells

Two trees with one key are one type, and a store keeps whichever it met first. So a fact about a type
has to be one that its key decides. The constructor is such a fact: every key starts with a word for
it, and the words are told apart by their first bytes.

* **`Ty.head_eq_of_key_eq`** — types with one key have one constructor; literals with one key, one
  atom.
* **`Ty.eq_of_key_eq_atom`** — nothing but an atom has the key of the atom.
-/

namespace FlowTyping.Ty

/-- The number of a type's constructor, where the three sorts of literal count apart. -/
def head : Ty → Nat
  | .never => 0
  | .unknown => 1
  | .null => 2
  | .undefined => 3
  | .boolean => 4
  | .number => 5
  | .string => 6
  | .literal (.text _) => 7
  | .literal (.number _) => 8
  | .literal (.bool _) => 9
  | .object _ _ => 10
  | .tuple _ _ => 11
  | .function _ _ => 12
  | .union _ => 13
  | .inter _ => 14
  | .var _ _ => 15

/-- The number of the constructor that a key starts with. -/
def headOfBytes : List UInt8 → Nat
  | 110 :: 101 :: _ => 0
  | 117 :: 110 :: 107 :: _ => 1
  | 110 :: 117 :: 108 :: _ => 2
  | 117 :: 110 :: 100 :: _ => 3
  | 98 :: _ => 4
  | 110 :: 117 :: 109 :: _ => 5
  | 115 :: _ => 6
  | 108 :: 105 :: 116 :: 58 :: 115 :: _ => 7
  | 108 :: 105 :: 116 :: 58 :: 110 :: _ => 8
  | 108 :: 105 :: 116 :: 58 :: 98 :: _ => 9
  | 111 :: _ => 10
  | 116 :: _ => 11
  | 102 :: _ => 12
  | 85 :: _ => 13
  | 73 :: _ => 14
  | _ => 15

/-- Only the bytes of a key's first word are looked at. -/
theorem headOfBytes_append (word : String) {bytes rest : List UInt8}
    (hw : (Text.ofString word).toList = bytes) :
    headOfBytes ((Text.ofString word).toList ++ rest) = headOfBytes (bytes ++ rest) := by
  rw [hw]

theorem headOfBytes_key_append (t : Ty) (rest : List UInt8) :
    headOfBytes (t.key.toList ++ rest) = t.head := by
  cases t with
  | never => exact headOfBytes_append "never" rfl
  | unknown => exact headOfBytes_append "unknown" rfl
  | null => exact headOfBytes_append "null" rfl
  | undefined => exact headOfBytes_append "undefined" rfl
  | boolean => exact headOfBytes_append "boolean" rfl
  | number => exact headOfBytes_append "number" rfl
  | string => exact headOfBytes_append "string" rfl
  | literal l =>
    cases l <;> simp only [key, Literal.base, kind, Text.toList_append, List.append_assoc] <;>
      exact headOfBytes_append "lit:" rfl
  | object tag props =>
    simp only [key, Text.toList_append, List.append_assoc]
    exact headOfBytes_append "obj<" rfl
  | tuple elems rest =>
    cases rest <;> simp only [key, Text.toList_append, List.append_assoc] <;>
      exact headOfBytes_append "tup[" rfl
  | function params ret =>
    simp only [key, Text.toList_append, List.append_assoc]
    exact headOfBytes_append "fn(" rfl
  | union ms =>
    simp only [key, Text.toList_append, List.append_assoc]
    exact headOfBytes_append "U(" rfl
  | inter ms =>
    simp only [key, Text.toList_append, List.append_assoc]
    exact headOfBytes_append "I(" rfl
  | var name bound =>
    cases bound <;> simp only [key, Text.toList_append, List.append_assoc] <;>
      exact headOfBytes_append "var:" rfl

theorem headOfBytes_key (t : Ty) : headOfBytes t.key.toList = t.head := by
  simpa using headOfBytes_key_append t []

/-- Types with one key have one constructor, and literals with one key have one atom. -/
theorem head_eq_of_key_eq {a b : Ty} (hk : a.key = b.key) : a.head = b.head := by
  rw [← headOfBytes_key a, ← headOfBytes_key b, hk]

/-! ## Sameness -/

theorem same_iff {a b : Ty} : a.same b = true ↔ a.key = b.key := by
  simp [same]

@[simp] theorem same_self (a : Ty) : a.same a = true := by
  simp [same]

/-- Nothing but an atom has the constructor of the atom. -/
theorem eq_of_head_eq_atom {a t : Ty} (ha : a ∈ atoms) (hh : t.head = a.head) : t = a := by
  simp only [atoms, List.mem_cons, List.not_mem_nil, or_false] at ha
  rcases ha with rfl | rfl | rfl | rfl | rfl | rfl | rfl <;> cases t <;>
    first | rfl | (rename_i l; cases l <;> simp [head] at hh) | simp [head] at hh

/-- Nothing but an atom has the key of the atom. -/
theorem eq_of_key_eq_atom {a t : Ty} (ha : a ∈ atoms) (hk : t.key = a.key) : t = a :=
  eq_of_head_eq_atom ha (head_eq_of_key_eq hk)

theorem base_mem_atoms (l : Literal) : l.base ∈ atoms := by
  cases l <;> simp [Literal.base, atoms]

/-- What has the key of a literal is a literal of the same atom. -/
theorem literal_of_key_eq {l : Literal} {t : Ty} (hk : t.key = (Ty.literal l).key) :
    ∃ l', t = .literal l' ∧ l'.base = l.base := by
  have hhead := head_eq_of_key_eq hk
  cases t with
  | literal l' =>
    refine ⟨l', rfl, ?_⟩
    cases l <;> cases l' <;> first | rfl | simp [head] at hhead
  | _ => cases l <;> simp [head] at hhead

theorem keys_eq_map (ts : List Ty) : keys ts = ts.map key := by
  induction ts with
  | nil => rfl
  | cons t ts ih => rw [keys, ih, List.map_cons]

end FlowTyping.Ty
