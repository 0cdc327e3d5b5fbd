import FlowTyping.Proofs.Number.Shortest
import FlowTyping.Proofs.Text.Decoding
import FlowTyping.Proofs.Ty.Mirror
import FlowTyping.Relation.Subtype
import FlowTyping.Ty.Printer

/-!
# Types that no class and no other key can confuse

A type without class tags and type parameters whose property names are words means the same whatever classes
are declared, and its key tells what it is made of. Where other types are kept whose names hold anything, such a
type can still be mistaken: an entry of another form may stand under the key that its meet or its union would
have. A few types cannot be, since nothing else has their keys.

* **`Ty.Lucid`** — no class tags, no type parameters, and words for property names.
* **`Ty.Sole`** — a type that is the only one with its key: the atoms, the literals, and
  (**`Ty.Numeric.sole`**) whatever the length of a text or a tuple can be.
-/

namespace FlowTyping.Ty

variable {s t : Ty}

/-- What is asked of the type itself: no class tag, no type parameter, and words for property names. -/
def OwnLucid : Ty → Prop
  | .object tag props => tag = "" ∧ ∀ p ∈ props, p.name.IsWord
  | .var _ _ => False
  | _ => True

/-- No class tags, no type parameters, and words for property names, in all of the type. -/
inductive Lucid : Ty → Prop where
  | intro {t : Ty} (hown : t.OwnLucid) (hparts : ∀ s ∈ t.parts, Lucid s) : Lucid t

namespace Lucid

theorem own (ht : Lucid t) : t.OwnLucid := by
  cases ht with
  | intro hown _ => exact hown

theorem part (ht : Lucid t) (hs : s ∈ t.parts) : Lucid s := by
  cases ht with
  | intro _ hparts => exact hparts s hs

theorem named (ht : Lucid t) : Named t := by
  induction ht with
  | @intro t hown _ ih =>
    refine .intro ?_ ih
    cases t with
    | object tag props =>
      obtain ⟨rfl, hprops⟩ := hown
      exact ⟨by decide, hprops⟩
    | var name bound => exact hown.elim
    | _ => trivial

theorem of_atom (ht : t ∈ atoms) : Lucid t := by
  simp only [atoms, List.mem_cons, List.not_mem_nil, or_false] at ht
  rcases ht with rfl | rfl | rfl | rfl | rfl | rfl | rfl <;> exact .intro trivial (by simp [parts])

theorem literal (l : Literal) : Lucid (.literal l) := .intro trivial (by simp [parts])

theorem member (ht : Lucid t) (hs : s ∈ t.members) : Lucid s := of_mem_members ht (fun _ => ht.part) hs

theorem argType {p : Param Ty} (hp : Lucid p.type) : Lucid (Rules.argType p) := by
  unfold Rules.argType
  split
  · rename_i elems rest _ heq
    rw [heq] at hp
    exact hp.part (List.mem_append_right _ (by simp))
  · exact hp

end Lucid

/-! ## Types that are the only ones with their keys -/

/-- Types with the same outline and equal parts are equal. Only functions may differ in more than that. -/
theorem eq_of_mirrors {a b : Ty} (hm : Mirrors Eq a b) (hf : a.isFunction = false) : a = b := by
  cases hm with
  | atom _ => rfl
  | text hv => rw [Text.decode_injective hv]
  | numeral hn => rw [Number.render_injective hn]
  | truth b => rfl
  | object tag hp =>
    congr 1
    refine List.forall₂_eq_eq_eq ▸ hp.imp fun p q hpq => ?_
    cases p
    cases q
    obtain ⟨rfl, rfl, rfl, rfl⟩ := hpq
    rfl
  | tuple he hr =>
    have helems : List.Forall₂ (· = ·) _ _ := he.imp fun e f hef => by
      cases e
      cases f
      obtain ⟨rfl, rfl⟩ := hef
      rfl
    rw [List.forall₂_eq_eq_eq] at helems
    cases hr with
    | none => rw [helems]
    | some hr => rw [helems, hr]
  | function _ _ => simp [isFunction] at hf
  | union hm =>
    rw [List.forall₂_eq_eq_eq] at hm
    rw [hm]
  | inter hm =>
    rw [List.forall₂_eq_eq_eq] at hm
    rw [hm]
  | var name hb =>
    cases hb with
    | none => rfl
    | some h => rw [h]

/-- No other type has the key. -/
def Sole (t : Ty) : Prop := ∀ s : Ty, s.key = t.key → s = t

theorem sole_of_atom (ht : t ∈ atoms) : Sole t := fun _ => eq_of_key_eq_atom ht

theorem sole_literal (l : Literal) : Sole (.literal l) := by
  intro s hs
  obtain ⟨l', rfl, -⟩ := literal_of_key_eq hs
  refine eq_of_mirrors ((mirrors_of_key_eq (Lucid.literal l').named (Lucid.literal l).named hs).imp ?_) rfl
  simp [parts]

/-- Only arrays have the key of an array. -/
theorem array_of_key_eq (hk : s.key = (Ty.tuple [] (some t)).key) : ∃ e, s = .tuple [] (some e) ∧ e.key = t.key := by
  have hhead := head_eq_of_key_eq hk
  cases s with
  | tuple elems rest =>
    -- after the bracket stands the text of an element or that of the rest type, and they begin differently
    have hafter : (Text.joinWith "," (elems.map elemText)).toList ++ afterElems rest [] = afterElems (some t) [] := by
      have h : (Ty.tuple elems rest).key.toList ++ [] = (Ty.tuple [] (some t)).key.toList ++ [] := by rw [hk]
      rw [toList_key_tuple, toList_key_tuple] at h
      exact List.append_cancel_left h
    cases elems with
    | cons e es =>
      rw [List.map_cons, toList_joinWith_cons, elemText, Text.toList_append, List.append_assoc,
        List.append_assoc] at hafter
      exact absurd hafter.symm (ne_key_append rfl e.type _)
    | nil =>
      cases rest with
      | none => exact absurd (List.cons.inj hafter).1 (by decide)
      | some e =>
        have hkeys : e.key.toList ++ [93] = t.key.toList ++ [93] :=
          List.append_cancel_left (show [44, 46, 46, 46] ++ _ = [44, 46, 46, 46] ++ _ from hafter)
        exact ⟨e, rfl, Text.toList_injective (List.append_cancel_right hkeys)⟩
  | literal l => cases l <;> simp [head] at hhead
  | _ => simp [head] at hhead

/-- A number, some of the numbers, or nothing. -/
def Numeric (t : Ty) : Prop := ∀ m ∈ t.members, m = .number ∨ ∃ n, m = .literal (.number n)

namespace Numeric

theorem number : Numeric .number := by simp [Numeric, members]

theorem never : Numeric .never := by simp [Numeric, members]

theorem literal (n : Number) : Numeric (.literal (.number n)) := by simp [Numeric, members]

/-- A numeric type is a union, or nothing but its own member. -/
theorem cases (ht : Numeric t) : t = .never ∨ t = .number ∨ (∃ n, t = .literal (.number n)) ∨ ∃ ms, t = .union ms := by
  cases t with
  | never => exact .inl rfl
  | union ms => exact .inr (.inr (.inr ⟨ms, rfl⟩))
  | _ => exact .inr ((ht _ (List.mem_singleton_self _)).imp id .inl)

theorem lucid (ht : Numeric t) : Lucid t := by
  rcases ht.cases with rfl | rfl | ⟨n, rfl⟩ | ⟨ms, rfl⟩
  · exact .of_atom (by simp [atoms])
  · exact .of_atom (by simp [atoms])
  · exact .literal _
  · refine .intro trivial fun m hm => ?_
    rcases ht m hm with rfl | ⟨n, rfl⟩
    · exact .of_atom (by simp [atoms])
    · exact .literal _

/-- A number that stands at a place where its key ends is the only type whose key may stand there. -/
theorem read_member {m n : Ty} (hm : m = .number ∨ ∃ k, m = .literal (.number k)) {r s : Text.Bytes}
    (hr : Text.Stops r) (hs : Text.Stops s) (h : m.key.toList ++ r = n.key.toList ++ s) : m = n ∧ r = s := by
  have hhead : m.head = n.head := by rw [← headOfBytes_key_append m r, h, headOfBytes_key_append]
  have hn : n = .number ∨ ∃ k, n = .literal (.number k) := by
    rcases hm with rfl | ⟨k, rfl⟩
    · exact .inl (eq_of_head_eq_atom (by simp [atoms]) hhead.symm)
    · cases n with
      | literal l => cases l <;> simp [head] at hhead ⊢
      | _ => simp [head] at hhead
  have hnumeric {x : Ty} (hx : x = .number ∨ ∃ k, x = .literal (.number k)) : Numeric x := by
    rcases hx with rfl | ⟨k, rfl⟩
    · exact number
    · exact literal k
  obtain ⟨hkey, hrest⟩ := (hnumeric hm).lucid.named.reads n (hnumeric hn).lucid.named r s hr hs h
  refine ⟨?_, hrest⟩
  rcases hn with rfl | ⟨k, rfl⟩
  · exact sole_of_atom (by simp [atoms]) m hkey
  · exact sole_literal _ m hkey

/-- **Nothing else has the key of a numeric type.** -/
theorem sole (ht : Numeric t) : Sole t := by
  rcases ht.cases with rfl | rfl | ⟨n, rfl⟩ | ⟨ms, rfl⟩
  · exact sole_of_atom (by simp [atoms])
  · exact sole_of_atom (by simp [atoms])
  · exact sole_literal _
  · intro s hs
    have hhead := head_eq_of_key_eq hs
    cases s with
    | union ns =>
      have h : (Ty.union ms).key.toList = (Ty.union ns).key.toList := congrArg Text.toList hs.symm
      simp only [key, Text.toList_append, List.append_assoc, keys_eq_map] at h
      have hend (x : Ty) (z : Text.Bytes) : [41] ≠ x.key.toList ++ z ∧ [41] ≠ 124 :: (x.key.toList ++ z) :=
        ⟨ne_key_append rfl x z, fun h => absurd (List.cons.inj h).1 (by decide)⟩
      -- the key of a union spells its members one after the other, so they can be read off again
      have hall : List.Forall₂ Eq ms ns :=
        (joined_inj (show (Text.ofString "|").toList = [124] from rfl) (fun z => Text.Stops.cons rfl z)
          (.cons rfl _) (.cons rfl _) hend hend (fun m hm n _ _ _ hr hs h => read_member (ht m hm) hr hs h)
          (List.append_cancel_left h)).1
      rw [List.forall₂_eq_eq_eq] at hall
      rw [hall]
    | literal l => cases l <;> simp [head] at hhead
    | _ => simp [head] at hhead

end Numeric

end FlowTyping.Ty
