import FlowTyping.Text.Basic
import Mathlib.Order.Compare

/-!
# Texts in order

Texts are compared byte by byte, from a place on. This is the lexicographic order of their bytes, so it
is linear.

* **`Text.compare_eq`** — the order is that of the lists of bytes.
* **`Text.lt_trans`**, **`Text.le_trans`**, **`Text.le_total`**, **`Text.lt_of_le_of_ne`**
-/

namespace FlowTyping.Text

theorem compareFrom_eq (a b : ByteArray) (i : Nat) :
    compareFrom a b i = compare (a.data.toList.drop i) (b.data.toList.drop i) := by
  have hdrop (x : ByteArray) {i : Nat} (hi : i < x.size) :
      x.data.toList.drop i = x[i] :: x.data.toList.drop (i + 1) :=
    List.drop_eq_getElem_cons (by simpa using hi)
  have hnil (x : ByteArray) {i : Nat} (hi : ¬ i < x.size) : x.data.toList.drop i = [] :=
    List.drop_eq_nil_of_le (by simpa using hi)
  have hcompare (x y : UInt8) : compare x y = if x < y then .lt else if x = y then .eq else .gt := rfl
  fun_induction compareFrom a b i with
  | case1 i ha hb hlt =>
    rw [hdrop a ha, hdrop b hb, List.compare_cons_cons, hcompare, if_pos hlt]
    rfl
  | case2 i ha hb hlt hgt =>
    have hne : a[i] ≠ b[i] := fun heq => UInt8.lt_irrefl _ (heq ▸ hgt)
    rw [hdrop a ha, hdrop b hb, List.compare_cons_cons, hcompare, if_neg hlt, if_neg hne]
    rfl
  | case3 i ha hb hlt hgt ih =>
    have heq : a[i] = b[i] := UInt8.le_antisymm (UInt8.not_lt.1 hgt) (UInt8.not_lt.1 hlt)
    rw [hdrop a ha, hdrop b hb, List.compare_cons_cons, hcompare, if_neg hlt, if_pos heq, ih]
    rfl
  | case4 i ha hb =>
    rw [hdrop a ha, hnil b hb]
    rfl
  | case5 i ha hb =>
    rw [hnil a ha, hdrop b hb]
    rfl
  | case6 i ha hb =>
    rw [hnil a ha, hnil b hb]
    rfl

/-- The order of texts is that of their bytes. -/
theorem compare_eq (a b : Text) : compare a b = compare a.toList b.toList :=
  compareFrom_eq a.bytes b.bytes 0

theorem toList_injective {a b : Text} (h : a.toList = b.toList) : a = b := by
  cases a
  cases b
  simp only [toList, Array.toList_inj] at h
  exact congrArg Text.mk (ByteArray.ext h)

instance : Std.TransOrd Text where
  eq_swap {a b} := by
    rw [compare_eq, compare_eq]
    exact Std.OrientedCmp.eq_swap
  isLE_trans {a b c} := by
    rw [compare_eq, compare_eq, compare_eq]
    exact Std.TransCmp.isLE_trans

instance : Std.LawfulEqOrd Text where
  eq_of_compare {a b} h := by
    rw [compare_eq] at h
    exact toList_injective (Std.LawfulEqCmp.eq_of_compare h)
  compare_self {a} := by
    rw [compare_eq]
    exact Std.ReflCmp.compare_self

variable {a b c : Text}

theorem lt_trans (hab : a < b) (hbc : b < c) : a < c := by
  show compare a c = .lt
  exact Std.TransCmp.lt_trans hab hbc

theorem le_trans (hab : a ≤ b) (hbc : b ≤ c) : a ≤ c := by
  show (compare a c).isLE
  exact Std.TransCmp.isLE_trans hab hbc

theorem le_total (a b : Text) : a ≤ b ∨ b ≤ a := by
  have hswap : compare b a = (compare a b).swap := Std.OrientedCmp.eq_swap
  show (compare a b).isLE ∨ (compare b a).isLE
  rw [hswap]
  cases compare a b <;> simp

theorem lt_irrefl (a : Text) : ¬ a < a := by
  have hself : compare a a = .eq := Std.ReflCmp.compare_self
  show ¬ compare a a = .lt
  rw [hself]
  decide

theorem lt_of_le_of_ne (hle : a ≤ b) (hne : a ≠ b) : a < b := by
  have hle : (compare a b).isLE := hle
  show compare a b = .lt
  cases hc : compare a b with
  | lt => rfl
  | eq => exact absurd (Std.LawfulEqCmp.eq_of_compare hc) hne
  | gt => simp [hc] at hle

theorem le_of_not_lt (h : ¬ a < b) : b ≤ a := by
  have hswap : compare b a = (compare a b).swap := Std.OrientedCmp.eq_swap
  have h : ¬ compare a b = .lt := h
  show (compare b a).isLE
  rw [hswap]
  cases hc : compare a b with
  | lt => exact absurd hc h
  | eq | gt => rfl

end FlowTyping.Text
