import FlowTyping.Proofs.Text.Decoding
import FlowTyping.Proofs.Text.Reading

/-!
# Characters as bytes

Writing characters as bytes and reading the bytes as symbols are inverse to each other, in both
directions. So what was made of characters is read as those characters, whatever follows.

* **`Text.next?_utf8`** — a character is read off the front of its bytes.
* **`Text.decode_spell`**, **`Text.shown_spell`** — the bytes of characters read as the characters.
* **`Text.flatMap_encode_decode`** — the bytes of the symbols of a byte string are the byte string.
-/

namespace FlowTyping.Text

/-! ## One character -/

/-- The bytes of a character are its spelling. -/
theorem spells_utf8 (c : Char) : Spells ((String.utf8EncodeChar c).map UInt8.toNat) c.toNat := by
  have hvalid : c.toNat < 0xd800 ∨ (0xdfff < c.toNat ∧ c.toNat < 0x110000) := c.valid
  have htoNat : c.val.toNat = c.toNat := rfl
  unfold String.utf8EncodeChar
  simp only [htoNat]
  split
  · rw [List.map_cons, List.map_nil, UInt8.toNat_ofNat']
    exact .one (by omega) (by omega)
  · split
    · simp only [List.map_cons, List.map_nil, UInt8.toNat_ofNat']
      exact .two (by omega) (by omega) (by omega)
    · split
      · simp only [List.map_cons, List.map_nil, UInt8.toNat_ofNat']
        exact .three (by omega) (by omega) (by omega) (by omega) (by omega) (by omega)
      · simp only [List.map_cons, List.map_nil, UInt8.toNat_ofNat']
        exact .four (by omega) (by omega) (by omega) (by omega) (by omega) (by omega) (by omega)

theorem isTail_of_bounds {b : UInt8} (h : 128 ≤ b.toNat ∧ b.toNat ≤ 191) : isTail b = true :=
  between_iff.2 h

theorem isSecond_of_bounds {a b : UInt8} (hb : 128 ≤ b.toNat ∧ b.toNat ≤ 191)
    (h224 : a.toNat = 224 → 160 ≤ b.toNat) (h237 : a.toNat = 237 → b.toNat ≤ 159)
    (h240 : a.toNat = 240 → 144 ≤ b.toNat) (h244 : a.toNat = 244 → b.toNat ≤ 143) :
    isSecond a b = true := by
  unfold isSecond
  split
  · exact between_iff.2 ⟨h224 (by simp [*]), hb.2⟩
  · split
    · exact between_iff.2 ⟨hb.1, h237 (by simp [*])⟩
    · split
      · exact between_iff.2 ⟨h240 (by simp [*]), hb.2⟩
      · split
        · exact between_iff.2 ⟨hb.1, h244 (by simp [*])⟩
        · exact isTail_of_bounds hb

/-- The first byte announces the number of bytes. -/
theorem announcedWidth_of_bounds (a : UInt8) :
    (a.toNat ≤ 127 → announcedWidth a = 1) ∧ (194 ≤ a.toNat ∧ a.toNat ≤ 223 → announcedWidth a = 2) ∧
      (224 ≤ a.toNat ∧ a.toNat ≤ 239 → announcedWidth a = 3) ∧
      (240 ≤ a.toNat ∧ a.toNat ≤ 244 → announcedWidth a = 4) := by
  unfold announcedWidth
  simp only [UInt8.lt_iff_toNat_lt, between_iff, UInt8.reduceToNat]
  refine ⟨fun h => ?_, fun h => ?_, fun h => ?_, fun h => ?_⟩
  · rw [if_pos (show a.toNat < 128 by omega)]
  · rw [if_neg (show ¬ a.toNat < 128 by omega), if_pos (show 194 ≤ a.toNat ∧ a.toNat ≤ 223 from h)]
  · rw [if_neg (show ¬ a.toNat < 128 by omega), if_neg (show ¬ (194 ≤ a.toNat ∧ a.toNat ≤ 223) by omega),
      if_pos (show 224 ≤ a.toNat ∧ a.toNat ≤ 239 from h)]
  · rw [if_neg (show ¬ a.toNat < 128 by omega), if_neg (show ¬ (194 ≤ a.toNat ∧ a.toNat ≤ 223) by omega),
      if_neg (show ¬ (224 ≤ a.toNat ∧ a.toNat ≤ 239) by omega),
      if_pos (show 240 ≤ a.toNat ∧ a.toNat ≤ 244 from h)]

/-- A spelling is read off the front of what it stands at, as one character. -/
theorem next?_of_spells {front rest : Bytes} {n : Nat} (h : Spells (front.map UInt8.toNat) n) :
    next? (front ++ rest) = some (.char (Char.ofNat n), front.length) := by
  generalize hmap : front.map UInt8.toNat = numbers at h
  cases h with
  | one ha hn =>
    obtain ⟨a, x, rfl, rfl, hx⟩ := List.map_eq_cons_iff.1 hmap
    obtain rfl := List.map_eq_nil_iff.1 hx
    simp [next?, (announcedWidth_of_bounds a).1 ha, hn]
  | two ha hb hn =>
    obtain ⟨a, x, rfl, rfl, hx⟩ := List.map_eq_cons_iff.1 hmap
    obtain ⟨b, y, rfl, rfl, hy⟩ := List.map_eq_cons_iff.1 hx
    obtain rfl := List.map_eq_nil_iff.1 hy
    have hsecond : isSecond a b = true :=
      isSecond_of_bounds hb (by omega) (by omega) (by omega) (by omega)
    simp [next?, (announcedWidth_of_bounds a).2.1 ha, hsecond, tailBits, hn]
  | three ha hb hc hlong hsurrogate hn =>
    obtain ⟨a, x, rfl, rfl, hx⟩ := List.map_eq_cons_iff.1 hmap
    obtain ⟨b, y, rfl, rfl, hy⟩ := List.map_eq_cons_iff.1 hx
    obtain ⟨c, z, rfl, rfl, hz⟩ := List.map_eq_cons_iff.1 hy
    obtain rfl := List.map_eq_nil_iff.1 hz
    have hsecond : isSecond a b = true :=
      isSecond_of_bounds hb hlong hsurrogate (by omega) (by omega)
    simp [next?, (announcedWidth_of_bounds a).2.2.1 ha, hsecond, isTail_of_bounds hc, tailBits, hn]
  | four ha hb hc hd hlong hlast hn =>
    obtain ⟨a, x, rfl, rfl, hx⟩ := List.map_eq_cons_iff.1 hmap
    obtain ⟨b, y, rfl, rfl, hy⟩ := List.map_eq_cons_iff.1 hx
    obtain ⟨c, z, rfl, rfl, hz⟩ := List.map_eq_cons_iff.1 hy
    obtain ⟨d, w, rfl, rfl, hw⟩ := List.map_eq_cons_iff.1 hz
    obtain rfl := List.map_eq_nil_iff.1 hw
    have hsecond : isSecond a b = true :=
      isSecond_of_bounds hb (by omega) (by omega) hlong hlast
    simp [next?, (announcedWidth_of_bounds a).2.2.2 ha, hsecond, isTail_of_bounds hc,
      isTail_of_bounds hd, tailBits, hn]

/-- **A character is read off the front of its bytes**, whatever follows. -/
theorem next?_utf8 (c : Char) (rest : Bytes) :
    next? (String.utf8EncodeChar c ++ rest) = some (.char c, (String.utf8EncodeChar c).length) := by
  have h : next? (String.utf8EncodeChar c ++ rest) = _ := next?_of_spells (spells_utf8 c)
  rwa [Char.ofNat_toNat] at h

/-! ## Many characters -/

/-- The bytes of characters. -/
def spell (cs : List Char) : Bytes := cs.flatMap String.utf8EncodeChar

@[simp] theorem spell_nil : spell [] = [] := rfl

@[simp] theorem spell_cons (c : Char) (cs : List Char) :
    spell (c :: cs) = String.utf8EncodeChar c ++ spell cs := rfl

@[simp] theorem spell_append (cs ds : List Char) : spell (cs ++ ds) = spell cs ++ spell ds :=
  List.flatMap_append

theorem toList_ofString (s : String) : (ofString s).toList = spell s.toList := by
  rw [← String.ofList_toList (s := s), toList_ofString_ofList, String.toList_ofList]
  rfl

theorem length_le_length_spell (cs : List Char) : cs.length ≤ (spell cs).length := by
  induction cs with
  | nil => exact Nat.le_refl 0
  | cons c cs ih =>
    have hpos : 0 < (String.utf8EncodeChar c).length :=
      List.length_pos_iff.2 String.utf8EncodeChar_ne_nil
    rw [spell_cons, List.length_append, List.length_cons]
    omega

theorem decodeUpTo_spell {n : Nat} {cs : List Char} (hn : cs.length ≤ n) :
    decodeUpTo n (spell cs) = cs.map Sym.char := by
  induction cs generalizing n with
  | nil => cases n <;> rfl
  | cons c cs ih =>
    obtain ⟨n, rfl⟩ : ∃ k, n = k + 1 := ⟨n - 1, by rw [List.length_cons] at hn; omega⟩
    rw [spell_cons, decodeUpTo, next?_utf8]
    simp only [List.drop_left, List.map_cons]
    rw [ih (Nat.le_of_succ_le_succ hn)]

/-- **The bytes of characters read as the characters.** -/
theorem decode_spell (cs : List Char) : decode (spell cs) = cs.map Sym.char :=
  decodeUpTo_spell (length_le_length_spell cs)

theorem shown_spell (cs : List Char) : shown (spell cs) = String.ofList cs := by
  have hchars : (cs.map Sym.char).map Sym.toChar = cs := by
    rw [List.map_map]
    exact List.map_id cs
  rw [shown, decode_spell, hchars]

/-- Bytes that are those of characters. -/
def Spelled (bytes : Bytes) : Prop := ∃ cs, bytes = spell cs

theorem Spelled.append {x y : Bytes} (hx : Spelled x) (hy : Spelled y) : Spelled (x ++ y) := by
  obtain ⟨cs, rfl⟩ := hx
  obtain ⟨ds, rfl⟩ := hy
  exact ⟨cs ++ ds, (spell_append cs ds).symm⟩

theorem spelled_ofString (s : String) : Spelled (ofString s).toList := ⟨s.toList, toList_ofString s⟩

/-- What follows a character in the bytes of characters are the bytes of characters. -/
theorem Spelled.of_cons {c : Char} {rest : Bytes} (h : Spelled (String.utf8EncodeChar c ++ rest)) :
    Spelled rest := by
  obtain ⟨cs, hcs⟩ := h
  cases cs with
  | nil => exact absurd (List.append_eq_nil_iff.1 hcs).1 String.utf8EncodeChar_ne_nil
  | cons d cs => exact ⟨cs, (utf8_append_inj hcs).2⟩

/-! ## Symbols as bytes -/

theorem toList_loop (bytes : ByteArray) (i : Nat) (r : List UInt8) :
    ByteArray.toList.loop bytes i r = r.reverse ++ bytes.data.toList.drop i := by
  induction h : bytes.size - i generalizing i r with
  | zero =>
    have hsize : bytes.data.toList.length ≤ i := Nat.le_of_sub_eq_zero h
    rw [ByteArray.toList.loop, if_neg (by omega), List.drop_eq_nil_of_le hsize, List.append_nil]
  | succ n ih =>
    have hsize : i < bytes.size := by omega
    have hi : i < bytes.data.toList.length := hsize
    rw [ByteArray.toList.loop, if_pos hsize, ih (i + 1) _ (by omega), List.drop_eq_getElem_cons hi,
      List.reverse_cons, List.append_assoc, List.singleton_append]
    congr 2
    exact getElem!_pos bytes.data i hi

theorem byteArray_toList (bytes : ByteArray) : bytes.toList = bytes.data.toList :=
  toList_loop bytes 0 []

theorem encode_char (c : Char) : (Sym.char c).encode = String.utf8EncodeChar c := by
  have hbytes : (ofString (String.ofList [c])).toList = String.utf8EncodeChar c := by
    rw [toList_ofString_ofList]
    exact List.append_nil _
  show (String.ofList [c]).toUTF8.toList = _
  rw [byteArray_toList]
  exact hbytes

/-- The bytes of a symbol are those that it is read off. -/
theorem Sym.ReadOff.encode {front : Bytes} {s : Sym} (h : s.ReadOff front) : s.encode = front := by
  cases s with
  | char c =>
    rw [encode_char]
    exact Sym.ReadOff.unique (s := .char c) (spells_utf8 c) h
  | stray b => exact Eq.symm h

/-- **The bytes of the symbols of a byte string are the byte string.** -/
theorem flatMap_encode_decode (v : Bytes) : (decode v).flatMap Sym.encode = v := by
  have hupTo (symbols : List Sym) (n : Nat) (v : Bytes) (hv : v.length ≤ n)
      (hn : decodeUpTo n v = symbols) : symbols.flatMap Sym.encode = v := by
    induction symbols generalizing n v with
    | nil => exact (decodeUpTo_eq_nil hv hn).symm
    | cons s rest ih =>
      obtain ⟨front, tail, k, rfl, hfront, hlen, htail⟩ := decodeUpTo_eq_cons hv hn
      rw [List.flatMap_cons, hfront.encode, ih k tail hlen htail]
  exact hupTo (decode v) v.length v (Nat.le_refl _) rfl

end FlowTyping.Text
