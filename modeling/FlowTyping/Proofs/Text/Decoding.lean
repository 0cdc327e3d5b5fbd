import FlowTyping.Text.Utf8

/-!
# Symbols tell their bytes

Reading a byte string as symbols loses nothing: a character has one spelling, of one to four bytes, and a
stray byte stands for itself. So two byte strings with the same symbols are the same.

* **`Text.Spells`** — the spellings of a character, by the ranges of their bytes.
* **`Text.next?_front`** — the bytes that a symbol is read off.
* **`Text.decode_injective`**
-/

namespace FlowTyping.Text

/-- Some bytes spell the character of a number, in one of four forms. There are no overlong ones, no
surrogates and no numbers past the last. -/
inductive Spells : List Nat → Nat → Prop where
  | one {a n : Nat} (ha : a ≤ 127) (hn : n = a) : Spells [a] n
  | two {a b n : Nat} (ha : 194 ≤ a ∧ a ≤ 223) (hb : 128 ≤ b ∧ b ≤ 191)
    (hn : n = a % 32 * 64 + b % 64) : Spells [a, b] n
  | three {a b c n : Nat} (ha : 224 ≤ a ∧ a ≤ 239) (hb : 128 ≤ b ∧ b ≤ 191) (hc : 128 ≤ c ∧ c ≤ 191)
    (hlong : a = 224 → 160 ≤ b) (hsurrogate : a = 237 → b ≤ 159)
    (hn : n = a % 16 * 4096 + b % 64 * 64 + c % 64) : Spells [a, b, c] n
  | four {a b c d n : Nat} (ha : 240 ≤ a ∧ a ≤ 244) (hb : 128 ≤ b ∧ b ≤ 191) (hc : 128 ≤ c ∧ c ≤ 191)
    (hd : 128 ≤ d ∧ d ≤ 191) (hlong : a = 240 → 144 ≤ b) (hlast : a = 244 → b ≤ 143)
    (hn : n = a % 8 * 262144 + b % 64 * 4096 + c % 64 * 64 + d % 64) : Spells [a, b, c, d] n

/-- The number of a character tells the length of its spelling. -/
theorem Spells.length_bounds {front : List Nat} {n : Nat} (h : Spells front n) :
    front.length = 1 ∧ n < 128 ∨ front.length = 2 ∧ 128 ≤ n ∧ n < 2048 ∨
      front.length = 3 ∧ 2048 ≤ n ∧ n < 65536 ∨ front.length = 4 ∧ 65536 ≤ n := by
  cases h with
  | one ha hn => exact .inl ⟨rfl, by omega⟩
  | @two a b _ ha hb hn => exact .inr (.inl ⟨rfl, by omega, by omega⟩)
  | @three a b c _ ha hb hc hlong _ hn => exact .inr (.inr (.inl ⟨rfl, by omega, by omega⟩))
  | @four a b c d _ ha hb hc hd hlong _ hn => exact .inr (.inr (.inr ⟨rfl, by omega⟩))

/-- A character has one spelling: its number tells how long it is, and then each byte. -/
theorem Spells.unique {front front' : List Nat} {n : Nat} (h : Spells front n) (h' : Spells front' n) :
    front = front' := by
  have hlength : front.length = front'.length := by
    have hn := h.length_bounds
    have hn' := h'.length_bounds
    omega
  -- the last six bits of a byte that follows are a digit of the number
  have hdigit {b b' : Nat} (hb : 128 ≤ b ∧ b ≤ 191) (hb' : 128 ≤ b' ∧ b' ≤ 191) (heq : b % 64 = b' % 64) :
      b = b' := by omega
  have hdigits {x y x' y' : Nat} (hy : y < 64) (hy' : y' < 64) (heq : x * 64 + y = x' * 64 + y') :
      x = x' ∧ y = y' := by omega
  have hlow (b : Nat) : b % 64 < 64 := Nat.mod_lt b (by decide)
  cases h with
  | one ha hn =>
    cases h' with
    | one ha' hn' => rw [← hn, ← hn']
    | _ => simp at hlength
  | @two a b _ ha hb hn =>
    cases h' with
    | @two a' b' _ ha' hb' hn' =>
      obtain ⟨hlead, hb''⟩ := hdigits (hlow b) (hlow b') (hn.symm.trans hn')
      rw [hdigit hb hb' hb'', show a = a' by omega]
    | _ => simp at hlength
  | @three a b c _ ha hb hc hlong hsurrogate hn =>
    cases h' with
    | @three a' b' c' _ ha' hb' hc' hlong' hsurrogate' hn' =>
      have hnest : (a % 16 * 64 + b % 64) * 64 + c % 64 = (a' % 16 * 64 + b' % 64) * 64 + c' % 64 := by omega
      obtain ⟨hfront, hc''⟩ := hdigits (hlow c) (hlow c') hnest
      obtain ⟨hlead, hb''⟩ := hdigits (hlow b) (hlow b') hfront
      rw [hdigit hc hc' hc'', hdigit hb hb' hb'', show a = a' by omega]
    | _ => simp at hlength
  | @four a b c d _ ha hb hc hd hlong hlast hn =>
    cases h' with
    | @four a' b' c' d' _ ha' hb' hc' hd' hlong' hlast' hn' =>
      have hnest : ((a % 8 * 64 + b % 64) * 64 + c % 64) * 64 + d % 64 =
          ((a' % 8 * 64 + b' % 64) * 64 + c' % 64) * 64 + d' % 64 := by omega
      obtain ⟨hfront, hd''⟩ := hdigits (hlow d) (hlow d') hnest
      obtain ⟨hfront, hc''⟩ := hdigits (hlow c) (hlow c') hfront
      obtain ⟨hlead, hb''⟩ := hdigits (hlow b) (hlow b') hfront
      rw [hdigit hd hd' hd'', hdigit hc hc' hc'', hdigit hb hb' hb'', show a = a' by omega]
    | _ => simp at hlength

theorem Spells.isValidChar {front : List Nat} {n : Nat} (h : Spells front n) : n.isValidChar := by
  cases h with
  | one => exact .inl (by omega)
  | two => exact .inl (by omega)
  | three =>
    by_cases hn : n < 0xd800
    · exact .inl hn
    · exact .inr (by omega)
  | four => exact .inr (by omega)

/-- The bytes that a symbol is read off. -/
def Sym.ReadOff (front : Bytes) : Sym → Prop
  | .char c => Spells (front.map UInt8.toNat) c.toNat
  | .stray b => front = [b]

theorem Sym.ReadOff.unique {front front' : Bytes} {s : Sym} (h : s.ReadOff front) (h' : s.ReadOff front') :
    front = front' := by
  cases s with
  | char c =>
    have hmap := Spells.unique h h'
    exact List.map_inj_right (fun _ _ hab => UInt8.toNat_inj.1 hab) |>.1 hmap
  | stray b => exact Eq.trans h (Eq.symm h')

theorem toNat_ofNat_of_spells {front : List Nat} {n : Nat} (h : Spells front n) :
    (Char.ofNat n).toNat = n := by
  unfold Char.ofNat
  rw [dif_pos h.isValidChar]
  rfl

/-- Whether a byte lies between two others, in whole numbers. -/
theorem between_iff {lo b hi : UInt8} :
    (decide (lo ≤ b) && decide (b ≤ hi)) = true ↔ lo.toNat ≤ b.toNat ∧ b.toNat ≤ hi.toNat := by
  rw [Bool.and_eq_true, decide_eq_true_eq, decide_eq_true_eq, UInt8.le_iff_toNat_le, UInt8.le_iff_toNat_le]

theorem isTail_bounds {b : UInt8} (h : isTail b = true) : 128 ≤ b.toNat ∧ b.toNat ≤ 191 :=
  between_iff.1 h

theorem isSecond_bounds {a b : UInt8} (h : isSecond a b = true) :
    (128 ≤ b.toNat ∧ b.toNat ≤ 191) ∧ (a.toNat = 224 → 160 ≤ b.toNat) ∧
      (a.toNat = 237 → b.toNat ≤ 159) ∧ (a.toNat = 240 → 144 ≤ b.toNat) ∧
      (a.toNat = 244 → b.toNat ≤ 143) := by
  -- the first bytes 224, 237, 240 and 244 bound the second one more closely
  have hne {k : UInt8} (hk : a ≠ k) : a.toNat ≠ k.toNat := fun heq => hk (UInt8.toNat_inj.1 heq)
  unfold isSecond at h
  split at h
  · rename_i ha
    have hb := between_iff.1 h
    subst ha
    simp at hb ⊢
    omega
  · rename_i h224
    have h224 := hne h224
    split at h
    · rename_i ha
      have hb := between_iff.1 h
      subst ha
      simp at hb ⊢
      omega
    · rename_i h237
      have h237 := hne h237
      split at h
      · rename_i ha
        have hb := between_iff.1 h
        subst ha
        simp at hb ⊢
        omega
      · rename_i h240
        have h240 := hne h240
        split at h
        · rename_i ha
          have hb := between_iff.1 h
          subst ha
          simp at hb ⊢
          omega
        · rename_i h244
          have h244 := hne h244
          have hb := isTail_bounds h
          simp at h224 h237 h240 h244
          omega

theorem announcedWidth_bounds (a : UInt8) :
    (announcedWidth a = 1 → a.toNat ≤ 127) ∧ (announcedWidth a = 2 → 194 ≤ a.toNat ∧ a.toNat ≤ 223) ∧
      (announcedWidth a = 3 → 224 ≤ a.toNat ∧ a.toNat ≤ 239) ∧
      (announcedWidth a = 4 → 240 ≤ a.toNat ∧ a.toNat ≤ 244) := by
  unfold announcedWidth
  split
  · rename_i ha
    have ha := UInt8.lt_iff_toNat_lt.1 ha
    simp at ha ⊢
    omega
  · split
    · rename_i ha
      have ha := between_iff.1 ha
      simp at ha ⊢
      omega
    · split
      · rename_i ha
        have ha := between_iff.1 ha
        simp at ha ⊢
        omega
      · split
        · rename_i ha
          have ha := between_iff.1 ha
          simp at ha ⊢
          omega
        · simp

theorem Spells.readOff {front : Bytes} {n : Nat} (h : Spells (front.map UInt8.toNat) n) :
    (Sym.char (Char.ofNat n)).ReadOff front := by
  show Spells (front.map UInt8.toNat) (Char.ofNat n).toNat
  rwa [toNat_ofNat_of_spells h]

theorem next?_front {bytes : Bytes} {s : Sym} {width : Nat} (hn : next? bytes = some (s, width)) :
    0 < width ∧ s.ReadOff (bytes.take width) := by
  cases bytes with
  | nil => simp [next?] at hn
  | cons a rest =>
    obtain ⟨h1, h2, h3, h4⟩ := announcedWidth_bounds a
    -- a byte that begins no character is read off alone
    have hstray (hs : some (Sym.stray a, 1) = some (s, width)) :
        0 < width ∧ s.ReadOff ((a :: rest).take width) := by
      obtain ⟨rfl, rfl⟩ := Prod.mk.inj (Option.some.inj hs)
      exact ⟨by decide, rfl⟩
    simp only [next?] at hn
    split at hn
    · rename_i hwidth
      obtain ⟨rfl, rfl⟩ := Prod.mk.inj (Option.some.inj hn)
      exact ⟨by decide, Spells.readOff (.one (h1 hwidth) rfl)⟩
    · rename_i b tail hwidth
      split at hn
      · rename_i hsecond
        obtain ⟨hb, -⟩ := isSecond_bounds hsecond
        obtain ⟨rfl, rfl⟩ := Prod.mk.inj (Option.some.inj hn)
        exact ⟨by decide, Spells.readOff (.two (h2 hwidth) hb rfl)⟩
      · exact hstray hn
    · rename_i b c tail hwidth
      split at hn
      · rename_i hsecond
        rw [Bool.and_eq_true] at hsecond
        obtain ⟨hb, hlong, hsurrogate, -⟩ := isSecond_bounds hsecond.1
        obtain ⟨rfl, rfl⟩ := Prod.mk.inj (Option.some.inj hn)
        exact ⟨by decide, Spells.readOff
          (.three (h3 hwidth) hb (isTail_bounds hsecond.2) hlong hsurrogate rfl)⟩
      · exact hstray hn
    · rename_i b c d tail hwidth
      split at hn
      · rename_i hsecond
        rw [Bool.and_eq_true, Bool.and_eq_true] at hsecond
        obtain ⟨hb, -, -, hlong, hlast⟩ := isSecond_bounds hsecond.1.1
        obtain ⟨rfl, rfl⟩ := Prod.mk.inj (Option.some.inj hn)
        exact ⟨by decide, Spells.readOff
          (.four (h4 hwidth) hb (isTail_bounds hsecond.1.2) (isTail_bounds hsecond.2) hlong hlast rfl)⟩
      · exact hstray hn
    · exact hstray hn

theorem next?_eq_none_iff {bytes : Bytes} : next? bytes = none ↔ bytes = [] := by
  cases bytes with
  | nil => simp [next?]
  | cons a rest =>
    simp only [reduceCtorEq, iff_false, next?]
    repeat' split
    all_goals simp

theorem decodeUpTo_eq_nil {n : Nat} {v : Bytes} (hv : v.length ≤ n) (h : decodeUpTo n v = []) : v = [] := by
  cases n with
  | zero => exact List.length_eq_zero_iff.1 (Nat.le_zero.1 hv)
  | succ n =>
    rw [decodeUpTo] at h
    split at h
    · rename_i hnone
      exact next?_eq_none_iff.1 hnone
    · simp at h

/-- The first symbol is read off the first bytes, and the others off the rest. -/
theorem decodeUpTo_eq_cons {n : Nat} {v : Bytes} {s : Sym} {rest : List Sym}
    (hv : v.length ≤ n) (h : decodeUpTo n v = s :: rest) :
    ∃ front tail k, v = front ++ tail ∧ s.ReadOff front ∧ tail.length ≤ k ∧ decodeUpTo k tail = rest := by
  cases n with
  | zero => simp [decodeUpTo] at h
  | succ n =>
    rw [decodeUpTo] at h
    split at h
    · simp at h
    · rename_i s' width hnext
      obtain ⟨rfl, hrest⟩ := List.cons.inj h
      obtain ⟨hwidth, hfront⟩ := next?_front hnext
      refine ⟨v.take width, v.drop width, n, (List.take_append_drop width v).symm, hfront, ?_, hrest⟩
      rw [List.length_drop]
      omega

/-- **Byte strings with the same symbols are the same.** -/
theorem decode_injective : Function.Injective decode := by
  have hupTo (symbols : List Sym) (n k : Nat) (v w : Bytes) (hv : v.length ≤ n) (hw : w.length ≤ k)
      (hn : decodeUpTo n v = symbols) (hk : decodeUpTo k w = symbols) : v = w := by
    induction symbols generalizing n k v w with
    | nil => rw [decodeUpTo_eq_nil hv hn, decodeUpTo_eq_nil hw hk]
    | cons s rest ih =>
      obtain ⟨front, tail, n', rfl, hfront, hlen, htail⟩ := decodeUpTo_eq_cons hv hn
      obtain ⟨front', tail', k', rfl, hfront', hlen', htail'⟩ := decodeUpTo_eq_cons hw hk
      rw [hfront.unique hfront', ih n' k' tail tail' hlen hlen' htail htail']
  intro v w h
  exact hupTo (decode v) v.length w.length v w (Nat.le_refl _) (Nat.le_refl _) rfl h.symm

end FlowTyping.Text
