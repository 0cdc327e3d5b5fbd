import FlowTyping.Proofs.Text.Spelling

/-!
# Quoted texts read back

What `quote` writes between the quotes is read back by `unquote?`, for every byte string: a symbol is
written in one of three ways, and each of them is read as the bytes of that symbol, whatever follows.

* `Text.quoted` — the characters between the quotes.
* **`Text.unquote?_quoted`** — they stand for the bytes that were quoted.
-/

namespace FlowTyping.Text

-- a power of whole numbers is the core one, whatever algebra is in scope
attribute [local instance (1100)] instPowNat

/-! ## Digits -/

/-- Digits are read one group after the other. -/
theorem readDigits_add (base : Nat) (value? : Char → Option Nat) (w k acc : Nat) (syms : List Sym) :
    readDigits base value? (w + k) acc syms =
      (readDigits base value? w acc syms).bind fun (acc, rest) => readDigits base value? k acc rest := by
  induction w generalizing acc syms with
  | zero =>
    rw [Nat.zero_add]
    rfl
  | succ w ih =>
    rw [Nat.succ_add]
    cases syms with
    | nil => rfl
    | cons s rest =>
      simp only [readDigits]
      cases value? s.toChar with
      | none => rfl
      | some d => exact ih _ _

theorem hexValue?_hexDigit : ∀ d < 16, hexValue? (hexDigit d) = some d := by decide

/-- So many hexadecimal digits are read as the number they were written for. -/
theorem readDigits_hexDigits {w n : Nat} (hn : n < 16 ^ w) (rest : List Sym) :
    readDigits 16 hexValue? w 0 ((hexDigits w n).map Sym.char ++ rest) = some (n, rest) := by
  induction w generalizing n rest with
  | zero =>
    obtain rfl : n = 0 := by simpa using hn
    rfl
  | succ w ih =>
    rw [Nat.pow_succ] at hn
    have hlast := hexValue?_hexDigit (n % 16) (Nat.mod_lt n (by decide))
    have hdigits : (hexDigits (w + 1) n).map Sym.char ++ rest =
        (hexDigits w (n / 16)).map Sym.char ++ Sym.char (hexDigit (n % 16)) :: rest := by
      simp [hexDigits]
    rw [readDigits_add, hdigits, ih (Nat.div_lt_of_lt_mul (by omega))]
    show readDigits 16 hexValue? 1 (n / 16) (Sym.char (hexDigit (n % 16)) :: rest) = _
    simp only [readDigits, Sym.toChar, hlast]
    rw [Nat.div_add_mod' n 16]

/-! ## Symbols -/

theorem isScalar_of_isValidChar {n : Nat} (h : n.isValidChar) : isScalar n = true := by
  have hn : n < 0xd800 ∨ (0xdfff < n ∧ n < 0x110000) := h
  simpa [isScalar] using hn

/-- What follows the backslash of a written symbol is read as the bytes of the symbol. -/
theorem readEscape_letter {letter : Char} (hl : letter ∈ escapeLetters) (rest : List Sym) :
    readEscape (.char letter :: rest) = some ((Sym.char (Char.ofNat (letterCode letter))).encode, rest) := by
  rw [encode_char]
  simp only [escapeLetters, letterEscapes, List.map_cons, List.map_nil, List.mem_cons, List.not_mem_nil,
    or_false] at hl
  rcases hl with rfl | rfl | rfl | rfl | rfl | rfl | rfl | rfl | rfl <;> rfl

theorem readEscape_number {mark : Char} {n : Nat} (hm : mark = 'x' ∨ mark = 'u' ∨ mark = 'U')
    (hn : n < 16 ^ markWidth mark) (hv : n.isValidChar) (rest : List Sym) :
    readEscape (.char mark :: ((hexDigits (markWidth mark) n).map Sym.char ++ rest)) =
      some ((numbered mark n).encode, rest) := by
  have hdigits := readDigits_hexDigits hn rest
  have hscalar := isScalar_of_isValidChar hv
  rcases hm with rfl | rfl | rfl
  · have hbyte : (numbered 'x' n).encode = [UInt8.ofNat n] := by
      by_cases hhigh : 128 ≤ n
      · rw [numbered, if_pos ⟨rfl, hhigh⟩]
        rfl
      · have htoNat : (Char.ofNat n).toNat = n := by
          unfold Char.ofNat
          rw [dif_pos hv]
          rfl
        rw [numbered, if_neg (by simp [hhigh]), encode_char, utf8_of_ascii (by omega), htoNat]
    rw [hbyte]
    show (readDigits 16 hexValue? 2 0 _).map _ = _
    rw [show (2 : Nat) = markWidth 'x' from rfl, hdigits]
    rfl
  · rw [numbered, if_neg (by simp)]
    show readEscape.scalar (readDigits 16 hexValue? 4 0 _) = _
    rw [show (4 : Nat) = markWidth 'u' from rfl, hdigits]
    simp only [readEscape.scalar, hscalar, if_true]
  · rw [numbered, if_neg (by simp)]
    show readEscape.scalar (readDigits 16 hexValue? 8 0 _) = _
    rw [show (8 : Nat) = markWidth 'U' from rfl, hdigits]
    simp only [readEscape.scalar, hscalar, if_true]

/-- A written symbol is read as one piece: the bytes of the symbol. -/
theorem WrittenSym.unquoteUpTo {s : Sym} {cs : List Char} (h : WrittenSym s cs) (n : Nat)
    (rest : List Sym) :
    Text.unquoteUpTo (n + 1) (cs.map Sym.char ++ rest) =
      (Text.unquoteUpTo n rest).map (s.encode ++ ·) := by
  cases h with
  | @plain c hq hb hn =>
    show Text.unquoteUpTo (n + 1) (.char c :: rest) = _
    rw [Text.unquoteUpTo]
    · rw [if_neg]
      simp [hq, hn]
    · simpa using hb
  | @letter c letter hc hl =>
    show Text.unquoteUpTo (n + 1) (.char '\\' :: .char letter :: rest) = _
    rw [Text.unquoteUpTo, readEscape_letter hl, hc]
  | @number mark k hm hn hv =>
    show Text.unquoteUpTo (n + 1)
      (.char '\\' :: .char mark :: ((hexDigits (markWidth mark) k).map Sym.char ++ rest)) = _
    rw [Text.unquoteUpTo, readEscape_number hm hn hv]

/-! ## Texts -/

/-- The characters between the quotes of a quoted byte string. -/
def quoted (bytes : Bytes) : List Char := (decode bytes).flatMap (quoteSym '"')

theorem toList_quote (v : Bytes) :
    (ofString (quote v)).toList = spell ['"'] ++ (spell (quoted v) ++ spell ['"']) := by
  rw [quote, toList_ofString_ofList]
  simp [quoted, spell]

theorem WrittenSym.ne_nil {s : Sym} {cs : List Char} (h : WrittenSym s cs) : cs ≠ [] := by
  cases h <;> simp

theorem length_le_length_quoted {σ : List Sym} (hσ : ∀ s ∈ σ, s.Valid) :
    σ.length ≤ (σ.flatMap (quoteSym '"')).length := by
  induction σ with
  | nil => exact Nat.le_refl 0
  | cons s σ ih =>
    have hpos : 0 < (quoteSym '"' s).length :=
      List.length_pos_iff.2 (quoteSym_written (hσ s (by simp))).ne_nil
    have hle := ih fun t ht => hσ t (by simp [ht])
    rw [List.flatMap_cons, List.length_append, List.length_cons]
    omega

theorem unquoteUpTo_quoted {σ : List Sym} (hσ : ∀ s ∈ σ, s.Valid) {n : Nat} (hn : σ.length ≤ n) :
    unquoteUpTo n ((σ.flatMap (quoteSym '"')).map Sym.char) = some (σ.flatMap Sym.encode) := by
  induction σ generalizing n with
  | nil => cases n <;> rfl
  | cons s σ ih =>
    obtain ⟨n, rfl⟩ : ∃ k, n = k + 1 := ⟨n - 1, by rw [List.length_cons] at hn; omega⟩
    rw [List.flatMap_cons, List.map_append, (quoteSym_written (hσ s (by simp))).unquoteUpTo,
      ih (fun t ht => hσ t (by simp [ht])) (Nat.le_of_succ_le_succ hn)]
    rfl

/-- **The inside of a quoted text is read as the bytes that were quoted.** -/
theorem unquote?_quoted (v : Bytes) : unquote? (spell (quoted v)) = some v := by
  have hvalid : ∀ s ∈ decode v, s.Valid := fun _ => decode_valid
  have hlength : (decode v).length ≤ ((quoted v).map Sym.char).length := by
    rw [List.length_map]
    exact length_le_length_quoted hvalid
  rw [unquote?, decode_spell]
  calc unquoteUpTo ((quoted v).map Sym.char).length ((quoted v).map Sym.char)
    _ = some ((decode v).flatMap Sym.encode) := unquoteUpTo_quoted hvalid hlength
    _ = some v := by rw [flatMap_encode_decode]

end FlowTyping.Text
