import FlowTyping.Number.Decimal
import FlowTyping.Proofs.Text.Order
import FlowTyping.Text.Quoted

/-!
# Where a written piece ends

A key is made of written pieces one after the other: words, numerals, quoted texts. Each of them ends
where it says, so that two writings that start with such a piece start with the same one.

* **`Text.span_inj`** — a piece of bytes of one class ends at the first byte that is not of that class.
* **`Text.quote_append_inj`** — a quoted text ends at its closing quote, and its inside tells the symbols.
* **`Number.isStop_render`** — no byte of a numeral ends a key.
-/

namespace FlowTyping.Text

-- a power of whole numbers is the core one, whatever algebra is in scope
attribute [local instance (1100)] instPowNat

/-! ## Pieces of one class of bytes -/

/-- A byte of a word: a letter, a digit, `_`, `$`, or part of a character that is not ASCII. -/
def isWordByte (b : UInt8) : Bool :=
  (97 ≤ b && b ≤ 122) || (65 ≤ b && b ≤ 90) || (48 ≤ b && b ≤ 57) || b == 95 || b == 36 || 128 ≤ b

/-- Only bytes of words. Identifiers are such texts, and so is the empty one. -/
def IsWord (t : Text) : Prop := ∀ b ∈ t.toList, isWordByte b = true

instance (t : Text) : Decidable t.IsWord :=
  decidable_of_iff (t.toList.all isWordByte = true) List.all_eq_true

/-- A byte that can follow a key inside a longer one: one of `;`, `,`, `?`, `]`, `)`, `|`, `&`. -/
def isStop (b : UInt8) : Bool :=
  b == 59 || b == 44 || b == 63 || b == 93 || b == 41 || b == 124 || b == 38

/-- What can follow a key. -/
def Stops (rest : Bytes) : Prop := ∀ b ∈ rest.head?, isStop b = true

theorem Stops.cons {b : UInt8} (hb : isStop b = true) (rest : Bytes) : Stops (b :: rest) := by
  intro c hc
  obtain rfl := Option.some.inj hc
  exact hb

theorem isWordByte_of_isStop {b : UInt8} (hb : isStop b = true) : isWordByte b = false := by
  simp only [isStop, Bool.or_eq_true, beq_iff_eq] at hb
  rcases hb with (((((rfl | rfl) | rfl) | rfl) | rfl) | rfl) | rfl <;> rfl

/-- A piece of bytes of one class ends at the first byte that is not of that class. -/
theorem span_inj {p : UInt8 → Bool} {x y r s : Bytes} (hx : ∀ b ∈ x, p b = true)
    (hy : ∀ b ∈ y, p b = true) (hr : ∀ b ∈ r.head?, p b = false)
    (hs : ∀ b ∈ s.head?, p b = false) (h : x ++ r = y ++ s) : x = y ∧ r = s := by
  have htake {x r : Bytes} (hx : ∀ b ∈ x, p b = true) (hr : ∀ b ∈ r.head?, p b = false) :
      (x ++ r).takeWhile p = x := by
    rw [List.takeWhile_append_of_pos hx]
    cases r with
    | nil => simp
    | cons b r => simp [hr b (by simp)]
  have hxy : x = y := by rw [← htake hx hr, h, htake hy hs]
  subst hxy
  exact ⟨rfl, List.append_cancel_left h⟩

/-! ## Characters -/

theorem ofString_injective {s t : String} (h : ofString s = ofString t) : s = t :=
  String.toByteArray_inj.1 (congrArg Text.bytes h)

theorem toList_ofString_ofList (cs : List Char) :
    (ofString (String.ofList cs)).toList = cs.flatMap String.utf8EncodeChar := by
  show ((cs.flatMap String.utf8EncodeChar).toByteArray).data.toList = _
  simp

/-- A character's bytes tell where they end. -/
theorem utf8_append_inj {c d : Char} {x y : Bytes}
    (h : String.utf8EncodeChar c ++ x = String.utf8EncodeChar d ++ y) : c = d ∧ x = y := by
  have hdecode (c : Char) (x : Bytes) :
      (String.utf8EncodeChar c ++ x).toByteArray.utf8DecodeChar? 0 = some c := by
    rw [List.toByteArray_append]
    exact ByteArray.utf8DecodeChar?_utf8EncodeChar_append
  have hcd : c = d := by
    have := hdecode c x
    rw [h, hdecode d y] at this
    exact (Option.some.inj this).symm
  subst hcd
  exact ⟨rfl, List.append_cancel_left h⟩

/-- A string of characters is read from its first one. -/
theorem chars_cons_inj {c d : Char} {cs ds : List Char} {x y : Bytes}
    (h : (c :: cs).flatMap String.utf8EncodeChar ++ x = (d :: ds).flatMap String.utf8EncodeChar ++ y) :
    c = d ∧ cs.flatMap String.utf8EncodeChar ++ x = ds.flatMap String.utf8EncodeChar ++ y :=
  utf8_append_inj (by simpa using h)

theorem utf8_of_ascii {c : Char} (hc : c.toNat ≤ 127) :
    String.utf8EncodeChar c = [UInt8.ofNat c.toNat] := if_pos hc

/-! ## Quoted text -/

theorem hexDigit_inj : ∀ i < 16, ∀ j < 16, hexDigit i = hexDigit j → i = j := by decide

/-- So many digits tell a number that has no more. -/
theorem hexDigits_append_inj {w m n : Nat} {x y : Bytes} (hm : m < 16 ^ w) (hn : n < 16 ^ w)
    (h : (hexDigits w m).flatMap String.utf8EncodeChar ++ x =
      (hexDigits w n).flatMap String.utf8EncodeChar ++ y) : m = n ∧ x = y := by
  induction w generalizing m n x y with
  | zero =>
    refine ⟨?_, by simpa [hexDigits] using h⟩
    rw [Nat.pow_zero] at hm hn
    omega
  | succ w ih =>
    rw [Nat.pow_succ] at hm hn
    simp only [hexDigits, List.flatMap_append, List.flatMap_cons, List.flatMap_nil, List.append_nil,
      List.append_assoc] at h
    obtain ⟨hdiv, hrest⟩ := ih (Nat.div_lt_of_lt_mul (by omega)) (Nat.div_lt_of_lt_mul (by omega)) h
    obtain ⟨hdigit, rfl⟩ := utf8_append_inj hrest
    have hmod := hexDigit_inj _ (Nat.mod_lt m (by decide)) _ (Nat.mod_lt n (by decide)) hdigit
    exact ⟨by omega, rfl⟩

/-- Bytes below 128 are characters. -/
def Sym.Valid : Sym → Prop
  | .char _ => True
  | .stray b => 128 ≤ b.toNat

theorem next?_valid {bytes : Bytes} {s : Sym} {width : Nat} (hn : next? bytes = some (s, width)) :
    s.Valid := by
  have hstray {a : UInt8} (hw : announcedWidth a ≠ 1) : (Sym.stray a).Valid := by
    by_cases ha : a < 0x80
    · exact absurd (if_pos ha) hw
    · exact UInt8.le_iff_toNat_le.1 (UInt8.not_lt.1 ha)
  cases bytes with
  | nil => simp [next?] at hn
  | cons a rest =>
    simp only [next?] at hn
    split at hn
    · obtain ⟨rfl, -⟩ := Prod.mk.inj (Option.some.inj hn)
      trivial
    · split at hn <;> obtain ⟨rfl, -⟩ := Prod.mk.inj (Option.some.inj hn)
      · trivial
      · exact hstray (by simp [‹announcedWidth a = 2›])
    · split at hn <;> obtain ⟨rfl, -⟩ := Prod.mk.inj (Option.some.inj hn)
      · trivial
      · exact hstray (by simp [‹announcedWidth a = 3›])
    · split at hn <;> obtain ⟨rfl, -⟩ := Prod.mk.inj (Option.some.inj hn)
      · trivial
      · exact hstray (by simp [‹announcedWidth a = 4›])
    · rename_i hone _ _ _
      obtain ⟨rfl, -⟩ := Prod.mk.inj (Option.some.inj hn)
      exact hstray fun hw => hone hw

theorem decode_valid {bytes : Bytes} {s : Sym} (hs : s ∈ decode bytes) : s.Valid := by
  have hupTo (n : Nat) (bytes : Bytes) (hs : s ∈ decodeUpTo n bytes) : s.Valid := by
    induction n generalizing bytes with
    | zero => simp [decodeUpTo] at hs
    | succ n ih =>
      rw [decodeUpTo] at hs
      split at hs
      · simp at hs
      · rename_i s' width hn
        rcases List.mem_cons.1 hs with rfl | hs
        · exact next?_valid hn
        · exact ih _ hs
  exact hupTo _ _ hs

/-- Number of digits after a mark that announces a number. -/
def markWidth (mark : Char) : Nat := if mark = 'x' then 2 else if mark = 'u' then 4 else 8

/-- The symbol that is written as a number after a mark. -/
def numbered (mark : Char) (n : Nat) : Sym :=
  if mark = 'x' ∧ 128 ≤ n then .stray (UInt8.ofNat n) else .char (Char.ofNat n)

/-- The code point that a letter after a backslash stands for. -/
def letterCode (letter : Char) : Nat :=
  match letterEscapes.find? (·.1 = letter) with
  | some (_, n) => n
  | none => letter.toNat

/-- The letters that stand after a backslash with no digits behind them. -/
def escapeLetters : List Char := '"' :: '\\' :: letterEscapes.map (·.1)

/-- The three ways in which a symbol is written in quotes. -/
inductive WrittenSym : Sym → List Char → Prop where
  | plain {c : Char} (hq : c ≠ '"') (hb : c ≠ '\\') (hn : c ≠ '\n') : WrittenSym (.char c) [c]
  | letter {c letter : Char} (hc : c = Char.ofNat (letterCode letter)) (hl : letter ∈ escapeLetters) :
    WrittenSym (.char c) ['\\', letter]
  | number {mark : Char} {n : Nat} (hm : mark = 'x' ∨ mark = 'u' ∨ mark = 'U')
    (hn : n < 16 ^ markWidth mark) (hv : n.isValidChar) :
    WrittenSym (numbered mark n) ('\\' :: mark :: hexDigits (markWidth mark) n)

/-- No letter that stands alone announces a number. -/
theorem not_mem_escapeLetters {mark : Char} (hm : mark = 'x' ∨ mark = 'u' ∨ mark = 'U') :
    mark ∉ escapeLetters := by
  rcases hm with rfl | rfl | rfl <;> decide

theorem quoteSym_written {s : Sym} (hs : s.Valid) : WrittenSym s (quoteSym '"' s) := by
  cases s with
  | stray b =>
    have hb : 128 ≤ b.toNat := hs
    have hw : WrittenSym (numbered 'x' b.toNat) ('\\' :: 'x' :: hexDigits 2 b.toNat) :=
      .number (.inl rfl) b.toNat_lt (.inl (Nat.lt_trans b.toNat_lt (by decide)))
    rwa [numbered, if_pos ⟨rfl, hb⟩, UInt8.ofNat_toNat] at hw
  | char c =>
    -- a number after a mark other than that of a stray byte tells the character
    have hnumber {mark : Char} (hm : mark = 'x' ∨ mark = 'u' ∨ mark = 'U')
        (hn : c.toNat < 16 ^ markWidth mark) (hlow : ¬ (mark = 'x' ∧ 128 ≤ c.toNat)) :
        WrittenSym (.char c) ('\\' :: mark :: hexDigits (markWidth mark) c.toNat) := by
      have hw := WrittenSym.number hm hn c.valid
      rwa [numbered, if_neg hlow, Char.ofNat_toNat] at hw
    rw [quoteSym]
    split
    · rename_i hself
      rcases Bool.or_eq_true_iff.1 hself with hc | hc
      · obtain rfl : c = '"' := of_decide_eq_true hc
        exact .letter rfl (by decide)
      · obtain rfl : c = '\\' := of_decide_eq_true hc
        exact .letter rfl (by decide)
    · rename_i hself
      simp only [Bool.or_eq_true, decide_eq_true_eq, not_or] at hself
      split
      · rename_i hprintable
        refine .plain hself.1 hself.2 ?_
        rintro rfl
        exact absurd hprintable (by decide)
      · split
        · rename_i letter n hfind
          have hmem := List.mem_of_find?_eq_some hfind
          have hcode : n = c.toNat := by simpa using List.find?_some hfind
          rw [← Char.ofNat_toNat c, ← hcode]
          simp only [letterEscapes, List.mem_cons, Prod.mk.injEq, List.not_mem_nil, or_false] at hmem
          rcases hmem with ⟨rfl, rfl⟩ | ⟨rfl, rfl⟩ | ⟨rfl, rfl⟩ | ⟨rfl, rfl⟩ | ⟨rfl, rfl⟩ | ⟨rfl, rfl⟩ |
            ⟨rfl, rfl⟩ <;> exact .letter rfl (by decide)
        · split
          · rename_i hlow
            simp only [Bool.or_eq_true, decide_eq_true_eq] at hlow
            exact hnumber (.inl rfl) (show c.toNat < 256 by omega) (by omega)
          · split
            · exact hnumber (.inr (.inl rfl)) ‹c.toNat < 65536› (by simp)
            · refine hnumber (.inr (.inr rfl)) (show c.toNat < 16 ^ 8 from ?_) (by simp)
              exact Nat.lt_of_lt_of_le c.val.toNat_lt (by decide)

/-- A written symbol ends where it says, and tells the symbol. -/
theorem WrittenSym.append_inj {s t : Sym} {cs ds : List Char} {x y : Bytes} (hs : WrittenSym s cs)
    (ht : WrittenSym t ds)
    (h : cs.flatMap String.utf8EncodeChar ++ x = ds.flatMap String.utf8EncodeChar ++ y) :
    s = t ∧ x = y := by
  cases hs with
  | plain hq hb _ =>
    cases ht with
    | plain _ _ _ =>
      obtain ⟨rfl, hrest⟩ := chars_cons_inj h
      exact ⟨rfl, hrest⟩
    | letter _ _ | number _ _ _ => exact absurd (chars_cons_inj h).1 hb
  | letter hc hl =>
    cases ht with
    | plain _ hb _ => exact absurd (chars_cons_inj h).1.symm hb
    | letter hd _ =>
      obtain ⟨rfl, hrest⟩ := chars_cons_inj (chars_cons_inj h).2
      exact ⟨by rw [hc, hd], hrest⟩
    | number hm _ _ =>
      obtain ⟨rfl, -⟩ := chars_cons_inj (chars_cons_inj h).2
      exact absurd hl (not_mem_escapeLetters hm)
  | number hm hn _ =>
    cases ht with
    | plain _ hb _ => exact absurd (chars_cons_inj h).1.symm hb
    | letter _ hl =>
      obtain ⟨rfl, -⟩ := chars_cons_inj (chars_cons_inj h).2
      exact absurd hl (not_mem_escapeLetters hm)
    | number _ hn' _ =>
      obtain ⟨rfl, hdigits⟩ := chars_cons_inj (chars_cons_inj h).2
      obtain ⟨rfl, hrest⟩ := hexDigits_append_inj hn hn' hdigits
      exact ⟨rfl, hrest⟩

/-- No written symbol starts with the closing quote. -/
theorem WrittenSym.ne_quote {s : Sym} {cs : List Char} {x y : Bytes} (hs : WrittenSym s cs) :
    cs.flatMap String.utf8EncodeChar ++ x ≠ ['"'].flatMap String.utf8EncodeChar ++ y := by
  intro h
  cases hs with
  | plain hq _ _ => exact absurd (chars_cons_inj h).1 hq
  | letter _ _ | number _ _ _ => exact absurd (chars_cons_inj h).1 (by decide)

/-- The inside of quotes ends at the closing quote. -/
theorem written_append_inj {σ τ : List Sym} {x y : Bytes} (hσ : ∀ s ∈ σ, s.Valid)
    (hτ : ∀ s ∈ τ, s.Valid)
    (h : (σ.flatMap (quoteSym '"')).flatMap String.utf8EncodeChar ++
        (['"'].flatMap String.utf8EncodeChar ++ x) =
      (τ.flatMap (quoteSym '"')).flatMap String.utf8EncodeChar ++
        (['"'].flatMap String.utf8EncodeChar ++ y)) : σ = τ ∧ x = y := by
  have hcons (s : Sym) (σ : List Sym) (z : Bytes) :
      ((s :: σ).flatMap (quoteSym '"')).flatMap String.utf8EncodeChar ++ z =
        (quoteSym '"' s).flatMap String.utf8EncodeChar ++
          ((σ.flatMap (quoteSym '"')).flatMap String.utf8EncodeChar ++ z) := by
    simp
  induction σ generalizing τ with
  | nil =>
    cases τ with
    | nil => exact ⟨rfl, (chars_cons_inj h).2⟩
    | cons t τ =>
      rw [hcons] at h
      exact absurd h.symm (quoteSym_written (hτ t (by simp))).ne_quote
  | cons s σ ih =>
    rw [hcons] at h
    cases τ with
    | nil => exact absurd h (quoteSym_written (hσ s (by simp))).ne_quote
    | cons t τ =>
      rw [hcons] at h
      obtain ⟨rfl, hrest⟩ := (quoteSym_written (hσ s (by simp))).append_inj
        (quoteSym_written (hτ t (by simp))) h
      obtain ⟨rfl, rfl⟩ := ih (fun s hs => hσ s (by simp [hs])) (fun s hs => hτ s (by simp [hs])) hrest
      exact ⟨rfl, rfl⟩

/-- A quoted text ends at its closing quote, and tells the symbols in it. -/
theorem quote_append_inj {v w x y : Bytes}
    (h : (ofString (quote v)).toList ++ x = (ofString (quote w)).toList ++ y) :
    decode v = decode w ∧ x = y := by
  have hbytes (v x : Bytes) : (ofString (quote v)).toList ++ x = String.utf8EncodeChar '"' ++
      (((decode v).flatMap (quoteSym '"')).flatMap String.utf8EncodeChar ++
        (['"'].flatMap String.utf8EncodeChar ++ x)) := by
    rw [quote, toList_ofString_ofList]
    simp
  rw [hbytes, hbytes] at h
  exact written_append_inj (fun _ => decode_valid) (fun _ => decode_valid) (utf8_append_inj h).2

end FlowTyping.Text

/-! ## Numerals -/

namespace FlowTyping.Number

/-- A character of a numeral. -/
def isNumeralChar (c : Char) : Bool :=
  c.isDigit || c == '.' || c == 'e' || c == '+' || c == '-'

theorem isNumeralChar_of_mem_toDigits {n : Nat} {c : Char} (hc : c ∈ Nat.toDigits 10 n) :
    isNumeralChar c = true := by
  simp [isNumeralChar, Nat.isDigit_of_mem_toDigits (by decide) (by decide) hc]

theorem trimmed_numeral {n : Nat} {k : Int} {c : Char} (hc : c ∈ (trimmed n k).1) :
    isNumeralChar c = true := by
  refine isNumeralChar_of_mem_toDigits (n := n) ?_
  rw [trimmed, List.mem_reverse] at hc
  exact List.mem_reverse.1 ((List.dropWhile_sublist _).subset hc)

theorem search_numeral {b : Band} {x : Int} {fuel n : Nat} {c : Char}
    (hc : c ∈ (b.search x fuel n).1) : isNumeralChar c = true := by
  induction fuel generalizing n with
  | zero => exact trimmed_numeral hc
  | succ fuel ih =>
    simp only [Band.search] at hc
    split at hc
    · exact trimmed_numeral hc
    · exact ih hc

theorem write_numeral {l : Layout} {digits : List Char} {x : Int}
    (hd : ∀ c ∈ digits, isNumeralChar c = true) : ∀ c ∈ l.write digits x, isNumeralChar c = true := by
  have hzero (n : Nat) : ∀ c ∈ List.replicate n '0', isNumeralChar c = true := by
    intro c hc
    rw [List.eq_of_mem_replicate hc]
    rfl
  have hpad (width m : Nat) : ∀ c ∈ padLeft width (Nat.toDigits 10 m), isNumeralChar c = true :=
    List.forall_mem_append.2 ⟨hzero _, fun c hc => isNumeralChar_of_mem_toDigits hc⟩
  have hsign : isNumeralChar (if x < 0 then '-' else '+') = true := by split <;> rfl
  unfold Layout.write
  split
  · refine List.forall_mem_append.2 ⟨?_, ?_⟩
    · split
      · exact List.forall_mem_singleton.2 rfl
      · exact hd
      · exact List.forall_mem_cons.2 ⟨hd _ (by simp),
          List.forall_mem_cons.2 ⟨rfl, fun c hc => hd c (by simp [hc])⟩⟩
    · exact List.forall_mem_cons.2 ⟨rfl, List.forall_mem_cons.2 ⟨hsign, hpad _ _⟩⟩
  · split
    · exact List.forall_mem_cons.2 ⟨rfl, List.forall_mem_cons.2 ⟨rfl,
        List.forall_mem_append.2 ⟨hzero _, hd⟩⟩⟩
    · simp only
      split
      · exact List.forall_mem_append.2 ⟨hd, hzero _⟩
      · exact List.forall_mem_append.2 ⟨fun c hc => hd c (List.mem_of_mem_take hc),
          List.forall_mem_cons.2 ⟨rfl, fun c hc => hd c (List.mem_of_mem_drop hc)⟩⟩

theorem isStop_of_all {bs : Text.Bytes} (h : (bs.all fun b => !Text.isStop b) = true) :
    ∀ b ∈ bs, Text.isStop b = false :=
  fun b hb => by simpa using List.all_eq_true.1 h b hb

theorem isStop_of_numeral {c : Char} (hc : isNumeralChar c = true) :
    ∀ b ∈ String.utf8EncodeChar c, Text.isStop b = false := by
  simp only [isNumeralChar, Bool.or_eq_true, beq_iff_eq] at hc
  rcases hc with (((hdigit | rfl) | rfl) | rfl) | rfl
  · have hrange : 48 ≤ c.toNat ∧ c.toNat < 58 := by
      simp only [Char.isDigit, Bool.and_eq_true, decide_eq_true_eq] at hdigit
      exact ⟨hdigit.1, Nat.lt_succ_of_le hdigit.2⟩
    have hdigits : ∀ n < 58, 48 ≤ n → Text.isStop (UInt8.ofNat n) = false := by decide
    intro b hb
    rw [Text.utf8_of_ascii (by omega)] at hb
    rw [List.mem_singleton.1 hb]
    exact hdigits _ hrange.2 hrange.1
  all_goals exact isStop_of_all (by decide)

/-- No byte of a numeral ends a key. -/
theorem isStop_render (n : Number) : ∀ b ∈ (Text.ofString n.render).toList, Text.isStop b = false := by
  cases n with
  | infinite negative => cases negative <;> exact isStop_of_all (by decide)
  | finite negative m e double =>
    have hbody : ∀ c ∈ (if m = 0 then ['0'] else layout.write (shortest m e).1 (shortest m e).2),
        isNumeralChar c = true := by
      split
      · exact List.forall_mem_singleton.2 rfl
      · exact write_numeral fun c hc => search_numeral hc
    intro b hb
    rw [render, Text.toList_ofString_ofList, List.mem_flatMap] at hb
    obtain ⟨c, hc, hb⟩ := hb
    refine isStop_of_numeral ?_ b hb
    split at hc
    · rcases List.mem_cons.1 hc with rfl | hc
      · rfl
      · exact hbody c hc
    · exact hbody c hc

end FlowTyping.Number
