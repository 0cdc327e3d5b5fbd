import FlowTyping.Peg.Run
import FlowTyping.Proofs.Text.Decoding

/-!
# A source does not run out of steps

`Peg.match?` runs on fuel. The number of steps that are nested before a byte is taken is bounded by the
grammar, if no rule comes back to itself before that and no repetition repeats a match of nothing. So
the steps that `Peg.parse` grants suffice: with more of them it gives the same answer.

* `Peg.takes`, `Peg.steps` — whether every match of an expression takes a byte, and a bound on the steps
  that it nests before one is taken, in terms of the same numbers of the rules (`Ranks`).
* `Grammar.Ranked` — the numbers of the rules bound those of their expressions.
* **`Peg.match?_shorter`** — a match takes what it says.
* **`Peg.match?_of_le`** — more steps than the bound change nothing.
-/

namespace FlowTyping

open FlowTyping.Text

namespace Peg

/-- What is known of the rules of a grammar. -/
structure Ranks (Rule : Type) where
  /-- Whether every match takes a byte. -/
  takes : Rule → Bool
  /-- A bound on the steps that are nested before a byte is taken. -/
  steps : Rule → Nat

variable {Rule : Type} {Value : Rule → Type}

/-- Whether every match of an expression takes a byte. -/
def takes (k : Ranks Rule) : {α : Type} → Peg Value α → Bool
  | _, .lit text => !text.toList.isEmpty
  | _, .cls _ _ => true
  | _, .any => true
  | _, .rule r => k.takes r
  | _, .seq p q => takes k p || takes k q
  | _, .alt p q => takes k p && takes k q
  | _, .many _ => false
  | _, .many1 p => takes k p
  | _, .opt _ => false
  | _, .not _ => false
  | _, .act p _ => takes k p

/-- A bound on the steps that an expression nests before a byte is taken. A byte pays for 1024. -/
def steps (k : Ranks Rule) : {α : Type} → Peg Value α → Nat
  | _, .lit _ => 1
  | _, .cls _ _ => 1
  | _, .any => 1
  | _, .rule r => k.steps r + 1
  | _, .seq p q => max (steps k p) (if takes k p then steps k q - 1024 else steps k q) + 1
  | _, .alt p q => max (steps k p) (steps k q) + 1
  | _, .many p => steps k p + 1
  | _, .many1 p => steps k p + 2
  | _, .opt p => steps k p + 1
  | _, .not p => steps k p + 1
  | _, .act p _ => steps k p + 1

/-- Whether an expression repeats only what takes a byte. -/
def productive (k : Ranks Rule) : {α : Type} → Peg Value α → Bool
  | _, .lit _ => true
  | _, .cls _ _ => true
  | _, .any => true
  | _, .rule _ => true
  | _, .seq p q => productive k p && productive k q
  | _, .alt p q => productive k p && productive k q
  | _, .many p => takes k p && productive k p
  | _, .many1 p => takes k p && productive k p
  | _, .opt p => productive k p
  | _, .not p => productive k p
  | _, .act p _ => productive k p

/-- The numbers of the rules bound those of their expressions. -/
structure Grammar.Ranked (g : Grammar Value) (k : Ranks Rule) : Prop where
  takes : ∀ r, k.takes r = true → (g.body r).takes k = true
  steps : ∀ r, (g.body r).steps k ≤ k.steps r
  productive : ∀ r, (g.body r).productive k = true

/-! ## What a match takes -/

@[simp] theorem arrive_rest (ctx : Context) (line column offset : Nat) (rest : Bytes) (tr : Trace) :
    (arrive ctx line column offset rest tr).1.rest = rest := by
  unfold arrive
  split <;> rfl

@[simp] theorem arrive_offset (ctx : Context) (line column offset : Nat) (rest : Bytes) (tr : Trace) :
    (arrive ctx line column offset rest tr).1.offset = offset := by
  unfold arrive
  split <;> rfl

@[simp] theorem advance_rest (ctx : Context) (cur : Cursor) (width : Nat) (tr : Trace) :
    (advance ctx cur width tr).1.rest = cur.rest.drop width := arrive_rest ..

@[simp] theorem advance_offset (ctx : Context) (cur : Cursor) (width : Nat) (tr : Trace) :
    (advance ctx cur width tr).1.offset = cur.offset + width := arrive_offset ..

theorem length_drop_lt {bytes : Bytes} {s : Sym} {width : Nat} (h : next? bytes = some (s, width)) :
    (bytes.drop width).length < bytes.length := by
  have hwidth := (next?_front h).1
  have hpos : 0 < bytes.length := by
    apply List.length_pos_iff.2
    rintro rfl
    simp [next?] at h
  rw [List.length_drop]
  omega

theorem matchChars_shorter {ctx : Context} {cs : List Char} {cur after : Cursor} {tr tr' : Trace}
    (h : matchChars ctx cs cur tr = (some after, tr')) :
    after.rest.length ≤ cur.rest.length ∧ (cs ≠ [] → after.rest.length < cur.rest.length) := by
  induction cs generalizing cur tr with
  | nil =>
    cases h
    exact ⟨Nat.le_refl _, fun hne => absurd rfl hne⟩
  | cons c cs ih =>
    simp only [matchChars] at h
    split at h
    · rename_i s width hnext
      split at h
      · have hlt := length_drop_lt hnext
        have hle := (ih h).1
        rw [advance_rest] at hle
        exact ⟨by omega, fun _ => by omega⟩
      · cases h
    · cases h

section Ranked

variable {g : Grammar Value} {k : Ranks Rule}

/-- **A match takes a byte if it says so**, and never gives one back. -/
theorem match?_shorter (hg : g.Ranked k) {fuel : Nat} {α : Type} {p : Peg Value α} {ctx : Context}
    {cur after : Cursor} {tr tr' : Trace} {a : α}
    (h : match? g fuel p ctx cur tr = (some (a, after), tr')) :
    after.rest.length ≤ cur.rest.length ∧
      (p.takes k = true → after.rest.length < cur.rest.length) := by
  induction fuel generalizing α ctx cur after tr tr' with
  | zero => simp [match?] at h
  | succ n ih =>
    cases p with
    | lit text =>
      simp only [match?] at h
      split at h
      · rename_i hmatch
        cases h
        obtain ⟨hle, hlt⟩ := matchChars_shorter hmatch
        exact ⟨hle, fun ht => hlt (by simpa [takes] using ht)⟩
      · cases h
    | cls shown test =>
      simp only [match?] at h
      split at h
      · rename_i hnext
        split at h
        · cases h
          have hlt := length_drop_lt hnext
          rw [advance_rest]
          exact ⟨Nat.le_of_lt hlt, fun _ => hlt⟩
        · cases h
      · cases h
    | any =>
      simp only [match?] at h
      split at h
      · rename_i hnext
        cases h
        have hlt := length_drop_lt hnext
        rw [advance_rest]
        exact ⟨Nat.le_of_lt hlt, fun _ => hlt⟩
      · cases h
    | rule r =>
      simp only [match?] at h
      obtain ⟨hle, hlt⟩ := ih h
      exact ⟨hle, fun ht => hlt (hg.takes r ht)⟩
    | seq p q =>
      simp only [match?] at h
      split at h
      · rename_i hp
        split at h
        · rename_i hq
          cases h
          obtain ⟨hple, hplt⟩ := ih hp
          obtain ⟨hqle, hqlt⟩ := ih hq
          refine ⟨Nat.le_trans hqle hple, fun ht => ?_⟩
          -- a sequence takes a byte if one of its parts does; the other gives none back
          rcases Bool.or_eq_true_iff.1 ht with ht | ht
          · exact Nat.lt_of_le_of_lt hqle (hplt ht)
          · exact Nat.lt_of_lt_of_le (hqlt ht) hple
        · cases h
      · cases h
    | alt p q =>
      simp only [match?] at h
      split at h
      · rename_i hp
        cases h
        obtain ⟨hle, hlt⟩ := ih hp
        exact ⟨hle, fun ht => hlt (Bool.and_eq_true_iff.1 ht).1⟩
      · obtain ⟨hle, hlt⟩ := ih h
        exact ⟨hle, fun ht => hlt (Bool.and_eq_true_iff.1 ht).2⟩
    | many p =>
      -- what may match nothing never says that it takes a byte
      refine ⟨?_, fun ht => absurd ht Bool.false_ne_true⟩
      simp only [match?] at h
      split at h
      · rename_i hp
        have hple := (ih hp).1
        split at h
        · rename_i hmany
          cases h
          exact Nat.le_trans (ih hmany).1 hple
        · cases h
          exact hple
      · cases h
        exact Nat.le_refl _
    | many1 p =>
      simp only [match?] at h
      split at h
      · rename_i hp
        obtain ⟨hple, hplt⟩ := ih hp
        split at h
        · rename_i hmany
          have hle := (ih hmany).1
          cases h
          exact ⟨Nat.le_trans hle hple, fun ht => Nat.lt_of_le_of_lt hle (hplt ht)⟩
        · cases h
          exact ⟨hple, hplt⟩
      · cases h
    | opt p =>
      refine ⟨?_, fun ht => absurd ht Bool.false_ne_true⟩
      simp only [match?] at h
      split at h
      · rename_i hp
        cases h
        exact (ih hp).1
      · cases h
        exact Nat.le_refl _
    | not p =>
      refine ⟨?_, fun ht => absurd ht Bool.false_ne_true⟩
      simp only [match?] at h
      split at h
      · cases h
      · cases h
        exact Nat.le_refl _
    | act p f =>
      simp only [match?] at h
      split at h
      · rename_i hp
        split at h
        · cases h
          exact ih (p := p) hp
        · cases h
          exact ih (p := p) hp
      · cases h

/-! ## Steps -/

theorem steps_pos {α : Type} (p : Peg Value α) : 0 < p.steps k := by
  cases p <;> simp [steps]

/-- With as many steps as the bound, one more changes nothing. -/
theorem match?_succ (hg : g.Ranked k) {fuel : Nat} {α : Type} {p : Peg Value α} {ctx : Context}
    {cur : Cursor} {tr : Trace} (hp : p.productive k = true)
    (hfuel : p.steps k + 1024 * cur.rest.length ≤ fuel) :
    match? g (fuel + 1) p ctx cur tr = match? g fuel p ctx cur tr := by
  induction fuel generalizing α ctx cur tr with
  | zero =>
    have hpos := steps_pos (k := k) p
    omega
  | succ n ih =>
    cases p with
    | lit text => simp only [match?]
    | cls shown test => simp only [match?]
    | any => simp only [match?]
    | rule r =>
      have hsteps := hg.steps r
      simp only [steps] at hfuel
      simp only [match?]
      exact ih (hg.productive r) (by omega)
    | seq p q =>
      obtain ⟨hpp, hpq⟩ := Bool.and_eq_true_iff.1 hp
      simp only [steps] at hfuel
      rw [match?, match?, ih hpp (by omega)]
      cases hm : match? g n p ctx cur tr with
      | mk found tr' =>
        cases found with
        | none => rfl
        | some found =>
          obtain ⟨a, after⟩ := found
          obtain ⟨hle, hlt⟩ := match?_shorter hg hm
          simp only
          rw [ih hpq]
          -- a byte that `p` takes pays for the steps of `q`; if it takes none, these are counted with it
          by_cases ht : p.takes k = true
          · have hless := hlt ht
            rw [if_pos ht] at hfuel
            omega
          · rw [if_neg ht] at hfuel
            omega
    | alt p q =>
      obtain ⟨hpp, hpq⟩ := Bool.and_eq_true_iff.1 hp
      simp only [steps] at hfuel
      rw [match?, match?, ih hpp (by omega)]
      cases hm : match? g n p ctx cur tr with
      | mk found tr' =>
        cases found with
        | none => exact ih hpq (by omega)
        | some found => rfl
    | many p =>
      obtain ⟨htakes, hpp⟩ := Bool.and_eq_true_iff.1 hp
      simp only [steps] at hfuel
      rw [match?, match?, ih hpp (by omega)]
      cases hm : match? g n p ctx cur tr with
      | mk found tr' =>
        cases found with
        | none => rfl
        | some found =>
          obtain ⟨a, after⟩ := found
          -- every round takes a byte, which pays for the next one
          have hless := (match?_shorter hg hm).2 htakes
          simp only
          rw [ih (p := .many p) hp]
          simp only [steps]
          omega
    | many1 p =>
      obtain ⟨htakes, hpp⟩ := Bool.and_eq_true_iff.1 hp
      simp only [steps] at hfuel
      rw [match?, match?, ih hpp (by omega)]
      cases hm : match? g n p ctx cur tr with
      | mk found tr' =>
        cases found with
        | none => rfl
        | some found =>
          obtain ⟨a, after⟩ := found
          have hless := (match?_shorter hg hm).2 htakes
          simp only
          rw [ih (p := .many p) hp]
          simp only [steps]
          omega
    | opt p =>
      simp only [steps] at hfuel
      rw [match?, match?, ih (p := p) hp (by omega)]
    | not p =>
      simp only [steps] at hfuel
      rw [match?, match?, ih (p := p) hp (by omega)]
    | act p f =>
      simp only [steps] at hfuel
      rw [match?, match?, ih (p := p) hp (by omega)]

/-- **More steps than the bound change nothing.** -/
theorem match?_of_le (hg : g.Ranked k) {fuel more : Nat} {α : Type} {p : Peg Value α} {ctx : Context}
    {cur : Cursor} {tr : Trace} (hp : p.productive k = true)
    (hfuel : p.steps k + 1024 * cur.rest.length ≤ fuel) (hmore : fuel ≤ more) :
    match? g more p ctx cur tr = match? g fuel p ctx cur tr := by
  induction hmore with
  | refl => rfl
  | step hle ih => rw [match?_succ hg hp (Nat.le_trans hfuel hle), ih]

end Ranked

end Peg
end FlowTyping
