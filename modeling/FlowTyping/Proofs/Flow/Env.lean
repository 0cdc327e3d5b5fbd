import FlowTyping.Flow.Pass
import FlowTyping.Proofs.Store.Ideal
import FlowTyping.Proofs.Ty.Keys
import Mathlib.Data.List.Forall2

/-!
# Environments by what they bind

What an environment is for a proof: the type that it gives each variable. The operations on
environments are stated in these terms, so that later proofs never look at lists of bindings.

* **`Env.find?_bind`** — binding a variable anew.
* **`Env.always_names_joinAll`** — the variables of a join.
* **`Env.always_widenBindings`** — what a loop header may make of the join, in any universe.
* **`Env.same_iff`** — two sorted environments are the same when they bind the same variables to types
  with the same keys.
-/

namespace FlowTyping.Env

open Universe

variable {h : Hierarchy} {e e' : Env} {x y : String} {t : Ty}

/-! ## Single bindings -/

@[simp] theorem find?_empty (x : String) : ({} : Env).find? x = none := rfl

theorem lookup_insertBinding (x : String) (t : Ty) (y : String) (bs : List (String × Ty)) :
    (insertBinding x t bs).lookup y = if y = x then some t else bs.lookup y := by
  induction bs with
  | nil =>
    by_cases hy : y = x
    · simp [insertBinding, hy]
    · have hyx : (y == x) = false := by simpa using hy
      simp [insertBinding, List.lookup_cons, hy, hyx]
  | cons b bs ih =>
    obtain ⟨n, s⟩ := b
    rw [insertBinding]
    by_cases hy : y = x
    · subst hy
      split
      · simp
      · split
        · simp
        · rename_i hne
          have hne : (y == n) = false := by simpa using hne
          rw [List.lookup_cons, hne]
          simpa using ih
    · have hyx : (y == x) = false := by simpa using hy
      rw [if_neg hy] at ih ⊢
      split
      · rw [List.lookup_cons, hyx]
      · split
        · rename_i heq
          obtain rfl : x = n := by simpa using heq
          simp [List.lookup_cons, hyx]
        · rw [List.lookup_cons, List.lookup_cons]
          cases y == n
          · exact ih
          · rfl

theorem find?_bind (e : Env) (x : String) (t : Ty) (y : String) :
    (e.bind x t).find? y = if y = x then some t else e.find? y :=
  lookup_insertBinding x t y e.bindings

@[simp] theorem find?_bind_self (e : Env) (x : String) (t : Ty) : (e.bind x t).find? x = some t := by
  rw [find?_bind, if_pos rfl]

theorem mem_names_iff : x ∈ e.names ↔ (e.find? x).isSome = true := by
  obtain ⟨bs⟩ := e
  show x ∈ bs.map Prod.fst ↔ (bs.lookup x).isSome = true
  induction bs with
  | nil => simp
  | cons b bs ih =>
    obtain ⟨n, s⟩ := b
    rw [List.map_cons, List.mem_cons, List.lookup_cons]
    cases hx : x == n with
    | true => simp [eq_of_beq hx]
    | false =>
      have hne : x ≠ n := by simpa using hx
      simp [hne, ih]

theorem find?_eq_none_iff : e.find? x = none ↔ x ∉ e.names := by
  rw [mem_names_iff]
  cases e.find? x <;> simp

/-- A bound variable was bound so by the list, or by the environment before. -/
theorem mem_names_bind : y ∈ (e.bind x t).names ↔ y = x ∨ y ∈ e.names := by
  rw [mem_names_iff, find?_bind, mem_names_iff]
  by_cases hy : y = x <;> simp [hy]

theorem mem_names_ofList {bs : List (String × Ty)} :
    x ∈ (ofList bs).names ↔ x ∈ bs.map Prod.fst := by
  have hfold (e : Env) : x ∈ (bs.foldl (fun e b => e.bind b.1 b.2) e).names ↔
      x ∈ bs.map Prod.fst ∨ x ∈ e.names := by
    induction bs generalizing e with
    | nil => simp
    | cons b bs ih =>
      rw [List.foldl_cons, ih, mem_names_bind, List.map_cons, List.mem_cons, or_left_comm, or_assoc]
  rw [ofList, hfold]
  simp [names]

/-! ## Joins -/

/-- The names that several environments bind. -/
theorem mem_names_ofList_flatMap {envs : List Env} :
    x ∈ (ofList (envs.flatMap (·.bindings))).names ↔ ∃ e ∈ envs, x ∈ e.names := by
  rw [mem_names_ofList, List.map_flatMap, List.mem_flatMap]
  rfl

theorem always_joinNames (envs : List Env) (fallback : String → Ty) (names : List String) :
    Always (joinNames envs fallback names) fun bs => bs.map Prod.fst = names := by
  induction names with
  | nil => exact .pure rfl
  | cons x xs ih =>
    rw [joinNames]
    exact .of_all fun t => ih.bind fun bs hbs => .pure (by rw [List.map_cons, hbs])

/-- The names of a join are those of its arguments. -/
theorem always_names_joinAll (envs : List Env) (fallback : String → Ty) :
    Always (joinAll envs fallback) fun e => ∀ x, x ∈ e.names ↔ ∃ e' ∈ envs, x ∈ e'.names := by
  rw [joinAll.eq_def]
  split
  · exact .pure fun x => by simp
  · refine (always_joinNames _ _ _).bind fun bs hbs => .pure fun x => ?_
    rw [← mem_names_ofList_flatMap, names, hbs]

/-! ## Widening -/

/-- What a loop header may make of a binding: it goes back to the previous type, or takes its declared type
once the limit is reached. -/
structure Widened (declared prev : Env) (limit : Bool) (b b' : String × Ty) : Prop where
  name : b'.1 = b.1
  type : prev.find? b.1 = some b'.2 ∨ b'.2 = if limit then (declared.find? b.1).getD .unknown else b.2

theorem always_widenBindings (declared prev : Env) (limit : Bool) (bs : List (String × Ty)) :
    Always (Graph.Pass.widenBindings declared prev limit bs) fun bs' =>
      List.Forall₂ (Widened declared prev limit) bs bs' := by
  induction bs with
  | nil => exact .pure .nil
  | cons b bs ih =>
    obtain ⟨x, t⟩ := b
    rw [Graph.Pass.widenBindings]
    have hrest (s : Ty) (hs : prev.find? x = some s ∨
        s = if limit then (declared.find? x).getD .unknown else t) :
        Always (do return (x, s) :: (← Graph.Pass.widenBindings declared prev limit bs)) fun bs' =>
          List.Forall₂ (Widened declared prev limit) ((x, t) :: bs) bs' :=
      ih.bind fun _ hbs' => .pure (.cons ⟨rfl, hs⟩ hbs')
    cases hprev : prev.find? x with
    | none => exact hrest _ (.inr rfl)
    | some old => exact .of_all fun _ => .ite (hrest old (.inl hprev)) (hrest _ (.inr rfl))

section Widened

variable {declared prev : Env} {limit : Bool} {bs bs' : List (String × Ty)}

theorem names_of_widened (hbs : List.Forall₂ (Widened declared prev limit) bs bs') :
    bs'.map Prod.fst = bs.map Prod.fst := by
  induction hbs with
  | nil => rfl
  | cons hb _ ih => rw [List.map_cons, List.map_cons, hb.name, ih]

/-- What a variable has after widening is its previous type, or what it is widened to. -/
theorem find?_of_widened (hbs : List.Forall₂ (Widened declared prev limit) bs bs')
    (hx : ({ bindings := bs' } : Env).find? x = some t) :
    ∃ s, ({ bindings := bs } : Env).find? x = some s ∧
      (prev.find? x = some t ∨ t = if limit then (declared.find? x).getD .unknown else s) := by
  induction hbs with
  | nil => simp [find?] at hx
  | @cons b b' bs bs' hb _ ih =>
    obtain ⟨n, s⟩ := b
    obtain ⟨n', s'⟩ := b'
    obtain rfl : n' = n := hb.name
    rw [find?, List.lookup_cons] at hx ⊢
    cases hxn : x == n' with
    | true =>
      obtain rfl : x = n' := eq_of_beq hxn
      obtain rfl : s' = t := by simpa using hx
      exact ⟨s, rfl, hb.type⟩
    | false =>
      rw [hxn] at hx
      exact ih hx

end Widened

/-- What a loop header makes of the type of a variable where the universe gives the right answers: its
previous type where that covers it, and else its declared type once the limit is reached. -/
def widenedTo (h : Hierarchy) (declared prev : Env) (limit : Bool) (x : String) (t : Ty) : Ty :=
  match prev.find? x with
  | some old =>
    if h.subtype t old then old else if limit then (declared.find? x).getD .unknown else t
  | none => if limit then (declared.find? x).getD .unknown else t

/-- The environment in which a loop header is entered again. -/
def widen (h : Hierarchy) (declared prev : Env) (limit : Bool) (e : Env) : Env :=
  { bindings := e.bindings.map fun b => (b.1, widenedTo h declared prev limit b.1 b.2) }

theorem find?_widen (declared prev : Env) (limit : Bool) (e : Env) (x : String) :
    (widen h declared prev limit e).find? x =
      (e.find? x).map (widenedTo h declared prev limit x) := by
  obtain ⟨bs⟩ := e
  simp only [widen, find?]
  induction bs with
  | nil => rfl
  | cons b bs ih =>
    obtain ⟨n, s⟩ := b
    rw [List.map_cons, List.lookup_cons, List.lookup_cons]
    cases hx : x == n with
    | true => simp [eq_of_beq hx]
    | false => exact ih

/-! ## Sameness -/

/-- The same environments give each variable types with one key. -/
theorem key_find?_of_same (hs : e.same e' = true) (x : String) :
    (e.find? x).map Ty.key = (e'.find? x).map Ty.key := by
  obtain ⟨bs⟩ := e
  obtain ⟨bs'⟩ := e'
  rw [same, Bool.and_eq_true, beq_iff_eq] at hs
  obtain ⟨hlen, hall⟩ := hs
  show (bs.lookup x).map Ty.key = (bs'.lookup x).map Ty.key
  simp only at hlen hall
  induction bs generalizing bs' with
  | nil =>
    obtain rfl : bs' = [] := by simpa using hlen.symm
    rfl
  | cons b bs ih =>
    cases bs' with
    | nil => simp at hlen
    | cons b' bs' =>
      obtain ⟨n, s⟩ := b
      obtain ⟨n', s'⟩ := b'
      simp only [List.zip_cons_cons, List.all_cons, Bool.and_eq_true, beq_iff_eq, Ty.same_iff] at hall
      obtain ⟨⟨rfl, hkey⟩, hrest⟩ := hall
      rw [List.lookup_cons, List.lookup_cons]
      cases x == n with
      | true => simp [hkey]
      | false => exact ih bs' (by simpa using hlen) hrest

/-- The variables are in order, none twice. -/
def Sorted (e : Env) : Prop := e.names.Pairwise (· < ·)

theorem mem_map_insertBinding {bs : List (String × Ty)} :
    y ∈ (insertBinding x t bs).map Prod.fst ↔ y = x ∨ y ∈ bs.map Prod.fst :=
  mem_names_bind (e := ⟨bs⟩)

theorem Sorted.bind (he : e.Sorted) (x : String) (t : Ty) : (e.bind x t).Sorted := by
  obtain ⟨bs⟩ := e
  show ((insertBinding x t bs).map Prod.fst).Pairwise (· < ·)
  replace he : (bs.map Prod.fst).Pairwise (· < ·) := he
  induction bs with
  | nil => simp [insertBinding]
  | cons b bs ih =>
    obtain ⟨n, s⟩ := b
    rw [List.map_cons, List.pairwise_cons] at he
    rw [insertBinding]
    split
    · rename_i hlt
      rw [List.map_cons, List.map_cons, List.pairwise_cons]
      refine ⟨fun y hy => ?_, List.pairwise_cons.2 he⟩
      rcases List.mem_cons.1 hy with rfl | hy
      · exact hlt
      · exact String.lt_trans hlt (he.1 y hy)
    · split
      · rename_i heq
        obtain rfl : x = n := by simpa using heq
        exact List.pairwise_cons.2 he
      · rename_i hle hne
        rw [List.map_cons, List.pairwise_cons]
        refine ⟨fun y hy => ?_, ih he.2⟩
        rcases mem_map_insertBinding.1 hy with rfl | hy
        · by_cases hlt : n < y
          · exact hlt
          · have hne : y ≠ n := by simpa using hne
            exact absurd (String.le_antisymm (String.not_lt.1 hlt) (String.not_lt.1 hle)) hne
        · exact he.1 y hy

theorem sorted_ofList (bs : List (String × Ty)) : (ofList bs).Sorted := by
  have hfold (e : Env) (he : e.Sorted) : (bs.foldl (fun e b => e.bind b.1 b.2) e).Sorted := by
    induction bs generalizing e with
    | nil => exact he
    | cons b bs ih => exact ih _ (he.bind b.1 b.2)
  exact hfold {} List.Pairwise.nil

theorem always_sorted_joinAll {envs : List Env} {fallback : String → Ty} (he : ∀ e ∈ envs, e.Sorted) :
    Always (joinAll envs fallback) Sorted := by
  rw [joinAll.eq_def]
  split
  · exact .pure (he _ (by simp))
  · refine (always_joinNames _ _ _).bind fun bs hbs => .pure ?_
    rw [Sorted, names, hbs]
    exact sorted_ofList _

/-- A name before all names of a list is not among them. -/
theorem lookup_of_forall_lt {bs : List (String × Ty)} (hbs : ∀ y ∈ bs.map Prod.fst, x < y) :
    bs.lookup x = none :=
  find?_eq_none_iff (e := ⟨bs⟩).2 fun hx => String.lt_irrefl x (hbs x hx)

/-- A sorted environment gives each of its variables the type that it is bound to. -/
theorem Sorted.find?_of_mem (he : e.Sorted) {b : String × Ty} (hb : b ∈ e.bindings) : e.find? b.1 = some b.2 := by
  obtain ⟨bs⟩ := e
  replace he : (bs.map Prod.fst).Pairwise (· < ·) := he
  show bs.lookup b.1 = some b.2
  induction bs with
  | nil => simp at hb
  | cons c bs ih =>
    obtain ⟨n, s⟩ := c
    rw [List.map_cons, List.pairwise_cons] at he
    rcases List.mem_cons.1 hb with rfl | hb
    · simp
    · have hne : (b.1 == n) = false :=
        beq_eq_false_iff_ne.2 fun heq => String.lt_irrefl n (heq ▸ he.1 b.1 (List.mem_map_of_mem hb))
      rw [List.lookup_cons, hne]
      exact ih hb he.2

/-- Sorted environments that give each variable types with one key are the same. -/
theorem same_of_key_find? (he : e.Sorted) (he' : e'.Sorted)
    (hx : ∀ x, (e.find? x).map Ty.key = (e'.find? x).map Ty.key) : e.same e' = true := by
  obtain ⟨bs⟩ := e
  obtain ⟨bs'⟩ := e'
  replace he : (bs.map Prod.fst).Pairwise (· < ·) := he
  replace he' : (bs'.map Prod.fst).Pairwise (· < ·) := he'
  replace hx : ∀ x, (bs.lookup x).map Ty.key = (bs'.lookup x).map Ty.key := hx
  show (bs.length == bs'.length &&
    (bs.zip bs').all fun p => p.1.1 == p.2.1 && p.1.2.same p.2.2) = true
  induction bs generalizing bs' with
  | nil =>
    cases bs' with
    | nil => rfl
    | cons b' bs' =>
      obtain ⟨n', s'⟩ := b'
      simpa using hx n'
  | cons b bs ih =>
    obtain ⟨n, s⟩ := b
    cases bs' with
    | nil => simpa using hx n
    | cons b' bs' =>
      obtain ⟨n', s'⟩ := b'
      rw [List.map_cons, List.pairwise_cons] at he he'
      -- the first name of either list is in the other, and nothing stands before it there
      have hfirst {n n' : String} {s s' : Ty} {bs bs' : List (String × Ty)}
          (hbs' : ∀ y ∈ bs'.map Prod.fst, n' < y)
          (hn : (((n, s) :: bs).lookup n).map Ty.key = (((n', s') :: bs').lookup n).map Ty.key) :
          ¬ n < n' := by
        intro hlt
        have hnone : ((n', s') :: bs').lookup n = none := by
          refine lookup_of_forall_lt fun y hy => ?_
          rcases List.mem_cons.1 hy with rfl | hy
          · exact hlt
          · exact String.lt_trans hlt (hbs' y hy)
        rw [hnone] at hn
        simp at hn
      obtain rfl : n = n' := String.le_antisymm
        (String.not_lt.1 (hfirst he.1 (hx n').symm)) (String.not_lt.1 (hfirst he'.1 (hx n)))
      have hkey : s.key = s'.key := by simpa using hx n
      have hrest := ih bs' he.2 he'.2 fun x => by
        by_cases hxn : x = n
        · subst hxn
          rw [lookup_of_forall_lt he.1, lookup_of_forall_lt he'.1]
        · have hne : (x == n) = false := by simpa using hxn
          simpa [List.lookup_cons, hne] using hx x
      rw [Bool.and_eq_true] at hrest
      simp only [List.length_cons, List.zip_cons_cons, List.all_cons, Bool.and_eq_true, beq_iff_eq,
        Nat.add_right_cancel_iff, Ty.same_iff]
      exact ⟨by simpa using hrest.1, ⟨trivial, hkey⟩, hrest.2⟩

end FlowTyping.Env
