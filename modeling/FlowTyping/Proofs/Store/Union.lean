import FlowTyping.Proofs.Store.Ideal
import FlowTyping.Proofs.Ty.Keys

/-!
# What a union consists of

A union opens its arguments, drops what is repeated, adds `boolean` beside both of its values and
drops literals beside their atom. Up to the order of the members this is one list, `simplified`, and
everything about unions is read off it.

* **`Ty.Alternative`** — the types that opening nested unions arrives at.
* **`Ty.mem_simplified`**, **`Ty.exists_mem_simplified`** — what is in the list comes from the arguments,
  and every alternative of an argument is in the list, up to its key, or its atom is.
* **`Hierarchy.members_union_perm`** — the members of a union are that list.
* **`Hierarchy.union_cases`** — the three shapes that a union can have.
-/

namespace FlowTyping

namespace Ty

/-! ## Alternatives -/

/-- A type that opening nested unions arrives at. -/
inductive Alternative (x : Ty) : Ty → Prop where
  | self (hu : x.isUnion = false) (hn : x.isNever = false) : Alternative x x
  | member {m : Ty} {ms : List Ty} (hm : m ∈ ms) (hx : Alternative x m) : Alternative x (.union ms)

namespace Alternative

variable {x t : Ty}

theorem isUnion (hx : Alternative x t) : x.isUnion = false := by
  induction hx with
  | self hu _ => exact hu
  | member _ _ ih => exact ih

theorem isNever (hx : Alternative x t) : x.isNever = false := by
  induction hx with
  | self _ hn => exact hn
  | member _ _ ih => exact ih

/-- A property that passes from a union to its members passes to the alternatives. -/
theorem of_union_closed {P : Ty → Prop} (hP : ∀ ms, P (.union ms) → ∀ m ∈ ms, P m)
    (hx : Alternative x t) (ht : P t) : P x := by
  induction hx with
  | self _ _ => exact ht
  | member hm _ ih => exact ih (hP _ ht _ hm)

theorem union_iff {ms : List Ty} : Alternative x (.union ms) ↔ ∃ m ∈ ms, Alternative x m := by
  constructor
  · intro hx
    cases hx with
    | self hu _ => simp [Ty.isUnion] at hu
    | member hm hx => exact ⟨_, hm, hx⟩
  · rintro ⟨m, hm, hx⟩
    exact .member hm hx

/-- What is no union has itself as alternative, unless it is `never`. -/
theorem iff_of_not_union (hu : t.isUnion = false) : Alternative x t ↔ x = t ∧ t.isNever = false := by
  constructor
  · intro hx
    cases hx with
    | self _ hn => exact ⟨rfl, hn⟩
    | member _ _ => simp [Ty.isUnion] at hu
  · rintro ⟨rfl, hn⟩
    exact .self hu hn

end Alternative

/-- Opening a type fails exactly on `unknown`, and gives its alternatives otherwise. -/
def Opened (ts : List Ty) : Option (List Ty) → Prop
  | none => ∃ t ∈ ts, Alternative .unknown t
  | some flat =>
    (∀ t ∈ ts, ¬ Alternative .unknown t) ∧ ∀ x, x ∈ flat ↔ ∃ t ∈ ts, Alternative x t

theorem opened_singleton {t : Ty} (hu : t.isUnion = false) (hn : t.isNever = false)
    (hk : t.isUnknown = false) : Opened [t] (some [t]) := by
  refine ⟨?_, ?_⟩
  · intro s hs hx
    obtain rfl : s = t := by simpa using hs
    obtain ⟨rfl, -⟩ := (Alternative.iff_of_not_union hu).1 hx
    simp [isUnknown] at hk
  · intro x
    simp [Alternative.iff_of_not_union hu, hn]

mutual
theorem alternatives_opened (t : Ty) : Opened [t] (alternatives t) := by
  cases t with
  | never =>
    rw [alternatives]
    simp [Opened, Alternative.iff_of_not_union (t := .never) rfl, isNever]
  | unknown =>
    rw [alternatives]
    exact ⟨.unknown, by simp, .self rfl rfl⟩
  | union ms =>
    have hms := alternativesAll_opened ms
    rw [alternatives]
    cases hflat : alternativesAll ms with
    | none =>
      rw [hflat] at hms
      obtain ⟨m, hm, hx⟩ := hms
      exact ⟨.union ms, by simp, .member hm hx⟩
    | some flat =>
      rw [hflat] at hms
      simpa [Opened, Alternative.union_iff] using hms
  | _ => exact opened_singleton rfl rfl rfl

theorem alternativesAll_opened (ts : List Ty) : Opened ts (alternativesAll ts) := by
  cases ts with
  | nil =>
    rw [alternativesAll]
    simp [Opened]
  | cons t ts =>
    have ht := alternatives_opened t
    have hts := alternativesAll_opened ts
    rw [alternativesAll]
    cases hfirst : alternatives t with
    | none =>
      rw [hfirst] at ht
      obtain ⟨s, hs, hx⟩ := ht
      exact ⟨t, by simp, by simpa using (List.mem_singleton.1 hs) ▸ hx⟩
    | some first =>
      rw [hfirst] at ht
      cases hrest : alternativesAll ts with
      | none =>
        rw [hrest] at hts
        obtain ⟨s, hs, hx⟩ := hts
        exact ⟨s, by simp [hs], hx⟩
      | some rest =>
        rw [hrest] at hts
        refine ⟨?_, ?_⟩
        · intro s hs
          rcases List.mem_cons.1 hs with rfl | hs
          · exact ht.1 s (by simp)
          · exact hts.1 s hs
        · intro x
          simp [ht.2 x, hts.2 x]
end

/-! ## Simplification -/

theorem exists_mem_dedupKeyed {t : Ty} {seen : List Text} {ts : List Ty} (ht : t ∈ ts)
    (hseen : t.key ∉ seen) :
    ∃ x ∈ dedupKeyed seen (ts.map fun t => (t.key, t)), x.key = t.key := by
  induction ts generalizing seen with
  | nil => simp at ht
  | cons s ts ih =>
    rw [List.map_cons, dedupKeyed]
    by_cases hk : t.key = s.key
    · rw [if_neg (by simpa [← hk] using hseen)]
      exact ⟨s, by simp, hk.symm⟩
    · have ht : t ∈ ts := by
        rcases List.mem_cons.1 ht with rfl | ht
        · exact absurd rfl hk
        · exact ht
      split
      · exact ih ht hseen
      · have hcons : t.key ∉ s.key :: seen := by simp [hk, hseen]
        obtain ⟨x, hx, hxk⟩ := ih ht hcons
        exact ⟨x, by simp [hx], hxk⟩

theorem dedupKeyed_sublist (seen : List Text) (ts : List Ty) :
    (dedupKeyed seen (ts.map fun t => (t.key, t))).Sublist ts := by
  induction ts generalizing seen with
  | nil => exact .slnil
  | cons t ts ih =>
    rw [List.map_cons, dedupKeyed]
    split
    · exact (ih seen).cons t
    · exact (ih (t.key :: seen)).cons_cons t

theorem dedup_sublist (ts : List Ty) : (dedup ts).Sublist ts := dedupKeyed_sublist [] ts

theorem mem_of_mem_dedup {x : Ty} {ts : List Ty} (hx : x ∈ dedup ts) : x ∈ ts :=
  (dedup_sublist ts).subset hx

theorem dedupKeyed_keys (seen : List Text) (ts : List Ty) :
    ((dedupKeyed seen (ts.map fun t => (t.key, t))).map key).Nodup ∧
      ∀ t ∈ dedupKeyed seen (ts.map fun t => (t.key, t)), t.key ∉ seen := by
  induction ts generalizing seen with
  | nil => simp [dedupKeyed]
  | cons t ts ih =>
    rw [List.map_cons, dedupKeyed]
    split
    · exact ih seen
    · rename_i hseen
      obtain ⟨hnodup, hnew⟩ := ih (t.key :: seen)
      refine ⟨?_, ?_⟩
      · rw [List.map_cons, List.nodup_cons, List.mem_map]
        refine ⟨?_, hnodup⟩
        rintro ⟨s, hs, hk⟩
        exact hnew s hs (by simp [hk])
      · intro s hs
        rcases List.mem_cons.1 hs with rfl | hs
        · simpa using hseen
        · exact fun hmem => hnew s hs (List.mem_cons_of_mem _ hmem)

/-- No key is left twice. -/
theorem dedup_keys_nodup (ts : List Ty) : ((dedup ts).map key).Nodup := (dedupKeyed_keys [] ts).1

/-- Whatever is dropped as a repetition leaves its key. -/
theorem exists_mem_dedup {t : Ty} {ts : List Ty} (ht : t ∈ ts) : ∃ x ∈ dedup ts, x.key = t.key :=
  exists_mem_dedupKeyed ht (by simp)

theorem hasKey_iff {k : Text} {ts : List Ty} : hasKey k ts = true ↔ ∃ t ∈ ts, t.key = k := by
  simp [hasKey]

/-- The members of a union before they are put in order. -/
def simplified (flat : List Ty) : List Ty := dropAbsorbed (addBoolean (dedup flat))

theorem mem_addBoolean_of_mem {x : Ty} {ts : List Ty} (hx : x ∈ ts) : x ∈ addBoolean ts := by
  rw [addBoolean]
  split
  · exact List.mem_append_left _ hx
  · exact hx

/-- `boolean` is added only beside both of its values. -/
theorem mem_addBoolean {x : Ty} {ts : List Ty} (hx : x ∈ addBoolean ts) :
    x ∈ ts ∨ x = .boolean ∧ ∀ b, ∃ t ∈ ts, t.key = (Ty.literal (.bool b)).key := by
  rw [addBoolean] at hx
  split at hx
  · rename_i hboth
    rcases List.mem_append.1 hx with hx | hx
    · exact .inl hx
    · simp only [Bool.and_eq_true, hasKey_iff] at hboth
      refine .inr ⟨by simpa using hx, fun b => ?_⟩
      cases b
      · exact hboth.1.2
      · exact hboth.1.1
  · exact .inl hx

theorem mem_dropAbsorbed {x : Ty} {ts : List Ty} :
    x ∈ dropAbsorbed ts ↔ x ∈ ts ∧ ∀ l, x = .literal l → ∀ t ∈ ts, t.key ≠ l.base.key := by
  simp only [dropAbsorbed, List.mem_filter]
  cases x <;> simp

/-- A member comes from the arguments, or is the `boolean` that stands for both of its values. -/
theorem mem_simplified {x : Ty} {flat : List Ty} (hx : x ∈ simplified flat) :
    x ∈ flat ∨ x = .boolean ∧ ∀ b, ∃ t ∈ flat, t.key = (Ty.literal (.bool b)).key := by
  rcases mem_addBoolean (mem_dropAbsorbed.1 hx).1 with hx | ⟨hx, hboth⟩
  · exact .inl (mem_of_mem_dedup hx)
  · refine .inr ⟨hx, fun b => ?_⟩
    obtain ⟨t, ht, hk⟩ := hboth b
    exact ⟨t, mem_of_mem_dedup ht, hk⟩

/-- Every argument is a member, up to its key, or it is a literal whose atom is a member. -/
theorem exists_mem_simplified {t : Ty} {flat : List Ty} (ht : t ∈ flat) :
    ∃ x ∈ simplified flat, x.key = t.key ∨ ∃ l, t = .literal l ∧ x = l.base := by
  obtain ⟨x, hx, hk⟩ := exists_mem_dedup ht
  have hx := mem_addBoolean_of_mem hx
  by_cases hdrop : x ∈ simplified flat
  · exact ⟨x, hdrop, .inl hk⟩
  · rw [simplified, mem_dropAbsorbed] at hdrop
    obtain ⟨l, rfl, y, hy, hyk⟩ : ∃ l, x = .literal l ∧
        ∃ y ∈ addBoolean (dedup flat), y.key = l.base.key := by
      simpa [hx] using hdrop
    obtain rfl := eq_of_key_eq_atom (base_mem_atoms l) hyk
    obtain ⟨l', rfl, hbase⟩ := literal_of_key_eq hk.symm
    refine ⟨l.base, mem_dropAbsorbed.2 ⟨hy, ?_⟩, .inr ⟨l', rfl, hbase.symm⟩⟩
    intro l'' heq
    cases l <;> simp [Literal.base] at heq

/-- The members of a union have different keys. -/
theorem simplified_keys_nodup (flat : List Ty) : ((simplified flat).map key).Nodup := by
  have hadd : ((addBoolean (dedup flat)).map key).Nodup := by
    rw [addBoolean]
    split
    · rename_i hb
      simp only [Bool.and_eq_true, Bool.not_eq_true'] at hb
      rw [List.map_append, List.nodup_append]
      refine ⟨dedup_keys_nodup flat, by simp, ?_⟩
      intro k hk k' hk' heq
      obtain rfl : k' = boolean.key := by simpa using hk'
      obtain ⟨t, ht, hkt⟩ := List.mem_map.1 hk
      have := hasKey_iff.2 ⟨t, ht, hkt.trans heq⟩
      simp [hb.2] at this
    · exact dedup_keys_nodup flat
  exact hadd.sublist (List.filter_sublist.map key)

/-- Both values of `boolean` side by side give `boolean`. -/
theorem exists_boolean_mem_addBoolean {ts : List Ty}
    (hts : ∀ b, ∃ t ∈ ts, t.key = (Ty.literal (.bool b)).key) :
    ∃ t ∈ addBoolean ts, t.key = Ty.boolean.key := by
  by_cases hb : hasKey Ty.boolean.key ts = true
  · obtain ⟨t, ht, hk⟩ := hasKey_iff.1 hb
    exact ⟨t, mem_addBoolean_of_mem ht, hk⟩
  · rw [addBoolean, if_pos]
    · exact ⟨.boolean, by simp, rfl⟩
    · simp [hasKey_iff.2 (hts true), hasKey_iff.2 (hts false), hb]

/-- No union has both values of `boolean` as members. -/
theorem not_both_mem_simplified {flat : List Ty} :
    ¬ ∀ b, ∃ t ∈ simplified flat, t.key = (Ty.literal (.bool b)).key := by
  intro hboth
  have hmem (b : Bool) : ∃ t ∈ dedup flat, t.key = (Ty.literal (.bool b)).key := by
    obtain ⟨t, ht, hk⟩ := hboth b
    rcases mem_addBoolean (mem_dropAbsorbed.1 ht).1 with hmem | ⟨rfl, -⟩
    · exact ⟨t, hmem, hk⟩
    · simpa [head] using head_eq_of_key_eq hk
  obtain ⟨y, hy, hyk⟩ := exists_boolean_mem_addBoolean hmem
  obtain ⟨t, ht, hk⟩ := hboth true
  obtain ⟨l, rfl, hbase⟩ := literal_of_key_eq hk
  refine (mem_dropAbsorbed.1 ht).2 l rfl y hy ?_
  rw [hyk, hbase]
  rfl

theorem sortByKey_perm (ts : List Ty) : (sortByKey ts).Perm ts := by
  have hperm := (List.mergeSort_perm (ts.map fun t => (t.key, t))
    fun a b => decide (a.1 ≤ b.1)).map Prod.snd
  rwa [List.map_map, show Prod.snd ∘ (fun t : Ty => (t.key, t)) = id from rfl, List.map_id] at hperm

@[simp] theorem mem_sortByKey {t : Ty} {ts : List Ty} : t ∈ sortByKey ts ↔ t ∈ ts :=
  (sortByKey_perm ts).mem_iff

theorem sortByKey_pair (a b : Ty) : sortByKey [a, b] = if a.key ≤ b.key then [a, b] else [b, a] := by
  rw [sortByKey]
  simp only [List.map_cons, List.map_nil, List.mergeSort, List.MergeSort.Internal.splitInTwo]
  split <;> simp_all

/-- Whether a type is a member of a union as it stands: it is no union, and neither `never` nor
`unknown`. -/
def isMember (t : Ty) : Bool := !t.isUnion && !t.isNever && !t.isUnknown

theorem isMember_iff {t : Ty} :
    t.isMember = true ↔ t.isUnion = false ∧ t.isNever = false ∧ t.isUnknown = false := by
  simp [isMember, and_assoc]

theorem members_of_not_union {t : Ty} (hu : t.isUnion = false) (hn : t.isNever = false) :
    t.members = [t] := by
  cases t with
  | union ms => simp [isUnion] at hu
  | never => simp [isNever] at hn
  | _ => rfl

end Ty

/-! ## Unions -/

namespace Hierarchy

variable {h : Hierarchy} {ts : List Ty}

/-- A union over `unknown` is `unknown`; any other is that of the simplified alternatives. -/
theorem union_eq (h : Hierarchy) (ts : List Ty) :
    h.union ts = match Ty.alternativesAll ts with
      | none => .unknown
      | some flat => (TypeStore.unionOf (Ty.simplified flat) : Ideal h Ty).run := by
  show (TypeStore.union ts : Ideal h Ty).run = _
  rw [TypeStore.union]
  cases Ty.alternativesAll ts <;> simp [Ty.simplified]

/-- The three shapes of a union of members that need no simplification. -/
theorem unionOf_cases (h : Hierarchy) (ms : List Ty) :
    ms = [] ∧ (TypeStore.unionOf ms : Ideal h Ty).run = .never ∨
      (∃ m, ms = [m] ∧ (TypeStore.unionOf ms : Ideal h Ty).run = m) ∨
      2 ≤ ms.length ∧ (TypeStore.unionOf ms : Ideal h Ty).run = .union (Ty.sortByKey ms) := by
  match ms with
  | [] => exact .inl ⟨rfl, rfl⟩
  | [m] => exact .inr (.inl ⟨m, rfl, rfl⟩)
  | _ :: _ :: _ => exact .inr (.inr ⟨by simp, rfl⟩)

/-- Unless `unknown` is among its arguments, a union has the simplified alternatives as members. -/
theorem union_known (hk : ∀ t ∈ ts, ¬ Ty.Alternative .unknown t) :
    ∃ flat, (∀ x, x ∈ flat ↔ ∃ t ∈ ts, Ty.Alternative x t) ∧
      h.union ts = (TypeStore.unionOf (Ty.simplified flat) : Ideal h Ty).run := by
  have hopen := Ty.alternativesAll_opened ts
  rw [union_eq]
  cases hflat : Ty.alternativesAll ts with
  | none =>
    rw [hflat] at hopen
    obtain ⟨t, ht, hx⟩ := hopen
    exact absurd hx (hk t ht)
  | some flat =>
    rw [hflat] at hopen
    exact ⟨flat, hopen.2, rfl⟩

theorem union_unknown {t : Ty} (ht : t ∈ ts) (hx : Ty.Alternative .unknown t) :
    h.union ts = .unknown := by
  have hopen := Ty.alternativesAll_opened ts
  rw [union_eq]
  cases hflat : Ty.alternativesAll ts with
  | none => rfl
  | some flat =>
    rw [hflat] at hopen
    exact absurd hx (hopen.1 t ht)

/-- The members of a simplified union are the simplified alternatives: none of these is a union or
`never`, so a single one is its own only member. -/
theorem members_unionOf_perm {ms : List Ty}
    (hms : ∀ m ∈ ms, m.isUnion = false ∧ m.isNever = false) :
    (TypeStore.unionOf ms : Ideal h Ty).run.members.Perm ms := by
  rcases unionOf_cases h ms with ⟨rfl, hrun⟩ | ⟨m, rfl, hrun⟩ | ⟨-, hrun⟩
  · rw [hrun]
    exact .refl []
  · have hm := hms m (by simp)
    rw [hrun, Ty.members_of_not_union hm.1 hm.2]
  · rw [hrun]
    exact Ty.sortByKey_perm ms

theorem simplified_alternative {flat : List Ty} {x : Ty}
    (hflat : ∀ y ∈ flat, ∃ t ∈ ts, Ty.Alternative y t) (hx : x ∈ Ty.simplified flat) :
    x.isUnion = false ∧ x.isNever = false := by
  rcases Ty.mem_simplified hx with hx | ⟨rfl, -⟩
  · obtain ⟨t, -, halt⟩ := hflat x hx
    exact ⟨halt.isUnion, halt.isNever⟩
  · exact ⟨rfl, rfl⟩

/-- A member of a union is an alternative of one of its arguments, or the `boolean` that stands for
both of its values. -/
theorem of_mem_members_union {x : Ty} (hx : x ∈ (h.union ts).members) :
    (∃ t ∈ ts, Ty.Alternative x t) ∨
      x = .boolean ∧ ∀ b, ∃ t ∈ ts, ∃ y, Ty.Alternative y t ∧ y.key = (Ty.literal (.bool b)).key := by
  by_cases hk : ∀ t ∈ ts, ¬ Ty.Alternative .unknown t
  · obtain ⟨flat, hflat, hrun⟩ := union_known (h := h) hk
    have hperm := members_unionOf_perm (h := h)
      fun m hm => simplified_alternative (fun y hy => (hflat y).1 hy) hm
    rw [hrun, hperm.mem_iff] at hx
    rcases Ty.mem_simplified hx with hx | ⟨rfl, hboth⟩
    · exact .inl ((hflat x).1 hx)
    · refine .inr ⟨rfl, fun b => ?_⟩
      obtain ⟨y, hy, hyk⟩ := hboth b
      obtain ⟨t, ht, halt⟩ := (hflat y).1 hy
      exact ⟨t, ht, y, halt, hyk⟩
  · obtain ⟨t, ht, halt⟩ : ∃ t ∈ ts, Ty.Alternative .unknown t := by simpa using hk
    rw [union_unknown ht halt] at hx
    obtain rfl : x = .unknown := by simpa [Ty.members] using hx
    exact .inl ⟨t, ht, halt⟩

/-- Every alternative of an argument is a member of the union, up to its key, or is a literal whose
atom is a member; unless the union is `unknown`. -/
theorem exists_mem_members_union {t x : Ty} (ht : t ∈ ts) (hx : Ty.Alternative x t) :
    h.union ts = .unknown ∨
      ∃ m ∈ (h.union ts).members, m.key = x.key ∨ ∃ l, x = .literal l ∧ m = l.base := by
  by_cases hk : ∀ t ∈ ts, ¬ Ty.Alternative .unknown t
  · obtain ⟨flat, hflat, hrun⟩ := union_known (h := h) hk
    have hperm := members_unionOf_perm (h := h)
      fun m hm => simplified_alternative (fun y hy => (hflat y).1 hy) hm
    obtain ⟨m, hm, hmx⟩ := Ty.exists_mem_simplified ((hflat x).2 ⟨t, ht, hx⟩)
    refine .inr ⟨m, ?_, hmx⟩
    rw [hrun, hperm.mem_iff]
    exact hm
  · obtain ⟨t, ht, halt⟩ : ∃ t ∈ ts, Ty.Alternative .unknown t := by simpa using hk
    exact .inl (union_unknown ht halt)

/-- No union has both values of `boolean` as members. -/
theorem not_both_mem_union (h : Hierarchy) (ts : List Ty) :
    ¬ ∀ b, ∃ m ∈ (h.union ts).members, m.key = (Ty.literal (.bool b)).key := by
  by_cases hk : ∀ t ∈ ts, ¬ Ty.Alternative .unknown t
  · obtain ⟨flat, hflat, hrun⟩ := union_known (h := h) hk
    have hperm := members_unionOf_perm (h := h)
      fun m hm => simplified_alternative (fun y hy => (hflat y).1 hy) hm
    simp only [hrun, hperm.mem_iff]
    exact Ty.not_both_mem_simplified
  · obtain ⟨t, ht, halt⟩ : ∃ t ∈ ts, Ty.Alternative .unknown t := by simpa using hk
    rw [union_unknown ht halt]
    intro hboth
    obtain ⟨m, hm, hmk⟩ := hboth true
    obtain rfl : m = .unknown := by simpa [Ty.members] using hm
    simpa [Ty.head] using Ty.head_eq_of_key_eq hmk

/-- A union is `never`, or its own only member, or a union of at least two types none of which would
have been simplified. -/
theorem union_cases (h : Hierarchy) (ts : List Ty) :
    h.union ts = .never ∨ ((h.union ts).isUnion = false ∧ (h.union ts).isNever = false) ∨
      ∃ ms, h.union ts = .union ms ∧ 2 ≤ ms.length ∧ (ms.map Ty.key).Nodup ∧
        ∀ m ∈ ms, m.isMember = true := by
  by_cases hk : ∀ t ∈ ts, ¬ Ty.Alternative .unknown t
  · obtain ⟨flat, hflat, hrun⟩ := union_known (h := h) hk
    have hmember (x) (hx : x ∈ Ty.simplified flat) : x.isMember = true := by
      rcases Ty.mem_simplified hx with hx | ⟨rfl, -⟩
      · obtain ⟨t, ht, halt⟩ := (hflat x).1 hx
        refine Ty.isMember_iff.2 ⟨halt.isUnion, halt.isNever, ?_⟩
        cases x with
        | unknown => exact absurd halt (hk t ht)
        | _ => rfl
      · rfl
    rw [hrun]
    rcases unionOf_cases h (Ty.simplified flat) with ⟨-, hu⟩ | ⟨m, hm, hu⟩ | ⟨hlen, hu⟩
    · exact .inl hu
    · have hm := Ty.isMember_iff.1 (hmember m (by simp [hm]))
      rw [hu]
      exact .inr (.inl ⟨hm.1, hm.2.1⟩)
    · have hperm := Ty.sortByKey_perm (Ty.simplified flat)
      refine .inr (.inr ⟨_, hu, by rwa [hperm.length_eq], ?_, fun m hm => ?_⟩)
      · exact (hperm.map Ty.key).nodup_iff.2 (Ty.simplified_keys_nodup flat)
      · exact hmember m (Ty.mem_sortByKey.1 hm)
  · obtain ⟨t, ht, halt⟩ : ∃ t ∈ ts, Ty.Alternative .unknown t := by simpa using hk
    rw [union_unknown ht halt]
    exact .inr (.inl ⟨rfl, rfl⟩)

/-- What holds of the arguments holds of their union, if it passes down from unions to their members
and up to unions from members that are no unions themselves. -/
theorem union_forall {P : Ty → Prop} (hnever : P .never) (hboolean : P .boolean)
    (hdown : ∀ ms, P (.union ms) → ∀ m ∈ ms, P m)
    (hup : ∀ ms, 2 ≤ ms.length → (ms.map Ty.key).Nodup → (∀ m ∈ ms, P m ∧ m.isMember = true) →
      P (.union ms))
    (hts : ∀ t ∈ ts, P t) : P (h.union ts) := by
  have hmembers : ∀ m ∈ (h.union ts).members, P m := by
    intro m hm
    rcases of_mem_members_union hm with ⟨t, ht, halt⟩ | ⟨rfl, -⟩
    · exact halt.of_union_closed hdown (hts t ht)
    · exact hboolean
  rcases union_cases h ts with hu | hu | ⟨ms, hu, hlen, hkeys, hms⟩
  · rw [hu]
    exact hnever
  · rw [Ty.members_of_not_union hu.1 hu.2] at hmembers
    exact hmembers _ (by simp)
  · rw [hu] at hmembers ⊢
    exact hup ms hlen hkeys fun m hm => ⟨hmembers m hm, hms m hm⟩

end Hierarchy
end FlowTyping
