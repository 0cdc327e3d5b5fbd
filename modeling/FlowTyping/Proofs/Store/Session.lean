import FlowTyping.Proofs.Store.Keeping

/-!
# Sessions with a universe

A session is a sequence of calls of the operations of a universe, the types in them being answers to
earlier calls. This module runs sessions and shows what holds of the universe after each call.

* **`Universe.Call`** — the calls, with what they do (`Call.serve`).
* **`Session.run`** — the calls of a session one after the other; **`Session.Proper`** says that the types
  in each call were answered before and that the names in it are words.
* **`Session.call_sound`** — what one call keeps, and **`Session.run_sound`** — what a whole session keeps.
-/

namespace FlowTyping

namespace Universe

/-- A call of an operation of a universe. A class is declared with a shape here. The hierarchy of a universe
can be handed out, and then a class can be declared in it without a shape (`InUniverse.declareBare`): that is
an operation of the hierarchy, not of the universe, and no call. -/
inductive Call where
  | literal (value : Literal)
  | object (tag : String) (props : List (Property Ty))
  | tuple (elems : List (Elem Ty)) (rest : Option Ty)
  | array (elem : Ty)
  | function (params : List (Param Ty)) (ret : Ty)
  | typeVar (name : String) (bound : Option Ty)
  | union (ts : List Ty)
  | join (a b : Ty)
  | intersect (ts : List Ty)
  | meet (a b : Ty)
  | filter (t : Ty) (keep : Ty → Bool)
  | remove (t member : Ty)
  | keys (t : Ty)
  | propertyOf (t : Ty) (name : Text)
  | normalize (t : Ty)
  | apply (t : Ty) (subst : Subst)
  | subtype (a b : Ty)
  | disjoint (a b : Ty)
  | lookup (key : Text)
  | declareClass (name : String) (parents : List String) (props : List (Property Ty))

namespace Call

/-- The types that a call is made with. -/
def types : Call → List Ty
  | .literal _ | .lookup _ => []
  | .object _ props | .declareClass _ _ props => props.map (·.type)
  | .tuple elems rest => elems.map (·.type) ++ rest.toList
  | .array t | .filter t _ | .keys t | .propertyOf t _ | .normalize t => [t]
  | .function params ret => params.map (·.type) ++ [ret]
  | .typeVar _ bound => bound.toList
  | .union ts | .intersect ts => ts
  | .join a b | .meet a b | .remove a b | .subtype a b | .disjoint a b => [a, b]
  | .apply t subst => t :: subst.flatMap fun binding => [binding.param, binding.type]

/-- The names that a call makes types with: class tags, and names of properties and type parameters. -/
def names : Call → List Text
  | .object tag props | .declareClass tag _ props => tag :: props.map (·.name)
  | .typeVar name _ => [name]
  | _ => []

/-- What a call does. It answers the types in its result; a tuple with a required element after an
optional one is refused. -/
def serve : Call → InUniverse (List Ty)
  | .literal value => return [← TypeStore.literal value]
  | .object tag props => return [← TypeStore.object tag props]
  | .tuple elems rest => do
    match TypeStore.firstMisplaced 0 false elems with
    | some _ => return []
    | none => return [← TypeStore.tuple elems rest]
  | .array elem => return [← TypeStore.array elem]
  | .function params ret => return [← TypeStore.function params ret]
  | .typeVar name bound => return [← TypeStore.typeVar name bound]
  | .union ts => return [← TypeStore.union ts]
  | .join a b => return [← TypeStore.join a b]
  | .intersect ts => return [← TypeStore.intersect ts]
  | .meet a b => return [← TypeStore.meet a b]
  | .filter t keep => return [← TypeStore.filterMembers t keep]
  | .remove t member => return [← TypeStore.remove t member]
  | .keys t => return [← TypeStore.keysOf t]
  | .propertyOf t name => return ((← TypeStore.propertyOf t name).map (·.type)).toList
  | .normalize t => return [← TypeStore.normalize t]
  | .apply t subst => return [← TypeStore.apply t subst]
  | .subtype a b => do
    let _ ← TypeStore.subtype a b
    return []
  | .disjoint a b => do
    let _ ← TypeStore.disjoint a b
    return []
  | .lookup key => return (← TypeStore.lookup? key).toList
  | .declareClass name parents props => do
    match ← InUniverse.declareClass name parents props with
    | .ok shape => return [shape]
    | .error _ => return []

variable {h : Hierarchy} {u : Universe} {c : Call}

/-- A call that declares nothing keeps the universe in order and answers entries. -/
theorem yields_serve {R : Regime} (hR : R.Serving) (hclass : ∀ name parents props, c ≠ .declareClass name parents props)
    (htypes : ∀ t ∈ c.types, u.Keeps t) (hnames : ∀ w ∈ c.names, R.Word w) :
    R.Yields u c.serve fun v ts => ∀ t ∈ ts, v.Keeps t := by
  have hentry {x : InUniverse Ty} (hx : R.Answers u x) :
      R.Yields u (do return [← x]) fun v ts => ∀ t ∈ ts, v.Keeps t :=
    hx.bind fun _ _ _ _ ht => .pure fun _ _ hvw => by simpa using R.keeps hvw ht
  cases c with
  | literal value => exact hentry (hR.literal value)
  | object tag props =>
    refine hentry (hR.object (hnames _ (by simp [names])) (fun p hp => hnames _ ?_) fun p hp => htypes _ ?_)
    · simp only [names, List.mem_cons, List.mem_map]
      exact .inr ⟨p, hp, rfl⟩
    · exact List.mem_map_of_mem hp
  | tuple elems rest =>
    rw [serve]
    split
    · exact .pure fun _ _ _ => by simp
    · rename_i horder
      refine hentry (hR.tuple (TypeStore.firstMisplaced_eq_none_iff.1 horder).2 (fun e he => htypes _ ?_)
        fun t ht => htypes _ ?_)
      · exact List.mem_append_left _ (List.mem_map_of_mem he)
      · exact List.mem_append_right _ (by simpa using ht)
  | array elem =>
    refine hentry (hR.tuple .nil (by simp) fun t ht => htypes _ ?_)
    obtain rfl := Option.some.inj ht
    simp [types]
  | function params ret =>
    refine hentry (hR.function (fun p hp => htypes _ ?_) (htypes _ (by simp [types])))
    exact List.mem_append_left _ (List.mem_map_of_mem hp)
  | typeVar name bound =>
    exact hentry (hR.typeVar (hnames _ (by simp [names])) fun t ht => htypes _ (by simpa [types] using ht))
  | union ts => exact hentry (hR.union htypes)
  | join a b => exact hentry (hR.union htypes)
  | intersect ts => exact hentry (hR.intersect htypes)
  | meet a b => exact hentry (hR.intersect htypes)
  | filter t keep => exact hentry (hR.filterMembers (htypes t (by simp [types])) keep)
  | remove t member => exact hentry (hR.filterMembers (htypes t (by simp [types])) _)
  | keys t => exact hentry (hR.keysOf t)
  | propertyOf t name =>
    refine (hR.propertyOf name (htypes t (by simp [types]))).bind fun v found _ _ hfound =>
      .pure fun w _ hvw s hs => ?_
    cases found with
    | none => simp at hs
    | some p =>
      obtain rfl : s = p.type := by simpa using hs
      exact R.keeps hvw (hfound p rfl)
  | normalize t => exact hentry (Regime.answers_normalize (htypes t (by simp [types])))
  | apply t subst =>
    refine hentry (hR.apply (htypes t (by simp [types])) fun binding hb => htypes _ ?_)
    exact List.mem_cons_of_mem _ (List.mem_flatMap.2 ⟨binding, hb, by simp⟩)
  | subtype a b =>
    exact (hR.subtype (htypes a (by simp [types])) (htypes b (by simp [types]))).bind fun _ _ _ _ _ =>
      .pure fun _ _ _ => by simp
  | disjoint a b =>
    exact (hR.disjoint (htypes a (by simp [types])) (htypes b (by simp [types]))).bind fun _ _ _ _ _ =>
      .pure fun _ _ _ => by simp
  | lookup key =>
    intro v hv _
    refine ⟨hv, R.refl v, fun t ht => ?_⟩
    have hlookup : v.lookup? key = some t := Option.mem_toList.1 ht
    rw [Keeps, R.key_eq hv hlookup]
    exact hlookup
  | declareClass name parents props => exact absurd rfl (hclass name parents props)

/-- A call keeps the universe sound, adds to its table, and answers entries. Of the members of an
intersection that it adds no two combine, for the classes after the call. -/
theorem serve_sound (hu : u.Sound h) (htypes : ∀ t ∈ c.types, u.Keeps t)
    (hnames : ∀ w ∈ c.names, w.IsWord) :
    ∃ h', (c.serve.run u).2.Sound h' ∧ u.Grows h' (c.serve.run u).2 ∧
      ∀ t ∈ (c.serve.run u).1, (c.serve.run u).2.Keeps t := by
  by_cases hclass : ∃ name parents props, c = .declareClass name parents props
  · obtain ⟨name, parents, props, rfl⟩ := hclass
    obtain ⟨h', hv, huv, hinter, hshape⟩ := @declareClass_sound h u name parents props hu
      (hnames name (by simp [names])) (fun p hp => hnames _ (List.mem_cons_of_mem _
        (List.mem_map_of_mem hp))) fun p hp => htypes _ (List.mem_map_of_mem hp)
    have hrun : (serve (.declareClass name parents props)).run u =
        match (InUniverse.declareClass name parents props).run u with
        | (.ok shape, v) => ([shape], v)
        | (.error _, v) => ([], v) := by
      rw [serve, StateT.run_bind]
      rcases (InUniverse.declareClass name parents props).run u with ⟨_ | _, v⟩ <;> rfl
    rw [hrun]
    generalize (InUniverse.declareClass name parents props).run u = made at hv huv hinter hshape
    rcases made with ⟨_ | shape, v⟩
    · exact ⟨h', hv, ⟨huv.lookup?, fun hk => .inl (hinter _ hk)⟩, by simp⟩
    · exact ⟨h', hv, ⟨huv.lookup?, fun hk => .inl (hinter _ hk)⟩, by simpa using hshape shape rfl⟩
  · exact ⟨h, yields_serve (serving_sound h) (fun name parents props heq => hclass ⟨name, parents, props, heq⟩)
      htypes hnames u hu (.refl h u)⟩

end Call

/-! ## Universes that keep given types -/

variable {ts : List Ty} {t t' : Ty}

theorem getElem?_foldl_insert (hts : (ts.map Ty.key).Nodup) (table : Std.HashMap Text Ty)
    (k : Text) :
    (ts.foldl (fun table t => table.insert t.key t) table)[k]? = some t ↔
      (t ∈ ts ∧ k = t.key) ∨ (k ∉ ts.map Ty.key ∧ table[k]? = some t) := by
  induction ts generalizing table with
  | nil => simp
  | cons s ts ih =>
    obtain ⟨hs, hts⟩ := List.nodup_cons.1 hts
    rw [List.foldl_cons, ih hts, Std.HashMap.getElem?_insert]
    by_cases hk : s.key = k
    · subst hk
      have hmem (ht : t ∈ ts) : s.key ≠ t.key := fun heq => hs (heq ▸ List.mem_map_of_mem ht)
      constructor
      · rintro (⟨ht, heq⟩ | ⟨-, heq⟩)
        · exact absurd heq (hmem ht)
        · obtain rfl : s = t := by simpa using heq
          exact .inl (by simp)
      · rintro (⟨ht, heq⟩ | ⟨hno, -⟩)
        · rcases List.mem_cons.1 ht with rfl | ht
          · exact .inr ⟨hs, by simp⟩
          · exact absurd heq (hmem ht)
        · simp at hno
    · have hne : t = s → k ≠ t.key := by
        rintro rfl heq
        exact hk heq.symm
      simp only [List.mem_cons, List.map_cons, not_or, beq_iff_eq, hk, if_false, Ne.symm hk,
        not_false_eq_true, true_and]
      constructor
      · rintro (⟨ht, heq⟩ | hrest)
        · exact .inl ⟨.inr ht, heq⟩
        · exact .inr hrest
      · rintro (⟨rfl | ht, heq⟩ | hrest)
        · exact absurd heq (hne rfl)
        · exact .inl ⟨ht, heq⟩
        · exact .inr hrest

/-- A universe without classes and memory that keeps the given types. -/
def holding (ts : List Ty) : Universe :=
  { Universe.new 0 with table := ts.foldl (fun table t => table.insert t.key t) ∅ }

theorem lookup?_holding (hts : (ts.map Ty.key).Nodup) {k : Text} :
    (holding ts).lookup? k = some t ↔ t ∈ ts ∧ k = t.key := by
  rw [lookup?, holding, getElem?_foldl_insert hts]
  simp

theorem intern_of_not_mem (hts : (ts.map Ty.key).Nodup) (hnew : t.key ∉ ts.map Ty.key) :
    (holding ts).intern t = (t, holding (ts ++ [t])) := by
  have hnone : (holding ts).lookup? t.key = none := by
    rw [Option.eq_none_iff_forall_not_mem]
    intro s hs
    obtain ⟨hmem, hkey⟩ := (lookup?_holding hts).1 hs
    exact hnew (hkey ▸ List.mem_map_of_mem hmem)
  rw [intern]
  simp only [show (holding ts).table[_]? = none from hnone]
  simp [holding]

theorem intern_of_mem (hts : (ts.map Ty.key).Nodup) (ht : t' ∈ ts) (hk : t.key = t'.key) :
    (holding ts).intern t = (t', holding ts) := by
  have hsome : (holding ts).lookup? t.key = some t' := (lookup?_holding hts).2 ⟨ht, hk⟩
  rw [intern]
  simp only [show (holding ts).table[_]? = some t' from hsome]

/-- The universe to start with keeps the atoms. -/
theorem lookup?_new {n : Nat} {k : Text} :
    (Universe.new n).lookup? k = some t ↔ t ∈ Ty.atoms ∧ k = t.key := by
  have hkeys : (Ty.atoms.map Ty.key).Nodup := by
    simp [Ty.atoms, Ty.key]
    decide
  exact lookup?_holding hkeys

theorem sound_new (n : Nat) : (Universe.new n).Sound {} := by
  have hatom (t : Ty) (ht : (Universe.new n).Keeps t) :
      t.parts = [] ∧ t.OwnNamed ∧ t.Orderly ∧ t.isInter = false := by
    have hmem := (lookup?_new.1 ht).1
    simp only [Ty.atoms, List.mem_cons, List.not_mem_nil, or_false] at hmem
    rcases hmem with rfl | rfl | rfl | rfl | rfl | rfl | rfl <;> exact ⟨rfl, trivial, trivial, rfl⟩
  refine ⟨rfl, fun hk => (lookup?_new.1 hk).2.symm, fun {t} ht => ?_, fun {t} ht => (hatom t ht).2.1,
    fun {t} ht => (hatom t ht).2.2.1, fun {ms} ht => ?_, fun ht => lookup?_new.2 ⟨ht, rfl⟩, by simp,
    Memory.right_of_empty n, rfl⟩
  · simp [(hatom t ht).1]
  · simpa [Ty.isInter] using (hatom (.inter ms) ht).2.2.2

end Universe

/-! ## Sessions -/

/-- A universe with the types that it has answered. -/
structure Session where
  store : Universe
  answered : List Ty

namespace Session

open Universe

/-- A session that begins with a new universe. The atoms are at hand from the start. -/
def start (memory : Nat) : Session := { store := Universe.new memory, answered := Ty.atoms }

def call (s : Session) (c : Call) : Session :=
  let (ts, u) := c.serve.run s.store
  { store := u, answered := ts ++ s.answered }

def run (s : Session) (calls : List Call) : Session := calls.foldl call s

/-- The types in each call were answered before it, and the names in it are words. -/
def Proper (s : Session) : List Call → Prop
  | [] => True
  | c :: calls =>
    (∀ t ∈ c.types, t ∈ s.answered) ∧ (∀ w ∈ c.names, w.IsWord) ∧ (s.call c).Proper calls

/-- The universe is sound, and what it answered are entries. -/
def Sound (s : Session) : Prop := ∃ h, s.store.Sound h ∧ ∀ t ∈ s.answered, s.store.Keeps t

theorem start_sound (memory : Nat) : (start memory).Sound :=
  ⟨{}, sound_new memory, fun _ ht => (sound_new memory).atom ht⟩

variable {s : Session} {c : Call} {calls : List Call}

theorem call_sound (hs : s.Sound) (htypes : ∀ t ∈ c.types, t ∈ s.answered)
    (hnames : ∀ w ∈ c.names, w.IsWord) :
    (s.call c).Sound ∧ s.store.Grows (s.call c).store.classes (s.call c).store := by
  obtain ⟨h, hu, hanswered⟩ := hs
  obtain ⟨h', hv, huv, hnew⟩ := Call.serve_sound hu (fun t ht => hanswered t (htypes t ht)) hnames
  refine ⟨⟨h', hv, fun t ht => ?_⟩, hv.classes_eq ▸ huv⟩
  rcases List.mem_append.1 ht with ht | ht
  · exact hnew t ht
  · exact huv.keeps (hanswered t ht)

theorem run_sound (hs : s.Sound) (hcalls : s.Proper calls) : (s.run calls).Sound := by
  induction calls generalizing s with
  | nil => exact hs
  | cons c calls ih =>
    obtain ⟨htypes, hnames, hrest⟩ := hcalls
    exact ih (call_sound hs htypes hnames).1 hrest

end Session
end FlowTyping
