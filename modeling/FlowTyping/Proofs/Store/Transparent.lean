import FlowTyping.Proofs.Store.Matched

/-!
# Whether the memory of answers can be noticed

How many subtype answers a universe remembers is set when it is made, and is meant to change nothing but the
time that an answer takes. Here requests of all kinds are made one after the other in two universes that
differ in nothing but that number, and the replies are compared.

* **`Universe.Request`** and **`Universe.Reply`** — what a universe may be asked to do, and what it answers.
* **`Universe.Request.runsAlike`** — one request is answered alike in matched universes, and
  **`Universe.answerAll_eq`** — so is a whole run.
* **`Universe.memory_transparent`** — new universes give the same replies, whatever they remember, as long as
  no answer becomes wrong while it is remembered. Only a declaration without a shape can make one wrong:
  **`Universe.undisturbed_of_shaped`**; without a memory there is none: **`Universe.undisturbed_of_memory_off`**.
* **`Universe.stale_noticed`** — an answer that became wrong is given all the same. **`Universe.late`** is a
  run in which that happens.
-/

namespace FlowTyping

open Ty

namespace Universe

variable {u v : Universe}

/-- What a universe may be asked to do, with the types and names for it. -/
inductive Request where
  | literal (value : Literal)
  | object (tag : String) (props : List (Property Ty))
  | tuple (elems : List (Elem Ty)) (rest : Option Ty)
  | function (params : List (Param Ty)) (ret : Ty)
  | typeVar (name : String) (bound : Option Ty)
  | union (ts : List Ty)
  | intersect (ts : List Ty)
  | propertyOf (t : Ty) (name : Text)
  | subtype (a b : Ty)
  | disjoint (a b : Ty)
  | declareClass (name : String) (parents : List String) (props : List (Property Ty))
  | declare (c : ClassDecl)

/-- What it answers. -/
inductive Reply where
  | type (t : Ty)
  | property (found : Option (Property Ty))
  | verdict (yes : Bool)
  /-- A tuple is refused for a required element after an optional one. -/
  | misplaced (index : Nat)
  | shape (made : Except ClassError Ty)
  | declared (done : Except ClassError Unit)

def Reply.types : Reply → List Ty
  | .type t => [t]
  | .property found => found.toList.map (·.type)
  | .shape made => made.toOption.toList
  | .verdict _ | .misplaced _ | .declared _ => []

namespace Request

/-- The types that a request is made with. -/
def types : Request → List Ty
  | .literal _ => []
  | .object _ props | .declareClass _ _ props => props.map (·.type)
  | .tuple elems rest => elems.map (·.type) ++ rest.toList
  | .function params ret => params.map (·.type) ++ [ret]
  | .typeVar _ bound => bound.toList
  | .union ts | .intersect ts => ts
  | .propertyOf t _ => [t]
  | .subtype a b | .disjoint a b => [a, b]
  | .declare c => c.shape.toList

/-- The names that a request makes types with. -/
def names : Request → List Text
  | .object tag props | .declareClass tag _ props => tag :: props.map (·.name)
  | .typeVar name _ => [name]
  | _ => []

def serve : Request → InUniverse Reply
  | .literal value => return .type (← TypeStore.literal value)
  | .object tag props => return .type (← TypeStore.object tag props)
  | .tuple elems rest =>
    match TypeStore.firstMisplaced 0 false elems with
    | some index => return .misplaced index
    | none => return .type (← TypeStore.tuple elems rest)
  | .function params ret => return .type (← TypeStore.function params ret)
  | .typeVar name bound => return .type (← TypeStore.typeVar name bound)
  | .union ts => return .type (← TypeStore.union ts)
  | .intersect ts => return .type (← TypeStore.intersect ts)
  | .propertyOf t name => return .property (← TypeStore.propertyOf t name)
  | .subtype a b => return .verdict (← TypeStore.subtype a b)
  | .disjoint a b => return .verdict (← TypeStore.disjoint a b)
  | .declareClass name parents props => return .shape (← InUniverse.declareClass name parents props)
  | .declare c => return .declared (← Universe.declare c)

/-- No answer that is remembered when a class is added to the hierarchy alone becomes a wrong one. -/
def Harmless (u : Universe) (r : Request) : Prop :=
  ∀ c h, r = .declare c → u.classes.declare c = .ok h → u.memory.Right h

/-- **A request is answered alike in matched universes.** -/
theorem runsAlike (hm : Matched u v) {r : Request} (htypes : ∀ t ∈ r.types, u.Keeps t ∧ v.Keeps t)
    (hnames : ∀ word ∈ r.names, word.IsWord) (hu : r.Harmless u) (hv : r.Harmless v) :
    RunsAlike u v Reply.types r.serve := by
  have hleft {t : Ty} (ht : t ∈ r.types) := hm.left.stands (htypes t ht).1
  have hright {t : Ty} (ht : t ∈ r.types) := hm.right.stands (htypes t ht).2
  have htype {x : InUniverse Ty} (hx : RunsAlike u v (fun t => [t]) x) :
      RunsAlike u v Reply.types (do return .type (← x)) := hx.map _ fun _ => List.Subset.refl _
  cases r with
  | literal value => exact htype (.type hm (.intern rfl) (yields_literal value) (yields_literal value))
  | object tag props =>
    refine htype (hm.object (hnames _ (by simp [names])) (fun p hp => hnames _ ?_) fun p hp =>
      htypes _ (List.mem_map_of_mem hp))
    exact List.mem_cons_of_mem _ (List.mem_map_of_mem hp)
  | tuple elems rest =>
    rw [serve]
    split
    · exact .pure hm rfl
    · rename_i horder
      have helems (e) (he : e ∈ elems) := htypes e.type (List.mem_append_left _ (List.mem_map_of_mem he))
      have hrest (t) (ht : t ∈ rest) := htypes t (List.mem_append_right _ (by simpa using ht))
      have horder := (TypeStore.firstMisplaced_eq_none_iff.1 horder).2
      exact htype (.type hm (.intern rfl)
        (hm.left.yields_tuple horder (fun e he => (helems e he).1) fun t ht => (hrest t ht).1)
        (hm.right.yields_tuple horder (fun e he => (helems e he).2) fun t ht => (hrest t ht).2))
  | function params ret =>
    refine htype (hm.function (fun p hp => htypes _ ?_) (htypes _ (by simp [types])))
    exact List.mem_append_left _ (List.mem_map_of_mem hp)
  | typeVar name bound =>
    have hbound (t) (ht : t ∈ bound) := htypes t (by simpa [types] using ht)
    have hname : Text.IsWord name := hnames _ (by simp [names])
    exact htype (.type hm (.intern rfl)
      (yields_typeVar hname (hm.left.stands_option fun t ht => (hbound t ht).1))
      (yields_typeVar hname (hm.right.stands_option fun t ht => (hbound t ht).2)))
  | union ts =>
    -- the classes are the same, so both universes answer what these alone say
    refine htype (.type (t := u.classes.union ts) hm (TypeStore.modest_union ts)
      (yields_union (hm.left.stands_all fun t ht => (htypes t ht).1)) ?_)
    rw [hm.classes]
    exact yields_union (hm.right.stands_all fun t ht => (htypes t ht).2)
  | intersect ts =>
    refine htype (.type (t := u.classes.intersect ts) hm (TypeStore.modest_intersect ts)
      (yields_intersect (hm.left.stands_all fun t ht => (htypes t ht).1)) ?_)
    rw [hm.classes]
    exact yields_intersect (hm.right.stands_all fun t ht => (htypes t ht).2)
  | propertyOf t name =>
    exact (hm.propertyOf (htypes t (by simp [types])) name).map _ fun _ => List.Subset.refl _
  | subtype a b =>
    have ha : a ∈ types (.subtype a b) := by simp [types]
    have hb : b ∈ types (.subtype a b) := by simp [types]
    refine (RunsAlike.verdict hm (TypeStore.modest_subtype a b)
      (says_subtype (hleft ha) (hleft hb)) ?_).map _ fun _ => List.Subset.refl _
    rw [hm.classes]
    exact says_subtype (hright ha) (hright hb)
  | disjoint a b =>
    have ha : a ∈ types (.disjoint a b) := by simp [types]
    have hb : b ∈ types (.disjoint a b) := by simp [types]
    refine (RunsAlike.verdict hm (TypeStore.modest_disjoint a b)
      (says_disjoint (hleft ha) (hleft hb)) ?_).map _ fun _ => List.Subset.refl _
    rw [hm.classes]
    exact says_disjoint (hright ha) (hright hb)
  | declareClass name parents props =>
    refine (hm.declareClass (hnames _ (by simp [names])) (fun p hp => hnames _ ?_) fun p hp =>
      htypes _ (List.mem_map_of_mem hp)).map _ fun _ => List.Subset.refl _
    exact List.mem_cons_of_mem _ (List.mem_map_of_mem hp)
  | declare c =>
    -- adding to the hierarchy alone forgets nothing, so the memories must stay right
    refine (hm.declare (fun t ht => htypes t (by simpa [types] using ht)) fun h hdeclare => ?_).map _
      fun _ => List.Subset.refl _
    exact ⟨hu c h rfl hdeclare, hv c h rfl (hm.classes ▸ hdeclare)⟩

theorem harmless_of_shaped {r : Request} (hr : ∀ c, r ≠ .declare c) : r.Harmless u :=
  fun c _ heq => absurd heq (hr c)

/-- Whatever is requested, a memory that is off stays empty. -/
theorem memory_off {r : Request} (hoff : u.memory = { capacity := 0 }) :
    (r.serve.run u).2.memory = { capacity := 0 } := by
  -- what only asks and interns leaves a memory without room empty
  have hmodest {α : Type} {x : InUniverse α} (hx : Modest x) (f : α → Reply) :
      ((do return f (← x) : InUniverse Reply).run u).2.memory = { capacity := 0 } := by
    rw [← hoff]
    exact (hx u).memory_off (by rw [hoff])
  cases r with
  | literal value => exact hmodest (TypeStore.modest_literal value) _
  | object tag props => exact hmodest (.intern rfl) _
  | tuple elems rest =>
    rw [serve]
    split
    · exact hoff
    · exact hmodest (.intern rfl) _
  | function params ret =>
    show (u.intern _).2.memory = _
    rw [Universe.intern]
    split <;> exact hoff
  | typeVar name bound => exact hmodest (.intern rfl) _
  | union ts => exact hmodest (TypeStore.modest_union ts) _
  | intersect ts => exact hmodest (TypeStore.modest_intersect ts) _
  | propertyOf t name => exact hmodest (TypeStore.modest_propertyOf t name) _
  | subtype a b => exact hmodest (TypeStore.modest_subtype a b) _
  | disjoint a b => exact hmodest (TypeStore.modest_disjoint a b) _
  | declareClass name parents props =>
    show ((InUniverse.declareClass name parents props).run u).2.memory = _
    -- the shape of a class is interned before the class is declared
    have hobject (ps : List (Property Ty)) :
        ((TypeStore.object name ps : InUniverse Ty).run u).2.memory = { capacity := 0 } := by
      rw [← hoff]
      exact (Modest.intern rfl u).memory_off (by rw [hoff])
    rw [run_declareClass]
    split
    · exact hoff
    · rename_i above _
      have hmade := hobject (above ++ props)
      generalize (TypeStore.object name (above ++ props) : InUniverse Ty).run u = made at hmade
      obtain ⟨shape, v⟩ := made
      dsimp only at hmade ⊢
      split
      · exact hmade
      · rw [hmade]
        rfl
  | declare c =>
    show ((Universe.declare c).run u).2.memory = _
    rw [run_declare]
    split <;> exact hoff

end Request

/-! ## Runs -/

open Request

/-- The replies to requests that are made one after the other. -/
def answerAll (u : Universe) (rs : List Request) : List Reply :=
  ((rs.mapM Request.serve : InUniverse (List Reply)).run u).1

theorem answerAll_cons (u : Universe) (r : Request) (rs : List Request) :
    answerAll u (r :: rs) = (r.serve.run u).1 :: answerAll (r.serve.run u).2 rs := by
  rw [answerAll, List.mapM_cons]
  rfl

/-- The types in each request are among those that were answered before it, and names are words. -/
def Proper (u : Universe) (known : List Ty) : List Request → Prop
  | [] => True
  | r :: rs => (∀ t ∈ r.types, t ∈ known) ∧ (∀ word ∈ r.names, word.IsWord) ∧
      Proper (r.serve.run u).2 ((r.serve.run u).1.types ++ known) rs

/-- No answer becomes wrong while it is remembered. -/
def Undisturbed (u : Universe) : List Request → Prop
  | [] => True
  | r :: rs => r.Harmless u ∧ Undisturbed (r.serve.run u).2 rs

variable {rs : List Request} {known : List Ty}

theorem undisturbed_of_shaped (hrs : ∀ r ∈ rs, ∀ c, r ≠ .declare c) : Undisturbed u rs := by
  induction rs generalizing u with
  | nil => trivial
  | cons r rs ih =>
    exact ⟨harmless_of_shaped (hrs r (by simp)), ih fun r' hr' => hrs r' (by simp [hr'])⟩

theorem undisturbed_of_memory_off (hoff : u.memory = { capacity := 0 }) : Undisturbed u rs := by
  induction rs generalizing u with
  | nil => trivial
  | cons r rs ih => exact ⟨fun _ h _ _ => hoff ▸ Memory.right_of_empty 0, ih (Request.memory_off hoff)⟩

theorem answerAll_eq (hm : Matched u v) (hknown : ∀ t ∈ known, u.Keeps t ∧ v.Keeps t)
    (hproper : Proper u known rs) (hu : Undisturbed u rs) (hv : Undisturbed v rs) :
    answerAll u rs = answerAll v rs := by
  induction rs generalizing u v known with
  | nil => rfl
  | cons r rs ih =>
    obtain ⟨htypes, hnames, hrest⟩ := hproper
    obtain ⟨hsame, hm', hl, hr⟩ := Request.runsAlike hm (fun t ht => hknown t (htypes t ht)) hnames hu.1 hv.1
    rw [answerAll_cons, answerAll_cons, hsame]
    congr 1
    refine ih hm' (fun t ht => ?_) hrest hu.2 hv.2
    rcases List.mem_append.1 ht with ht | ht
    · exact ⟨hl t (.inr ht), hr t (.inr (hsame ▸ ht))⟩
    · exact ⟨hl t (.inl (hknown t ht).1), hr t (.inl (hknown t ht).2)⟩

theorem matched_new (m n : Nat) : Matched (.new m) (.new n) where
  left := sound_new m
  right := sound_new n
  classes := rfl
  functions _ := Iff.rfl

/-- **The size of the memory makes no difference to any reply.** -/
theorem memory_transparent {m n : Nat} (hproper : Proper (.new m) atoms rs) (hm : Undisturbed (.new m) rs)
    (hn : Undisturbed (.new n) rs) : answerAll (.new m) rs = answerAll (.new n) rs :=
  answerAll_eq (matched_new m n) (fun _ ht => ⟨(sound_new m).atom ht, (sound_new n).atom ht⟩) hproper hm hn

/-! ## What is remembered is answered -/

section Remembered

variable {a b : Ty} {entry : Bool × Nat}

/-- A remembered answer is given again, and that is a use of it. -/
theorem run_subtypeStep_hit (r : Rules InUniverse) (hne : a.key ≠ b.key) (hon : u.memory.capacity ≠ 0)
    (hentry : u.memory.answers[(a.key, b.key)]? = some entry) :
    (Rules.subtypeStep r a b : InUniverse Bool).run u =
      (entry.1, { u with memory := u.memory.use (a.key, b.key) entry.1 }) := by
  have hhit : u.memory.answered? (a.key, b.key) = (some entry.1, u.memory.use (a.key, b.key) entry.1) := by
    rw [Memory.answered?, hentry]
  have hanswered : (TypeStore.answered? (a.key, b.key) : InUniverse (Option Bool)).run u =
      (some entry.1, { u with memory := u.memory.use (a.key, b.key) entry.1 }) := by
    show (if u.memory.capacity = 0 then (none, u) else
      ((u.memory.answered? (a.key, b.key)).1, { u with memory := (u.memory.answered? (a.key, b.key)).2 })) = _
    rw [if_neg hon, hhit]
  rw [Rules.subtypeStep, if_neg hne, StateT.run_bind, hanswered]
  rfl

/-- An answer that is not remembered is found by the rules, and remembered. -/
theorem run_subtypeStep_miss {r : Rules InUniverse} {answer : Bool} {w : Universe} (hne : a.key ≠ b.key)
    (hnew : u.memory.answers[(a.key, b.key)]? = none)
    (hrule : (Rules.subtypeRule r a b : InUniverse Bool).run u = (answer, w)) :
    (Rules.subtypeStep r a b : InUniverse Bool).run u =
      (answer, { w with memory := w.memory.remember (a.key, b.key) answer }) := by
  have hmiss : u.memory.answered? (a.key, b.key) = (none, u.memory) := by rw [Memory.answered?, hnew]
  have hanswered : (TypeStore.answered? (a.key, b.key) : InUniverse (Option Bool)).run u = (none, u) := by
    show (if u.memory.capacity = 0 then (none, u) else
      ((u.memory.answered? (a.key, b.key)).1, { u with memory := (u.memory.answered? (a.key, b.key)).2 })) = _
    rw [hmiss, ite_self]
  rw [Rules.subtypeStep, if_neg hne, StateT.run_bind, hanswered]
  show StateT.run (Rules.subtypeRule r a b >>= _) u = _
  rw [StateT.run_bind, hrule]
  rfl

/-- A question about a type takes one step at least. -/
theorem exists_subtypeStep (a b : Ty) : ∃ n, ∀ {u w : Universe} {answer : Bool},
    (Rules.subtypeStep (Rules.upTo n) a b : InUniverse Bool).run u = (answer, w) → u.spent = false →
      w.spent = false → (TypeStore.subtype a b : InUniverse Bool).run u = (answer, w) := by
  obtain ⟨n, hn⟩ : ∃ n, stepBound [a, b] = n + 1 := Nat.exists_eq_succ_of_ne_zero (by simp [stepBound])
  refine ⟨n, fun hx hu hw => ?_⟩
  rw [TypeStore.subtype, hn]
  exact run_bounded_of_run hx hu hw

/-- A remembered answer that a declaration makes wrong is given all the same, and a universe without a memory
answers otherwise. -/
theorem stale_noticed (hm : Matched u v) (hoff : v.memory = { capacity := 0 }) (hon : u.memory.capacity ≠ 0)
    (ha : v.Keeps a) (hb : v.Keeps b) {c : ClassDecl} (hshape : ∀ t ∈ c.shape, v.Keeps t) {h : Hierarchy}
    (hdeclare : u.classes.declare c = .ok h) (hentry : u.memory.answers[(a.key, b.key)]? = some entry)
    (hwrong : entry.1 ≠ h.subtype a b) :
    answerAll u [.declare c, .subtype a b] ≠ answerAll v [.declare c, .subtype a b] := by
  have hkey : a.key ≠ b.key := by
    intro hkey
    have hwas := hm.left.right a b (hm.right.named ha) (hm.right.named hb) entry hentry
    rw [Hierarchy.subtype_of_key_eq _ hkey] at hwas hwrong
    exact hwrong hwas
  have hleft : (Universe.declare c).run u = (.ok (), { u with classes := h }) := by rw [run_declare, hdeclare]
  have hright : (Universe.declare c).run v = (.ok (), { v with classes := h }) := by
    rw [run_declare, ← hm.classes, hdeclare]
  obtain ⟨n, hn⟩ := exists_subtypeStep a b
  have hstale : ((TypeStore.subtype a b : InUniverse Bool).run { u with classes := h }).1 = entry.1 := by
    rw [hn (run_subtypeStep_hit (u := { u with classes := h }) _ hkey hon hentry) hm.left.unspent hm.left.unspent]
  have hsound := hm.right.declare (hm.classes ▸ hdeclare) hshape (hoff ▸ Memory.right_of_empty 0 : v.memory.Right h)
  have hfresh := (says_subtype (hsound.stands ha) (hsound.stands hb) _ hsound (.refl h _)).2.2
  have hlast {w w' : Universe} (hw : (Universe.declare c).run w = (.ok (), w')) :
      answerAll w [.declare c, .subtype a b] =
        [.declared (.ok ()), .verdict ((TypeStore.subtype a b : InUniverse Bool).run w').1] := by
    rw [answerAll_cons, answerAll_cons]
    have hserve : (serve (.declare c)).run w = (.declared (.ok ()), w') := by
      rw [serve, StateT.run_bind, hw]
      rfl
    rw [hserve]
    rfl
  rw [hlast hleft, hlast hright, hstale, hfresh]
  simpa using hwrong

end Remembered

/-! ## A class that is declared too late -/

/-- A universe that keeps the given types. -/
def keeping (ts : List Ty) (classes : Hierarchy) (memory : Memory) : Universe :=
  { holding ts with classes, memory }

/-- The shape of things with a name, under a tag. -/
def tagged (tag : String) : Ty := .object tag [{ name := "name", type := .string }]

/-- A request for that shape. -/
def tagging (tag : String) : Request := .object tag [{ name := "name", type := .string }]

variable {ts : List Ty} {classes : Hierarchy} {memory : Memory} {tag : String}

theorem lookup?_keeping (hts : (ts.map Ty.key).Nodup) {k : Text} {t : Ty} :
    (keeping ts classes memory).lookup? k = some t ↔ t ∈ ts ∧ k = t.key :=
  lookup?_holding hts

/-- A type under a new key becomes an entry. -/
theorem intern_keeping {t : Ty} (hts : (ts.map Ty.key).Nodup) (hnew : t.key ∉ ts.map Ty.key) :
    (keeping ts classes memory).intern t = (t, keeping (ts ++ [t]) classes memory) := by
  have hkept : (keeping ts classes memory).intern t =
      (((holding ts).intern t).1, { ((holding ts).intern t).2 with classes, memory }) := by
    rw [Universe.intern, Universe.intern, keeping]
    dsimp only
    split <;> rfl
  rw [hkept, intern_of_not_mem hts hnew]
  rfl

/-- A new shape with one property becomes an entry. -/
theorem serve_shape {p : Property Ty} (hts : (ts.map Ty.key).Nodup)
    (hnew : (Ty.object tag [p]).key ∉ ts.map Ty.key) :
    (Request.object tag [p]).serve.run (keeping ts classes memory) =
      (.type (.object tag [p]), keeping (ts ++ [.object tag [p]]) classes memory) := by
  have hserve : (Request.object tag [p]).serve.run (keeping ts classes memory) =
      (.type ((keeping ts classes memory).intern (.object tag [p])).1,
        ((keeping ts classes memory).intern (.object tag [p])).2) := rfl
  rw [hserve, intern_keeping hts hnew]

/-- Asks whether a dog is an animal. -/
def asking : Request := .subtype (tagged "Dog") (tagged "Animal")

/-- Declares animals, and dogs among them. -/
def declaring : List Request :=
  [.declare { name := "Animal", parents := [], shape := none },
    .declare { name := "Dog", parents := ["Animal"], shape := none }]

def pets : List Ty := atoms ++ [tagged "Animal"] ++ [tagged "Dog"]

def animalClass : Hierarchy := { classes := [⟨"Animal", [], none⟩] }

def petClasses : Hierarchy := { classes := [⟨"Dog", ["Animal"], none⟩, ⟨"Animal", [], none⟩] }

theorem serve_tagging_animal : (tagging "Animal").serve.run (keeping atoms classes memory) =
    (.type (tagged "Animal"), keeping (atoms ++ [tagged "Animal"]) classes memory) :=
  serve_shape (by decide) (by decide)

theorem serve_tagging_dog :
    (tagging "Dog").serve.run (keeping (atoms ++ [tagged "Animal"]) classes memory) =
      (.type (tagged "Dog"), keeping pets classes memory) :=
  serve_shape (by decide) (by decide)

theorem serve_declare_animal :
    (serve (.declare { name := "Animal", parents := [], shape := none })).run (keeping ts {} memory) =
      (.declared (.ok ()), keeping ts animalClass memory) := rfl

theorem serve_declare_dog :
    (serve (.declare { name := "Dog", parents := ["Animal"], shape := none })).run
      (keeping ts animalClass memory) = (.declared (.ok ()), keeping ts petClasses memory) := rfl

/-- The classes are declared first. -/
def early : List Request := declaring ++ [tagging "Animal", tagging "Dog", asking]

/-- The classes are declared after the question was asked, and then it is asked again. -/
def late : List Request := [tagging "Animal", tagging "Dog", asking] ++ declaring ++ [asking]

theorem early_proper : Proper (.new 1) atoms early := by
  show Proper (keeping atoms {} { capacity := 1 }) atoms early
  refine ⟨by simp [types], by simp [names], ?_⟩
  rw [serve_declare_animal]
  refine ⟨by simp [types], by simp [names], ?_⟩
  rw [serve_declare_dog]
  refine ⟨by simp [types, tagging, atoms], by decide, ?_⟩
  rw [serve_tagging_animal]
  refine ⟨by simp [types, tagging, atoms], by decide, ?_⟩
  rw [serve_tagging_dog]
  exact ⟨by simp [types, asking, Reply.types], by simp [names, asking], trivial⟩

/-- There is nothing to remember when the classes are declared. -/
theorem early_undisturbed (n : Nat) : Undisturbed (.new n) early := by
  show Undisturbed (keeping atoms {} { capacity := n }) early
  refine ⟨fun _ h _ _ => Memory.right_of_empty n, ?_⟩
  rw [serve_declare_animal]
  refine ⟨fun _ h _ _ => Memory.right_of_empty n, ?_⟩
  rw [serve_declare_dog]
  exact undisturbed_of_shaped (by simp [tagging, asking])

/-- Whether a dog is an animal is answered alike with a memory of one answer and without one, where the classes
are declared before anything is asked. -/
theorem memory_transparent_early :
    Proper (.new 1) atoms early ∧ Undisturbed (.new 1) early ∧ Undisturbed (.new 0) early ∧
      answerAll (.new 1) early = answerAll (.new 0) early :=
  ⟨early_proper, early_undisturbed 1, early_undisturbed 0,
    memory_transparent early_proper (early_undisturbed 1) (early_undisturbed 0)⟩

/-! ### The answer that stays -/

/-- The memory of one answer, that a dog is no animal. -/
def heard : Memory := Memory.remember { capacity := 1 } ((tagged "Dog").key, (tagged "Animal").key) false

theorem heard_eq : heard.capacity = 1 ∧
    heard.answers[((tagged "Dog").key, (tagged "Animal").key)]? = some (false, 0) := by
  have hsize : (Std.HashMap.insert (∅ : Std.HashMap (Text × Text) (Bool × Nat))
      ((tagged "Dog").key, (tagged "Animal").key) (false, 0)).size ≤ 1 := Std.HashMap.size_insert_le
  simp [heard, Memory.remember, Memory.use, hsize]

theorem tagged_key_ne : (tagged "Dog").key ≠ (tagged "Animal").key := by decide

theorem run_asking_unheard :
    asking.serve.run (keeping pets {} { capacity := 1 }) = (.verdict false, keeping pets {} heard) := by
  obtain ⟨n, hn⟩ := exists_subtypeStep (tagged "Dog") (tagged "Animal")
  rw [asking, serve, StateT.run_bind, hn (run_subtypeStep_miss tagged_key_ne Std.HashMap.getElem?_empty rfl) rfl rfl]
  rfl

theorem answerAll_late_one : answerAll (.new 1) late =
    [.type (tagged "Animal"), .type (tagged "Dog"), .verdict false, .declared (.ok ()), .declared (.ok ()),
      .verdict false] := by
  show answerAll (keeping atoms {} { capacity := 1 }) late = _
  obtain ⟨n, hn⟩ := exists_subtypeStep (tagged "Dog") (tagged "Animal")
  have hstale : ((TypeStore.subtype (tagged "Dog") (tagged "Animal") : InUniverse Bool).run
      (keeping pets petClasses heard)).1 = false := by
    rw [hn (run_subtypeStep_hit _ tagged_key_ne (by simp [keeping, heard_eq.1]) heard_eq.2) rfl rfl]
  rw [late, declaring]
  simp only [List.cons_append, List.nil_append, answerAll_cons, serve_tagging_animal, serve_tagging_dog,
    run_asking_unheard, serve_declare_animal, serve_declare_dog]
  rw [show (asking.serve.run (keeping pets petClasses heard)).1 = .verdict false from congrArg _ hstale]
  rfl

theorem answerAll_late_zero : answerAll (.new 0) late =
    [.type (tagged "Animal"), .type (tagged "Dog"), .verdict false, .declared (.ok ()), .declared (.ok ()),
      .verdict true] := by
  show answerAll (keeping atoms {} { capacity := 0 }) late = _
  have hbefore : asking.serve.run (keeping pets {} { capacity := 0 }) =
      (.verdict false, keeping pets {} { capacity := 0 }) := by
    with_unfolding_all rfl
  have hafter : (asking.serve.run (keeping pets petClasses { capacity := 0 })).1 = .verdict true := by
    with_unfolding_all rfl
  rw [late, declaring]
  simp only [List.cons_append, List.nil_append, answerAll_cons, serve_tagging_animal, serve_tagging_dog,
    hbefore, serve_declare_animal, serve_declare_dog, hafter]
  rfl

theorem late_proper : Proper (.new 1) atoms late := by
  show Proper (keeping atoms {} { capacity := 1 }) atoms late
  refine ⟨by simp [types, tagging, atoms], by decide, ?_⟩
  rw [serve_tagging_animal]
  refine ⟨by simp [types, tagging, atoms], by decide, ?_⟩
  rw [serve_tagging_dog]
  refine ⟨by simp [types, asking, Reply.types], by simp [names, asking], ?_⟩
  rw [run_asking_unheard]
  refine ⟨by simp [types], by simp [names], ?_⟩
  rw [serve_declare_animal]
  refine ⟨by simp [types], by simp [names], ?_⟩
  rw [serve_declare_dog]
  exact ⟨by simp [types, asking, Reply.types], by simp [names, asking], trivial⟩

/-- A dog stays no animal for a universe that remembers one answer. -/
theorem late_noticed :
    Proper (.new 1) atoms late ∧ answerAll (.new 1) late ≠ answerAll (.new 0) late := by
  refine ⟨late_proper, ?_⟩
  rw [answerAll_late_one, answerAll_late_zero]
  simp

end Universe
end FlowTyping
