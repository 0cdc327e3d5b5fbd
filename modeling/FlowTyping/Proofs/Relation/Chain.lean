import FlowTyping.Proofs.Relation.Exclusion
import FlowTyping.Proofs.Relation.Transitive

/-!
# Chains of subtypes in a universe

Transitivity is a property of the relation. A universe gives the answers of the relation as long as what it
remembers is right, so there chains of data types close, too. An answer that a declaration made wrong breaks
them: a chain may lead from a type to one that it is remembered not to be below.

* **`Universe.data_below_trans`** — transitivity on data, of the relation over any declared classes and of the
  answers of a universe.
* **`Universe.stale_chain`** — an answer that stays breaks a chain.
-/

namespace FlowTyping

open Ty Hierarchy

namespace Universe

variable {u : Universe} {a b c : Ty} {memory : Memory} {classes : Hierarchy} {ts : List Ty}

theorem History.below_trans (hu : u.History) (ha : u.Keeps a) (hb : u.Keeps b) (hc : u.Keeps c)
    (hda : Data a) (hdb : Data b) (hdc : Data c) (hab : u.Below a b) (hbc : u.Below b c) : u.Below a c := by
  obtain ⟨hsound, hproper⟩ := hu.sound
  rw [hsound.below_iff ha hb] at hab
  rw [hsound.below_iff hb hc] at hbc
  rw [hsound.below_iff ha hc]
  exact subtype_trans hproper.declared hsound.distinct ha hb hc hda hdb hdc hab hbc

/-- **Chains of data types close**: in the relation, over every hierarchy of declared classes and for types of
one store, and in the answers of every universe that comes of a new one by calls with words for names, by
declarations of classes that leave what is remembered right, and by passes over bodies. -/
theorem data_below_trans (hda : Data a) (hdb : Data b) (hdc : Data c) :
    (∀ (h : Hierarchy) (K : Ty → Prop), Declared h.classes → Distinct K → K a → K b → K c →
      h.subtype a b = true → h.subtype b c = true → h.subtype a c = true) ∧
    ∀ u : Universe, u.History → u.Keeps a → u.Keeps b → u.Keeps c →
      u.Below a b → u.Below b c → u.Below a c :=
  ⟨fun _ _ hh hK ha hb hc => subtype_trans hh hK ha hb hc hda hdb hdc,
    fun _ hu ha hb hc => hu.below_trans ha hb hc hda hdb hdc⟩

/-! ## A derived class -/

/-- A class and one that derives from it. -/
def lineage : Hierarchy := { classes := [⟨"b", ["a"], none⟩, ⟨"a", [], none⟩] }

/-- A shape with one property. -/
def having (tag name : String) (t : Ty) : Ty := .object tag [{ name, type := t }]

theorem having_data (tag name : String) {t : Ty} (ht : Data t) : Data (having tag name t) :=
  .intro (by simp [having, OwnData]) (by simpa [having, parts] using ht)

/-- A shape that the derived class may have, one that the class itself may have, and a plain one. -/
def derived : Ty := having "b" "x" (.literal (.text [115]))

def general : Ty := having "a" "x" .string

def plain : Ty := having "" "x" (having "" "length" .number)

def ancestry : List Ty :=
  atoms ++ [.literal (.text [115])] ++ [derived] ++ [general] ++ [having "" "length" .number] ++ [plain]

/-- Making a shape with one property is part of a history. -/
theorem history_having (tag name : String) {t : Ty} (hu : (keeping ts classes memory).History)
    (hts : (ts.map Ty.key).Nodup) (hnew : (having tag name t).key ∉ ts.map Ty.key) (ht : t ∈ ts)
    (htag : Text.IsWord tag) (hname : Text.IsWord name) :
    (keeping (ts ++ [having tag name t]) classes memory).History := by
  have hcall : ((Call.object tag [{ name, type := t }]).serve.run (keeping ts classes memory)).2 =
      keeping (ts ++ [having tag name t]) classes memory := by
    show ((keeping ts classes memory).intern (having tag name t)).2 = _
    rw [intern_keeping hts hnew]
  rw [← hcall]
  refine .call hu _ (fun s hs => ?_) (by simpa [Call.names] using ⟨htag, hname⟩)
  obtain rfl : s = t := by simpa [Call.types] using hs
  exact (lookup?_keeping hts).2 ⟨ht, rfl⟩

theorem ancestry_history : (keeping ancestry lineage { capacity := 0 }).History := by
  have hnothing {h : Hierarchy} : Memory.Right h { capacity := 0 } := Memory.right_of_empty 0
  have hgeneral : (keeping atoms { classes := [⟨"a", [], none⟩] } { capacity := 0 }).History :=
    .bare (.new 0) "a" [] (by decide) rfl hnothing
  have hclasses : (keeping atoms lineage { capacity := 0 }).History :=
    .bare hgeneral "b" ["a"] (by decide) rfl hnothing
  have hliteral : (keeping (atoms ++ [.literal (.text [115])]) lineage { capacity := 0 }).History := by
    have hcall : ((Call.literal (.text [115])).serve.run (keeping atoms lineage { capacity := 0 })).2 =
        keeping (atoms ++ [.literal (.text [115])]) lineage { capacity := 0 } := by
      show ((keeping atoms lineage { capacity := 0 }).intern (.literal (.text [115]))).2 = _
      rw [intern_keeping (by decide) (by decide)]
    rw [← hcall]
    exact .call hclasses _ (by simp [Call.types]) (by simp [Call.names])
  have hderived := history_having "b" "x" hliteral (by decide) (by decide)
    (List.mem_append_right _ (List.mem_singleton_self _)) (by decide) (by decide)
  have hgeneral := history_having "a" "x" (t := .string) hderived (by decide) (by decide)
    (by simp [atoms]) (by decide) (by decide)
  have hlength := history_having "" "length" (t := .number) hgeneral (by decide) (by decide)
    (by simp [atoms]) (by decide) (by decide)
  exact history_having "" "x" hlength (by decide) (by decide) (by simp) (by decide) (by decide)

/-- A text in a shape of the derived class is of the class, where it may be any string, and so it has a length
in a plain shape. -/
theorem derived_below_plain : Data derived ∧ Data general ∧ Data plain ∧
    lineage.subtype derived plain = true ∧
      (keeping ancestry lineage { capacity := 0 }).History ∧
      (keeping ancestry lineage { capacity := 0 }).Below derived plain := by
  have hda : Data derived := having_data "b" "x" (.literal _)
  have hdb : Data general := having_data "a" "x" (.atom (by simp [atoms]))
  have hdc : Data plain := having_data "" "x" (having_data "" "length" (.atom (by simp [atoms])))
  have hkept (t : Ty) (ht : t ∈ ancestry) : (keeping ancestry lineage { capacity := 0 }).Keeps t :=
    (lookup?_keeping (by decide)).2 ⟨ht, rfl⟩
  have ha := hkept derived (by simp [ancestry])
  have hb := hkept general (by simp [ancestry])
  have hc := hkept plain (by simp [ancestry])
  have hsound : (keeping ancestry lineage { capacity := 0 }).Sound lineage := ancestry_history.sound.1
  have hab : lineage.subtype derived general = true := by decide +kernel
  have hbc : lineage.subtype general plain = true := by decide +kernel
  obtain ⟨hrelation, hanswers⟩ := data_below_trans hda hdb hdc
  exact ⟨hda, hdb, hdc,
    hrelation lineage _ (by simp [Declared, lineage]) hsound.distinct ha hb hc hab hbc, ancestry_history,
    hanswers _ ancestry_history ha hb hc ((hsound.below_iff ha hb).2 hab) ((hsound.below_iff hb hc).2 hbc)⟩

/-! ## A link that is remembered to be missing -/

/-- Asks whether a nameless dog is an animal, declares both, and asks again by way of the dogs. -/
def detour : List Request :=
  [tagging "Animal", tagging "Dog", .object "Dog" [{ name := "name", type := .never }],
    .subtype nameless (tagged "Animal")] ++ declaring ++
    [.subtype nameless (tagged "Dog"), .subtype (tagged "Dog") (tagged "Animal"),
      .subtype nameless (tagged "Animal")]

def detourPets : List Ty := pets ++ [nameless]

/-- A memory with room for one answer more keeps all that it has. -/
theorem remember_of_room {mem : Memory} {question : Text × Text} {answer : Bool}
    (hroom : mem.answers.size < mem.capacity) :
    (mem.remember question answer).answers = mem.answers.insert question (answer, mem.clock) ∧
      (mem.remember question answer).capacity = mem.capacity := by
  have hsize : (mem.answers.insert question (answer, mem.clock)).size ≤ mem.capacity :=
    Std.HashMap.size_insert_le.trans hroom
  rw [Memory.remember, if_neg (by omega)]
  simp [Memory.use, hsize]

/-- What a memory of ten answers has after these were found, one after the other. -/
def recalling (found : List ((Text × Text) × Bool)) : Memory :=
  found.foldl (fun mem (question, answer) => mem.remember question answer) { capacity := 10 }

theorem recalling_append (found : List ((Text × Text) × Bool)) (question : Text × Text) (answer : Bool) :
    recalling (found ++ [(question, answer)]) = (recalling found).remember question answer := by
  simp [recalling]

/-- Up to ten answers are all kept. -/
theorem recalling_keeps {found : List ((Text × Text) × Bool)} (hroom : found.length ≤ 10) :
    (recalling found).capacity = 10 ∧ (recalling found).answers.size ≤ found.length ∧
      (∀ question ∉ found.map Prod.fst, (recalling found).answers[question]? = none) ∧
        ((found.map Prod.fst).Nodup → ∀ question answer, (question, answer) ∈ found →
          ∃ time, (recalling found).answers[question]? = some (answer, time)) := by
  induction found using List.reverseRecOn with
  | nil => simp [recalling]
  | append_singleton found last ih =>
    obtain ⟨last, verdict⟩ := last
    rw [List.length_append, List.length_singleton] at hroom
    obtain ⟨hcapacity, hsize, hnone, hsome⟩ := ih (by omega)
    obtain ⟨hanswers, hsame⟩ := @remember_of_room (recalling found) last verdict (by omega)
    rw [recalling_append, hsame, hanswers]
    refine ⟨hcapacity, ?_, fun question hq => ?_, fun hnodup question answer hmem => ?_⟩
    · rw [List.length_append, List.length_singleton]
      exact Std.HashMap.size_insert_le.trans (by omega)
    · simp only [List.map_append, List.map_cons, List.map_nil, List.mem_append, List.mem_singleton,
        not_or] at hq
      rw [Std.HashMap.getElem?_insert, if_neg (by simpa using Ne.symm hq.2), hnone question hq.1]
    · rw [List.map_append, List.nodup_append] at hnodup
      obtain ⟨hnodup, -, hfresh⟩ := hnodup
      rcases List.mem_append.1 hmem with hmem | hmem
      · have hne : question ≠ last := hfresh question (List.mem_map_of_mem hmem) last (by simp)
        obtain ⟨time, htime⟩ := hsome hnodup question answer hmem
        exact ⟨time, by rw [Std.HashMap.getElem?_insert, if_neg (by simpa using hne.symm), htime]⟩
      · obtain ⟨rfl, rfl⟩ := Prod.mk.inj (List.mem_singleton.1 hmem)
        exact ⟨_, Std.HashMap.getElem?_insert_self⟩

/-- A question about two types takes two steps, as long as one needs no more. -/
theorem exists_subtypeStep_succ (a b : Ty) : ∃ n, ∀ {u w : Universe} {answer : Bool},
    (Rules.subtypeStep (Rules.upTo (n + 1)) a b : InUniverse Bool).run u = (answer, w) → u.spent = false →
      w.spent = false → (TypeStore.subtype a b : InUniverse Bool).run u = (answer, w) := by
  obtain ⟨n, hn⟩ : ∃ n, stepBound [a, b] = n + 2 := Nat.exists_eq_add_of_le' (by
    rw [stepBound]
    nlinarith)
  refine ⟨n, fun hx hu hw => ?_⟩
  rw [TypeStore.subtype, hn]
  exact run_bounded_of_run hx hu hw

/-- What is found on the detour: that the nameless dog is no animal, which is true when it is asked, and what its
name and it itself are below. -/
def missing : (Text × Text) × Bool := ((nameless.key, (tagged "Animal").key), false)

def nameBelow : (Text × Text) × Bool := ((Ty.never.key, Ty.string.key), true)

def dogBelow : (Text × Text) × Bool := ((nameless.key, (tagged "Dog").key), true)

def animalAbove : (Text × Text) × Bool := (((tagged "Dog").key, (tagged "Animal").key), true)

theorem serve_detour_nameless : (Request.object "Dog" [{ name := "name", type := .never }]).serve.run
    (keeping pets classes memory) = (.type nameless, keeping detourPets classes memory) :=
  serve_shape (by decide) (by decide)

theorem serve_missing : (Request.subtype nameless (tagged "Animal")).serve.run
    (keeping detourPets {} (recalling [])) = (.verdict false, keeping detourPets {} (recalling [missing])) := by
  obtain ⟨n, hn⟩ := exists_subtypeStep nameless (tagged "Animal")
  rw [Request.serve, StateT.run_bind,
    hn (run_subtypeStep_miss nameless_key_ne Std.HashMap.getElem?_empty rfl) rfl rfl]
  rfl

theorem serve_dogBelow : (Request.subtype nameless (tagged "Dog")).serve.run
    (keeping detourPets petClasses (recalling [missing])) =
      (.verdict true, keeping detourPets petClasses (recalling [missing, nameBelow, dogBelow])) := by
  obtain ⟨n, hn⟩ := exists_subtypeStep_succ nameless (tagged "Dog")
  -- the properties of a nameless dog are those of a dog
  have hproperty := run_subtypeStep_miss (a := .never) (b := .string)
    (u := keeping detourPets petClasses (recalling [missing])) (r := Rules.upTo n) (by decide)
    ((recalling_keeps (by decide)).2.2.1 _ (by decide)) rfl
  have hrule : (Rules.subtypeRule (Rules.upTo (n + 1)) nameless (tagged "Dog") : InUniverse Bool).run
      (keeping detourPets petClasses (recalling [missing])) =
        ((do if ← Rules.subtypeStep (Rules.upTo n) .never .string then pure true else pure false) :
          InUniverse Bool).run (keeping detourPets petClasses (recalling [missing])) := rfl
  have hdog := run_subtypeStep_miss (by decide) ((recalling_keeps (by decide)).2.2.1 _ (by decide))
    (hrule.trans (run_bind_of_run hproperty))
  rw [Request.serve, StateT.run_bind, hn hdog rfl rfl]
  rfl

theorem serve_animalAbove : (Request.subtype (tagged "Dog") (tagged "Animal")).serve.run
    (keeping detourPets petClasses (recalling [missing, nameBelow, dogBelow])) =
      (.verdict true, keeping detourPets petClasses (recalling [missing, nameBelow, dogBelow, animalAbove])) := by
  obtain ⟨n, hn⟩ := exists_subtypeStep_succ (tagged "Dog") (tagged "Animal")
  rw [Request.serve, StateT.run_bind, hn (run_subtypeStep_miss tagged_key_ne
    ((recalling_keeps (by decide)).2.2.1 _ (by decide)) rfl) rfl rfl]
  rfl

theorem serve_missing_again : ((Request.subtype nameless (tagged "Animal")).serve.run
    (keeping detourPets petClasses (recalling [missing, nameBelow, dogBelow, animalAbove]))).1 = .verdict false := by
  obtain ⟨n, hn⟩ := exists_subtypeStep nameless (tagged "Animal")
  obtain ⟨hcapacity, -, -, hkept⟩ :=
    @recalling_keeps [missing, nameBelow, dogBelow, animalAbove] (by decide)
  obtain ⟨time, htime⟩ := hkept (by decide) missing.1 missing.2 (by simp)
  rw [Request.serve, StateT.run_bind,
    hn (run_subtypeStep_hit _ nameless_key_ne (by simp [keeping, hcapacity]) htime) rfl rfl]
  rfl

theorem detour_proper : Proper (.new 10) atoms detour := by
  show Proper (keeping atoms {} (recalling [])) atoms detour
  refine ⟨by simp [Request.types, tagging, atoms], by decide, ?_⟩
  rw [serve_tagging_animal]
  refine ⟨by simp [Request.types, tagging, atoms], by decide, ?_⟩
  rw [serve_tagging_dog]
  refine ⟨by simp [Request.types, atoms], by decide, ?_⟩
  rw [serve_detour_nameless]
  refine ⟨by simp [Request.types, Reply.types], by simp [Request.names], ?_⟩
  rw [serve_missing]
  refine ⟨by simp [Request.types], by simp [Request.names], ?_⟩
  rw [serve_declare_animal]
  refine ⟨by simp [Request.types], by simp [Request.names], ?_⟩
  rw [serve_declare_dog]
  refine ⟨by simp [Request.types, Reply.types], by simp [Request.names], ?_⟩
  rw [serve_dogBelow]
  refine ⟨by simp [Request.types, Reply.types], by simp [Request.names], ?_⟩
  rw [serve_animalAbove]
  exact ⟨by simp [Request.types, Reply.types], by simp [Request.names], trivial⟩

/-- **A nameless dog is a dog and a dog is an animal, but a nameless dog is remembered to be none**: the question was
asked before the classes were declared. -/
theorem stale_chain : Data nameless ∧ Data (tagged "Dog") ∧ Data (tagged "Animal") ∧
    Proper (.new 10) atoms detour ∧ answerAll (.new 10) detour =
      [.type (tagged "Animal"), .type (tagged "Dog"), .type nameless, .verdict false, .declared (.ok ()),
        .declared (.ok ()), .verdict true, .verdict true, .verdict false] := by
  have hstring (tag : String) : Data (tagged tag) := having_data tag "name" (.atom (by simp [atoms]))
  refine ⟨having_data "Dog" "name" (.atom (by simp [atoms])), hstring _, hstring _, detour_proper, ?_⟩
  show answerAll (keeping atoms {} (recalling [])) detour = _
  rw [detour, declaring]
  simp only [List.cons_append, List.nil_append, answerAll_cons, serve_tagging_animal, serve_tagging_dog,
    serve_detour_nameless, serve_missing, serve_declare_animal, serve_declare_dog, serve_dogBelow,
    serve_animalAbove, serve_missing_again]
  rfl

end Universe
end FlowTyping
