import FlowTyping.Relation.Answers
import Std.Data.HashMap
import Std.Data.TreeMap

/-!
# Universes

A universe is the store that programs run in: a table of the types met so far, the class hierarchy,
and a bounded memory of subtype answers.

* The table keeps the first tree that comes with a key, so it decides how functions that differ in
  their parameter names alone are printed.
* The memory forgets the answer that was not used for the longest time. Declaring a class with a
  shape clears it; a bare declaration does not.
-/

namespace FlowTyping

/-- A bounded memory of subtype answers, each with the time of its last use. -/
structure Memory where
  /-- Number of answers kept; `0` turns the memory off. -/
  capacity : Nat
  answers : Std.HashMap (Text × Text) (Bool × Nat) := ∅
  /-- The questions by the time of their last use. -/
  uses : Std.TreeMap Nat (Text × Text) := ∅
  clock : Nat := 0

namespace Memory

/-- Notes that an answer is used now. -/
def use (mem : Memory) (question : Text × Text) (answer : Bool) : Memory :=
  let uses :=
    match mem.answers[question]? with
    | some (_, time) => mem.uses.erase time
    | none => mem.uses
  { mem with
    answers := mem.answers.insert question (answer, mem.clock)
    uses := uses.insert mem.clock question
    clock := mem.clock + 1 }

/-- The remembered answer, which counts as a use. -/
def answered? (mem : Memory) (question : Text × Text) : Option Bool × Memory :=
  match mem.answers[question]? with
  | none => (none, mem)
  | some (answer, _) => (some answer, mem.use question answer)

/-- Forgets the answer that was not used for the longest time. -/
def forgetOldest (mem : Memory) : Memory :=
  match mem.uses.minEntry? with
  | some (time, question) =>
    { mem with answers := mem.answers.erase question, uses := mem.uses.erase time }
  | none => mem

/-- Remembers an answer and, over capacity, forgets the oldest. -/
def remember (mem : Memory) (question : Text × Text) (answer : Bool) : Memory :=
  if mem.capacity = 0 then mem
  else
    let mem := mem.use question answer
    if mem.answers.size ≤ mem.capacity then mem else mem.forgetOldest

/-- Forgets everything. -/
def clear (mem : Memory) : Memory := { capacity := mem.capacity }

end Memory

/-- The number of subtype answers that a universe remembers unless told otherwise. -/
def defaultMemory : Nat := 4096

/-- A table of types, a class hierarchy and a memory. -/
structure Universe where
  table : Std.HashMap Text Ty
  classes : Hierarchy
  memory : Memory
  /-- Whether the question at hand has run out of steps. -/
  spent : Bool := false

namespace Universe

/-- A universe that holds the atoms and no classes. -/
def new (memory : Nat) : Universe :=
  { table := Ty.atoms.foldl (fun table t => table.insert t.key t) ∅
    classes := {}
    memory := { capacity := memory } }

/-- Number of types kept. -/
def size (u : Universe) : Nat := u.table.size

/-- The type kept under a key. -/
def lookup? (u : Universe) (key : Text) : Option Ty := u.table[key]?

/-- Keeps a type under its key unless one is kept there. -/
def intern (u : Universe) (t : Ty) : Ty × Universe :=
  let key := t.key
  match u.table[key]? with
  | some kept => (kept, u)
  | none => (t, { u with table := u.table.insert key t })

end Universe

/-- Computations in a universe. -/
abbrev InUniverse := StateM Universe

instance : TypeStore InUniverse where
  intern t := modifyGet fun u => u.intern t
  lookup? key := do return (← get).lookup? key
  hierarchy := do return (← get).classes
  answered? question := modifyGet fun u =>
    if u.memory.capacity = 0 then (none, u)
    else
      let (answer, memory) := u.memory.answered? question
      (answer, { u with memory })
  remember question answer := modify fun u =>
    { u with memory := u.memory.remember question answer }
  giveUp := modify fun u => { u with spent := true }
  bounded answer question := fun u =>
    let (a, v) := question.run { u with spent := false }
    if v.spent then (answer, u) else (a, { v with spent := u.spent })

namespace InUniverse

/-- Declares a class without a shape. -/
def declareBare (name : String) (parents : List String) : InUniverse (Except ClassError Unit) := do
  let u ← get
  match u.classes.declare { name, parents, shape := none } with
  | .ok classes => set { u with classes }; return .ok ()
  | .error e => return .error e

/-- The properties that a class takes over from its parents, in order; the first undeclared parent is
an error. -/
def inherited (h : Hierarchy) (name : String) :
    List String → Except ClassError (List (Property Ty))
  | [] => .ok []
  | p :: ps =>
    match h.find? p with
    | none => .error (.undeclaredParent name p)
    | some parent =>
      let own := match parent.shape with
        | some (.object _ props) => props
        | _ => []
      (inherited h name ps).map (own ++ ·)

/-- Declares a class with the shape of its values: the parents' properties and its own, under its
name as tag. -/
def declareClass (name : String) (parents : List String) (props : List (Property Ty)) :
    InUniverse (Except ClassError Ty) := do
  match inherited (← get).classes name parents with
  | .error e => return .error e
  | .ok above =>
    let shape ← TypeStore.object name (above ++ props)
    let u ← get
    match u.classes.declare { name, parents, shape := some shape } with
    | .error e => return .error e
    | .ok classes =>
      set { u with classes, memory := u.memory.clear }
      return .ok shape

end InUniverse
end FlowTyping
