import FlowTyping.Proofs.Flow.Layout
import Mathlib.Logic.Function.Iterate

/-!
# Conditions as chains of tests

A condition is evaluated from left to right, and no further than needed. Its layout has one branch node
for each of its tests. Whatever the tests answer, a walk over these nodes evaluates what the condition
evaluates, and leaves them through a slot for the value that the condition has.

The graph is still under construction, so slots that lead nowhere are part of it, and the walk ends in
one of them. The crux is that a condition is laid out after others: the slots by which a walk leaves the
left side are the current position of the right side.

* **`Cond.shortCircuit`** — the value of a condition, and the tests that were evaluated for it.
* **`Builder.advance`**, **`Builder.Reaches`** — walks over nodes under construction, slot by slot.
* **`Builder.Continues`** — what laying out more does to the nodes before: of their slots, only those of
  the current position are linked, to the next node.
* **`Cond.lower_lowered`** — the invariant, by induction on the condition, at any current position.
* **`Cond.lower_shortCircuit`** — the walk over the nodes of a condition.
-/

namespace FlowTyping

/-! ## Evaluating from left to right -/

namespace Cond

/-- The tests from left to right. -/
def tests : Cond → List (Option Guard)
  | .test g => [g]
  | .not c => c.tests
  | .and left right | .or left right => left.tests ++ right.tests

/-- Evaluates a condition from left to right, as far as needed. Its tests are numbered in this order from
`first` on. Gives the value and the numbers of the tests that were evaluated. -/
def shortCircuit (truth : Nat → Bool) : Cond → (first : Nat) → Bool × List Nat
  | .test _, first => (truth first, [first])
  | .not c, first =>
    let (value, evaluated) := c.shortCircuit truth first
    (!value, evaluated)
  | .and left right, first =>
    match left.shortCircuit truth first with
    | (true, evaluated) =>
      let (value, more) := right.shortCircuit truth (first + left.tests.length)
      (value, evaluated ++ more)
    | (false, evaluated) => (false, evaluated)
  | .or left right, first =>
    match left.shortCircuit truth first with
    | (true, evaluated) => (true, evaluated)
    | (false, evaluated) =>
      let (value, more) := right.shortCircuit truth (first + left.tests.length)
      (value, evaluated ++ more)

end Cond

namespace Builder

/-! ## Walking over nodes under construction -/

/-- What a node does. -/
def draft? (nodes : Array OpenNode) (id : Nat) : Option Draft := nodes[id]?.map (·.draft)

/-- What a slot was linked to. -/
def links? (nodes : Array OpenNode) (e : Exit) : Option (List Nat) :=
  nodes[e.node]?.bind (·.links[e.slot]?)

/-- The node that a slot leads to. -/
def target? (nodes : Array OpenNode) (e : Exit) : Option Nat := (links? nodes e).bind List.head?

/-- A place on a walk: before a node, or behind it in one of its slots. -/
inductive Spot where
  | node (id : Nat)
  | slot (e : Exit)
  deriving DecidableEq, Repr

/-- Where a walk is, and which tests it evaluated. -/
structure Tour where
  spot : Spot
  tested : List Nat
  deriving DecidableEq, Repr

/-- Goes on from a node to a slot or from a slot to a node. A branch node evaluates a test and takes the
first slot if it holds; other nodes have one slot only. A slot that leads nowhere is the end. -/
def advance (nodes : Array OpenNode) (number : Nat → Nat) (truth : Nat → Bool) (w : Tour) : Tour :=
  match w.spot with
  | .slot e =>
    match target? nodes e with
    | some id => { w with spot := .node id }
    | none => w
  | .node id =>
    match draft? nodes id with
    | some (.op (.branch _)) =>
      let test := number id
      { spot := .slot { node := id, slot := if truth test then 0 else 1 }
        tested := w.tested ++ [test] }
    | some _ => { w with spot := .slot { node := id, slot := 0 } }
    | none => w

/-- A walk comes from one place to another. -/
def Reaches (nodes : Array OpenNode) (number : Nat → Nat) (truth : Nat → Bool) (w w' : Tour) : Prop :=
  ∃ steps, (advance nodes number truth)^[steps] w = w'

/-- The branch nodes from a number on. -/
def branches (nodes : Array OpenNode) (first : Nat) : List Nat :=
  (List.range' first (nodes.size - first)).filter fun id =>
    match draft? nodes id with
    | some (.op (.branch _)) => true
    | _ => false

/-- Where a walk comes to what is laid out next: in an open slot of the current position, or before the
next node. The latter also makes sense if the position cannot be reached. -/
def IsNext (b : Builder) : Spot → Prop
  | .slot e => e ∈ b.pending ∧ IsOpen b.nodes e
  | .node id => id = b.nodes.size

section Reaches

variable {nodes : Array OpenNode} {number : Nat → Nat} {truth : Nat → Bool} {w w' w'' : Tour}

theorem Reaches.refl (w : Tour) : Reaches nodes number truth w w := ⟨0, rfl⟩

theorem Reaches.trans (hr : Reaches nodes number truth w w') (hr' : Reaches nodes number truth w' w'') :
    Reaches nodes number truth w w'' := by
  obtain ⟨k, rfl⟩ := hr
  obtain ⟨k', rfl⟩ := hr'
  exact ⟨k' + k, Function.iterate_add_apply _ _ _ _⟩

/-- A walk with a first step. -/
theorem Reaches.head (hr : Reaches nodes number truth (advance nodes number truth w) w') :
    Reaches nodes number truth w w' :=
  .trans ⟨1, rfl⟩ hr

theorem advance_slot {e : Exit} {id : Nat} {tested : List Nat} (ht : target? nodes e = some id) :
    advance nodes number truth { spot := .slot e, tested } = { spot := .node id, tested } := by
  simp [advance, ht]

theorem advance_branch {g : Option Guard} {id : Nat} {tested : List Nat}
    (hd : draft? nodes id = some (.op (.branch g))) :
    advance nodes number truth { spot := .node id, tested } =
      { spot := .slot { node := id, slot := if truth (number id) then 0 else 1 }
        tested := tested ++ [number id] } := by
  simp [advance, hd]

theorem advance_merge {id : Nat} {tested : List Nat} (hd : draft? nodes id = some (.op .merge)) :
    advance nodes number truth { spot := .node id, tested } =
      { spot := .slot { node := id, slot := 0 }, tested } := by
  simp [advance, hd]

end Reaches

/-! ## Slots of nodes that are linked and added -/

section Links

variable {nodes : Array OpenNode} {target : Nat}

theorem isOpen_iff {e : Exit} : IsOpen nodes e ↔ links? nodes e = some [] := by
  simp [IsOpen, links?, Option.bind_eq_some_iff]

theorem target?_of_isOpen {e : Exit} (ho : IsOpen nodes e) : target? nodes e = none := by
  simp [target?, isOpen_iff.1 ho]

theorem isOpen_lt {e : Exit} (ho : IsOpen nodes e) : e.node < nodes.size := by
  obtain ⟨n, hn, -⟩ := ho
  exact (Array.getElem?_eq_some_iff.1 hn).1

theorem links?_linkNode (e d : Exit) :
    links? (linkNode target nodes e) d =
      (links? nodes d).map fun link => if d = e then target :: link else link := by
  refine Option.ext fun link => ?_
  have hlinks := @links_linkNode nodes target e d link
  simpa [links?, Option.bind_eq_some_iff, Option.map_bind] using hlinks

theorem links?_foldl_of_notMem {es : List Exit} {d : Exit} (hd : d ∉ es) :
    links? (es.foldl (linkNode target) nodes) d = links? nodes d := by
  induction es generalizing nodes with
  | nil => rfl
  | cons e es ih =>
    obtain ⟨hne, hd⟩ := not_or.1 (List.mem_cons.not.1 hd)
    rw [List.foldl_cons, ih hd, links?_linkNode]
    simp [hne]

theorem target?_foldl {es : List Exit} {d : Exit} (hd : d ∈ es) (hs : (links? nodes d).isSome) :
    target? (es.foldl (linkNode target) nodes) d = some target := by
  induction es generalizing nodes with
  | nil => simp at hd
  | cons e es ih =>
    obtain ⟨link, hlink⟩ := Option.isSome_iff_exists.1 hs
    have hlinks := @links?_linkNode nodes target e d
    rw [hlink] at hlinks
    by_cases hmem : d ∈ es
    · exact ih hmem (by simp [hlinks])
    · obtain rfl : d = e := (List.mem_cons.1 hd).resolve_right hmem
      rw [List.foldl_cons, target?, links?_foldl_of_notMem hmem, hlinks]
      simp

theorem draft?_linkNode (e : Exit) (id : Nat) : draft? (linkNode target nodes e) id = draft? nodes id := by
  rw [draft?, draft?, getElem?_linkNode]
  split <;> simp [Function.comp_def]

theorem draft?_foldl (es : List Exit) (id : Nat) :
    draft? (es.foldl (linkNode target) nodes) id = draft? nodes id := by
  induction es generalizing nodes with
  | nil => rfl
  | cons e es ih => rw [List.foldl_cons, ih, draft?_linkNode]

end Links

/-! ## Laying out more -/

/-- What laying out more does to the nodes before: they keep what they do, and of their slots only those
of the current position are linked, to the next node. -/
structure Continues (b : Builder) (nodes : Array OpenNode) : Prop where
  size_le : b.nodes.size ≤ nodes.size
  draft : ∀ id < b.nodes.size, draft? nodes id = draft? b.nodes id
  other : ∀ e : Exit, e.node < b.nodes.size → e ∉ b.pending → links? nodes e = links? b.nodes e
  next : ∀ e ∈ b.pending, IsOpen b.nodes e → target? nodes e = some b.nodes.size

section Continues

variable {b : Builder} {nodes : Array OpenNode} {number : Nat → Nat} {truth : Nat → Bool}

theorem place_continues (b : Builder) (draft : Draft) : Continues b (b.place draft).nodes := by
  have hlinks (e : Exit) (he : e.node < b.nodes.size) :
      links? (b.place draft).nodes e = links? (b.pending.foldl (linkNode b.nodes.size) b.nodes) e := by
    rw [links?, links?, place_eq, Array.getElem?_push, size_foldl_linkNode, if_neg (by omega)]
  refine ⟨by simp, fun id hid => ?_, fun e he hp => ?_, fun e he ho => ?_⟩
  · rw [draft?, place_eq, Array.getElem?_push, size_foldl_linkNode, if_neg (by omega), ← draft?,
      draft?_foldl]
  · rw [hlinks e he, links?_foldl_of_notMem hp]
  · rw [target?, hlinks e (isOpen_lt ho), ← target?]
    exact target?_foldl he (by simp [isOpen_iff.1 ho])

theorem draft?_place (b : Builder) (draft : Draft) :
    draft? (b.place draft).nodes b.nodes.size = some draft := by
  rw [draft?, getElem?_place]
  rfl

/-- The slots of a new node are open. -/
theorem isOpen_place {draft : Draft} {e : Exit} :
    b.nodes.size ≤ e.node ∧ IsOpen (b.place draft).nodes e ↔ e ∈ exits b.nodes.size draft.slots := by
  rw [mem_exits, IsOpen]
  constructor
  · rintro ⟨hle, n, hn, hslot⟩
    have hlt := (Array.getElem?_eq_some_iff.1 hn).1
    rw [size_place] at hlt
    obtain heq : e.node = b.nodes.size := by omega
    rw [heq, getElem?_place] at hn
    obtain rfl := Option.some.inj hn
    exact ⟨heq, by simpa using (List.getElem?_eq_some_iff.1 hslot).1⟩
  · rintro ⟨heq, hlt⟩
    exact ⟨Nat.le_of_eq heq.symm, _, by rw [heq, getElem?_place], by simp [hlt]⟩

/-- More and more is laid out, from slots of new nodes. -/
theorem Continues.after {b' : Builder} (hc' : Continues b' nodes) (hc : Continues b b'.nodes)
    (hp : ∀ e ∈ b'.pending, b.nodes.size ≤ e.node) : Continues b nodes := by
  have hlinks (e : Exit) (he : e.node < b.nodes.size) : links? nodes e = links? b'.nodes e :=
    hc'.other e (Nat.lt_of_lt_of_le he hc.size_le) fun hmem => by
      have := hp e hmem
      omega
  refine ⟨Nat.le_trans hc.size_le hc'.size_le, fun id hid => ?_, fun e he hmem => ?_, fun e he ho => ?_⟩
  · rw [hc'.draft id (Nat.lt_of_lt_of_le hid hc.size_le), hc.draft id hid]
  · rw [hlinks e he, hc.other e he hmem]
  · rw [target?, hlinks e (isOpen_lt ho), ← target?, hc.next e he ho]

/-- Of the open slots before, those stay open that are not at the current position. -/
theorem Continues.isOpen (hc : Continues b nodes) (hp : ∀ e ∈ b.pending, IsOpen b.nodes e) {e : Exit}
    (hlt : e.node < b.nodes.size) : IsOpen nodes e ↔ IsOpen b.nodes e ∧ e ∉ b.pending := by
  by_cases hmem : e ∈ b.pending
  · have hlinked := hc.next e hmem (hp e hmem)
    simp only [hmem, not_true_eq_false, and_false, iff_false]
    intro ho
    rw [target?_of_isOpen ho] at hlinked
    exact absurd hlinked (by simp)
  · simp [isOpen_iff, hc.other e hlt hmem, hmem]

/-- A walk comes to the next node. -/
theorem Continues.reaches_next (hc : Continues b nodes) {start : Spot} (hs : IsNext b start)
    (tested : List Nat) :
    Reaches nodes number truth { spot := start, tested } { spot := .node b.nodes.size, tested } := by
  cases start with
  | slot e =>
    refine .head ?_
    rw [advance_slot (hc.next e hs.1 hs.2)]
    exact .refl _
  | node id =>
    obtain rfl : id = b.nodes.size := hs
    exact .refl _

/-- A walk to a slot that leads nowhere goes the same way when more is laid out. -/
theorem Continues.reaches (hc : Continues b nodes) (hp : ∀ e ∈ b.pending, IsOpen b.nodes e) {w : Tour}
    {e : Exit} {tested : List Nat}
    (hr : Reaches b.nodes number truth w { spot := .slot e, tested }) :
    Reaches nodes number truth w { spot := .slot e, tested } := by
  obtain ⟨k, hk⟩ := hr
  induction k generalizing w with
  | zero => exact ⟨0, hk⟩
  | succ k ih =>
    rw [Function.iterate_succ_apply] at hk
    by_cases hend : advance b.nodes number truth w = w
    · exact ih (by rwa [hend] at hk)
    -- a step that goes on is made at a node that was there, or in a slot that was linked
    suffices hstep : advance nodes number truth w = advance b.nodes number truth w by
      exact .head (hstep ▸ ih hk)
    obtain ⟨spot, past⟩ := w
    cases spot with
    | node id =>
      have hlt : id < b.nodes.size := by
        by_contra hge
        exact hend (by simp [advance, draft?, hge])
      simp only [advance, hc.draft id hlt]
    | slot d =>
      have hlink : links? nodes d = links? b.nodes d := by
        refine hc.other d ?_ fun hmem => ?_
        · by_contra hge
          exact hend (by simp [advance, target?, links?, hge])
        · exact hend (by simp [advance, target?_of_isOpen (hp d hmem)])
      simp only [advance, target?, hlink]

/-- The branch nodes are those that were there and those that were added. -/
theorem Continues.branches_eq (hc : Continues b nodes) {first : Nat} (hf : first ≤ b.nodes.size) :
    branches nodes first = branches b.nodes first ++ branches nodes b.nodes.size := by
  have hsize := hc.size_le
  have hrange : List.range' first (nodes.size - first) =
      List.range' first (b.nodes.size - first) ++
        List.range' b.nodes.size (nodes.size - b.nodes.size) := by
    have happend := @List.range'_append_1 first (b.nodes.size - first) (nodes.size - b.nodes.size)
    rw [show first + (b.nodes.size - first) = b.nodes.size by omega,
      show b.nodes.size - first + (nodes.size - b.nodes.size) = nodes.size - first by omega] at happend
    exact happend.symm
  rw [branches, hrange, List.filter_append]
  congr 1
  refine List.filter_congr fun id hid => ?_
  have hlt : id < b.nodes.size := by
    have := (List.mem_range'_1.1 hid).2
    omega
  rw [hc.draft id hlt]

end Continues

end Builder

/-! ## The nodes of a condition -/

open Builder

namespace Cond

/-- What holds of the nodes of a condition, with the slots where it holds and those where it does not. -/
structure Lowered (c : Cond) (b : Builder) (yes no : List Exit) (b' : Builder) : Prop where
  continues : Continues b b'.nodes
  nodup : (yes ++ no).Nodup
  isOpen : ∀ e, e ∈ yes ++ no ↔ b.nodes.size ≤ e.node ∧ IsOpen b'.nodes e
  /-- There is a branch node for each test, from left to right. -/
  branches : (branches b'.nodes b.nodes.size).map (draft? b'.nodes) =
    c.tests.map fun g => some (.op (.branch g))
  /-- A walk over the nodes evaluates the condition, wherever the numbers of its tests start. -/
  reaches : ∀ (number : Nat → Nat) (truth : Nat → Bool) (first : Nat) (past : List Nat),
    (Builder.branches b'.nodes b.nodes.size).map number = List.range' first c.tests.length →
    ∃ e ∈ if (c.shortCircuit truth first).1 then yes else no,
      Reaches b'.nodes number truth { spot := .node b.nodes.size, tested := past }
        { spot := .slot e, tested := past ++ (c.shortCircuit truth first).2 }


namespace Lowered

variable {c left right : Cond} {b b₁ b' : Builder} {yes no leftYes leftNo : List Exit}

theorem length_branches (hl : Lowered c b yes no b') :
    (Builder.branches b'.nodes b.nodes.size).length = c.tests.length := by
  simpa using congrArg List.length hl.branches

theorem place (g : Option Guard) (b : Builder) :
    Lowered (.test g) b [{ node := b.nodes.size, slot := 0 }] [{ node := b.nodes.size, slot := 1 }]
      (b.place (.op (.branch g))) := by
  have hdraft := draft?_place b (.op (.branch g))
  have hbranches : Builder.branches (b.place (.op (.branch g))).nodes b.nodes.size = [b.nodes.size] := by
    simp [Builder.branches, hdraft]
  refine ⟨place_continues b _, by simp, fun e => ?_, ?_, fun number truth first past hnumber => ?_⟩
  · exact (@isOpen_place b (.op (.branch g)) e).symm
  · simp [hbranches, hdraft, tests]
  · have hfirst : number b.nodes.size = first := by
      simpa [hbranches, tests, List.range'_one] using hnumber
    refine ⟨{ node := b.nodes.size, slot := if truth first then 0 else 1 }, ?_, 1, ?_⟩
    · cases htruth : truth first <;> simp [shortCircuit, htruth]
    · rw [Function.iterate_one, advance_branch hdraft, hfirst]
      rfl

/-- A merge node before the condition. -/
theorem merge (hl : Lowered c (b.place (.op .merge)) yes no b') : Lowered c b yes no b' := by
  have hpending : (b.place (.op .merge)).pending = exits b.nodes.size 1 := by
    rw [place_eq]
    rfl
  have hslot (e : Exit) (he : e ∈ (b.place (.op .merge)).pending) :
      b.nodes.size ≤ e.node ∧ IsOpen (b.place (.op .merge)).nodes e :=
    isOpen_place.2 (hpending ▸ he)
  have hsize := size_place b (.op .merge)
  have hdraft : draft? b'.nodes b.nodes.size = some (.op .merge) := by
    rw [hl.continues.draft _ (by omega), draft?_place]
  have hbranches : Builder.branches b'.nodes b.nodes.size =
      Builder.branches b'.nodes (b.place (.op .merge)).nodes.size := by
    rw [hl.continues.branches_eq (by omega), Builder.branches, hsize]
    simp [draft?_place]
  refine ⟨hl.continues.after (place_continues b _) fun e he => (hslot e he).1, hl.nodup, fun e => ?_,
    ?_, ?_⟩
  · rw [hl.isOpen, hsize]
    refine and_congr_left fun ho => ⟨by omega, fun hle => ?_⟩
    -- the slot of the merge node is linked
    by_contra hlt
    obtain ⟨ho, hmem⟩ := (hl.continues.isOpen (fun e he => (hslot e he).2) (by omega)).1 ho
    exact hmem (hpending ▸ isOpen_place.1 ⟨hle, ho⟩)
  · rw [hbranches]
    exact hl.branches
  · intro number truth first past hnumber
    rw [hbranches] at hnumber
    obtain ⟨e, he, hr⟩ := hl.reaches number truth first past hnumber
    refine ⟨e, he, .head ?_⟩
    have hmem : { node := b.nodes.size, slot := 0 } ∈ (b.place (.op .merge)).pending := by
      simp [hpending, mem_exits]
    have hnext : IsNext (b.place (.op .merge)) (.slot { node := b.nodes.size, slot := 0 }) :=
      ⟨hmem, (hslot _ hmem).2⟩
    rw [advance_merge hdraft]
    exact (hl.continues.reaches_next hnext past).trans hr

theorem test (g : Option Guard) (b : Builder) :
    Lowered (.test g) b [{ node := (b.emit (.op (.branch g))).last, slot := 0 }]
      [{ node := (b.emit (.op (.branch g))).last, slot := 1 }] (b.emit (.op (.branch g))) := by
  rw [emit_eq]
  split
  · have hp := place g (b.place (.op .merge))
    rw [last, size_place, Nat.add_sub_cancel]
    exact hp.merge
  · rw [last, size_place, Nat.add_sub_cancel]
    exact place g b

theorem not (hl : Lowered c b yes no b') : Lowered (.not c) b no yes b' := by
  refine ⟨hl.continues, List.nodup_append_comm.1 hl.nodup, fun e => ?_, hl.branches, ?_⟩
  · rw [← hl.isOpen, List.mem_append, List.mem_append, or_comm]
  · intro number truth first past hnumber
    obtain ⟨e, he, hr⟩ := hl.reaches number truth first past hnumber
    refine ⟨e, ?_, hr⟩
    rw [shortCircuit]
    cases hvalue : (c.shortCircuit truth first).1 <;> simpa [hvalue] using he

/-- The right side is laid out behind the slots where the left side holds. -/
theorem and (hl : Lowered left b leftYes leftNo b₁)
    (hr : Lowered right { b₁ with pending := leftYes } yes no b') :
    Lowered (.and left right) b yes (leftNo ++ no) b' := by
  -- the slots that the left side leaves open
  have hyes (e : Exit) (he : e ∈ leftYes) : b.nodes.size ≤ e.node ∧ IsOpen b₁.nodes e :=
    (hl.isOpen e).1 (List.mem_append_left _ he)
  have hno (e : Exit) (he : e ∈ leftNo) : b.nodes.size ≤ e.node ∧ IsOpen b₁.nodes e :=
    (hl.isOpen e).1 (List.mem_append_right _ he)
  have hle := hl.continues.size_le
  have hbranches := hr.continues.branches_eq hle
  refine ⟨?_, ?_, fun e => ?_, ?_, ?_⟩
  · exact hr.continues.after hl.continues fun e he => (hyes e he).1
  · -- the slots of the left side belong to older nodes
    have hnodup : (leftNo ++ (yes ++ no)).Nodup := by
      refine List.nodup_append.2 ⟨(List.nodup_append.1 hl.nodup).2.1, hr.nodup, ?_⟩
      rintro e he _ he' rfl
      have hlt := isOpen_lt (hno e he).2
      have hge : b₁.nodes.size ≤ e.node := ((hr.isOpen e).1 he').1
      omega
    refine (List.Perm.nodup_iff ?_).1 hnodup
    refine List.perm_iff_count.2 fun e => ?_
    simp only [List.count_append]
    omega
  · have hleft : e ∈ leftNo ↔ b.nodes.size ≤ e.node ∧ IsOpen b₁.nodes e ∧ e ∉ leftYes := by
      have hdisjoint := @List.disjoint_of_nodup_append _ _ _ hl.nodup e
      rw [← and_assoc, ← hl.isOpen e, List.mem_append]
      tauto
    have hright : e ∈ yes ∨ e ∈ no ↔ b₁.nodes.size ≤ e.node ∧ IsOpen b'.nodes e := by
      rw [← List.mem_append]
      exact hr.isOpen e
    rw [List.mem_append, List.mem_append, or_left_comm, hright]
    by_cases hlt : e.node < b₁.nodes.size
    · -- a slot of the left side
      rw [hr.continues.isOpen (fun e he => (hyes e he).2) hlt, hleft]
      simp [Nat.not_le.2 hlt]
    · -- a slot of the right side
      have hnot : e ∉ leftNo := fun he => hlt (isOpen_lt (hno e he).2)
      simp only [hnot, false_or]
      exact and_congr_left fun _ => by omega
  · -- the tests of the left side stay as they are when the right side is laid out behind them
    rw [hbranches, List.map_append, tests, List.map_append]
    refine congrArg₂ _ ?_ hr.branches
    rw [← hl.branches]
    refine List.map_congr_left fun id hid => hr.continues.draft id ?_
    have hrange := (List.mem_range'_1.1 (List.mem_filter.1 hid).1).2
    show id < b₁.nodes.size
    replace hrange : id < b.nodes.size + (b₁.nodes.size - b.nodes.size) := hrange
    omega
  · -- the walk ends with the left side where that fails, else it goes on through the right side
    intro number truth first past hnumber
    rw [hbranches, List.map_append, tests, List.length_append, ← List.range'_append_1] at hnumber
    obtain ⟨hleft, hright⟩ := List.append_inj hnumber (by
      rw [List.length_map, List.length_range']
      exact hl.length_branches)
    obtain ⟨e, he, hwalk⟩ := hl.reaches number truth first past hleft
    have hwalk := hr.continues.reaches (fun e he => (hyes e he).2) hwalk
    rw [shortCircuit]
    rcases hvalue : left.shortCircuit truth first with ⟨_ | _, evaluated⟩ <;> rw [hvalue] at he hwalk
    · exact ⟨e, List.mem_append_left _ he, hwalk⟩
    · obtain ⟨d, hd, hrest⟩ :=
        hr.reaches number truth (first + left.tests.length) (past ++ evaluated) hright
      have hnext : IsNext { b₁ with pending := leftYes } (.slot e) := ⟨he, (hyes e he).2⟩
      refine ⟨d, ?_, hwalk.trans ((hr.continues.reaches_next hnext _).trans ?_)⟩
      · revert hd
        cases (right.shortCircuit truth (first + left.tests.length)).1
        · exact List.mem_append_right _
        · exact id
      · rwa [List.append_assoc] at hrest

end Lowered

/-- A disjunction is the negation of a conjunction of negations. -/
theorem shortCircuit_or (truth : Nat → Bool) (left right : Cond) (first : Nat) :
    (Cond.or left right).shortCircuit truth first =
      (Cond.not (.and (.not left) (.not right))).shortCircuit truth first := by
  simp only [shortCircuit]
  rcases left.shortCircuit truth first with ⟨_ | _, evaluated⟩ <;> simp [tests]

/-- The nodes of a disjunction are those of the negation of a conjunction of negations. -/
theorem Lowered.or {left right : Cond} {b b₁ b' : Builder} {yes no leftYes leftNo : List Exit}
    (hl : Lowered left b leftYes leftNo b₁)
    (hr : Lowered right { b₁ with pending := leftNo } yes no b') :
    Lowered (.or left right) b (leftYes ++ yes) no b' := by
  have hnot := (hl.not.and hr.not).not
  refine ⟨hnot.continues, hnot.nodup, hnot.isOpen, hnot.branches, ?_⟩
  intro number truth first
  rw [shortCircuit_or]
  exact hnot.reaches number truth first

/-- The invariant holds wherever a condition is laid out. -/
theorem lower_lowered {c : Cond} {b b' : Builder} {yes no : List Exit}
    (hl : c.lower b = ((yes, no), b')) : Lowered c b yes no b' := by
  induction c generalizing b b' yes no with
  | test g =>
    simp only [lower, Prod.mk.injEq] at hl
    obtain ⟨⟨rfl, rfl⟩, rfl⟩ := hl
    exact ⟨(Lowered.test g b).continues, (Lowered.test g b).nodup, (Lowered.test g b).isOpen,
      (Lowered.test g b).branches, (Lowered.test g b).reaches⟩
  | not c ih =>
    rcases hc : c.lower b with ⟨⟨cYes, cNo⟩, b₁⟩
    simp only [lower, hc, Prod.mk.injEq] at hl
    obtain ⟨⟨rfl, rfl⟩, rfl⟩ := hl
    exact (ih hc).not
  | and left right ihl ihr =>
    rcases hleft : left.lower b with ⟨⟨leftYes, leftNo⟩, b₁⟩
    rcases hright : right.lower { b₁ with pending := leftYes } with ⟨⟨rightYes, rightNo⟩, b₂⟩
    simp only [lower, hleft, hright, Prod.mk.injEq] at hl
    obtain ⟨⟨rfl, rfl⟩, rfl⟩ := hl
    exact (ihl hleft).and (ihr hright)
  | or left right ihl ihr =>
    rcases hleft : left.lower b with ⟨⟨leftYes, leftNo⟩, b₁⟩
    rcases hright : right.lower { b₁ with pending := leftNo } with ⟨⟨rightYes, rightNo⟩, b₂⟩
    simp only [lower, hleft, hright, Prod.mk.injEq] at hl
    obtain ⟨⟨rfl, rfl⟩, rfl⟩ := hl
    exact (ihl hleft).or (ihr hright)

/-- **A condition is evaluated from left to right, and no further than needed.** Its layout adds one
branch node for each test, in their order. Take any answers to the tests. A walk that comes to the
condition evaluates the tests that the condition evaluates, in the same order, and ends in a slot for the
value that the condition has. The slots for the two values are different, and together they are all slots
of the added nodes that lead nowhere. -/
theorem lower_shortCircuit {c : Cond} {b b' : Builder} {yes no : List Exit}
    (hl : c.lower b = ((yes, no), b')) :
    let branches := Builder.branches b'.nodes b.nodes.size
    branches.map (draft? b'.nodes) = c.tests.map (fun g => some (.op (.branch g))) ∧
      (∀ start : Spot, b.IsNext start → ∀ truth : Nat → Bool,
        ∃ e ∈ if (c.shortCircuit truth 0).1 then yes else no,
          Reaches b'.nodes branches.idxOf truth { spot := start, tested := [] }
            { spot := .slot e, tested := (c.shortCircuit truth 0).2 }) ∧
      yes.Disjoint no ∧ yes.Nodup ∧ no.Nodup ∧
      ∀ e, (e ∈ yes ∨ e ∈ no) ↔ b.nodes.size ≤ e.node ∧ IsOpen b'.nodes e := by
  have hlowered := lower_lowered hl
  obtain ⟨hyes, hno, hdisjoint⟩ := List.nodup_append'.1 hlowered.nodup
  refine ⟨hlowered.branches, fun start hs truth => ?_, hdisjoint, hyes, hno, fun e => ?_⟩
  · have hnodup : (Builder.branches b'.nodes b.nodes.size).Nodup :=
      (List.nodup_range' 1).filter _
    have hnumber : (Builder.branches b'.nodes b.nodes.size).map
        (Builder.branches b'.nodes b.nodes.size).idxOf = List.range' 0 c.tests.length := by
      rw [← hlowered.length_branches]
      refine List.ext_getElem (by simp) fun i hi _ => ?_
      simp [hnodup.idxOf_getElem]
    obtain ⟨e, he, hr⟩ := hlowered.reaches _ truth 0 [] hnumber
    exact ⟨e, he, (hlowered.continues.reaches_next hs []).trans hr⟩
  · rw [← hlowered.isOpen, List.mem_append]

/-- `(a && b) || !c` after the entry. With `a` and `c` but not `b` all three are evaluated; the two slots
by which a walk comes to `c` are joined by node 3, and it leaves by the first slot of node 4. -/
theorem lower_shortCircuit_joined :
    let c : Cond := .or (.and (.test none) (.test none)) (.not (.test none))
    let b := Builder.start "f" [] none
    let nodes := (c.lower b).2.nodes
    c.lower b = (([⟨2, 0⟩, ⟨4, 1⟩], [⟨4, 0⟩]), (c.lower b).2) ∧
      Builder.branches nodes b.nodes.size = [1, 2, 4] ∧ b.IsNext (.slot ⟨0, 0⟩) ∧
      Reaches nodes [1, 2, 4].idxOf (· != 1) { spot := .slot ⟨0, 0⟩, tested := [] }
        { spot := .slot ⟨4, 0⟩, tested := [0, 1, 2] } := by
  intro c b nodes
  have hl : c.lower b = (([⟨2, 0⟩, ⟨4, 1⟩], [⟨4, 0⟩]), (c.lower b).2) :=
    Prod.ext (by decide +kernel) rfl
  have hbranches : Builder.branches nodes b.nodes.size = [1, 2, 4] := by decide +kernel
  have hentry : b.nodes[0]? = some { draft := .op .entry, links := [[]] } := rfl
  have hnext : b.IsNext (.slot ⟨0, 0⟩) := ⟨List.mem_singleton_self _, _, hentry, rfl⟩
  obtain ⟨-, hreaches, -⟩ := lower_shortCircuit hl
  obtain ⟨e, he, hr⟩ := hreaches _ hnext (· != 1)
  obtain rfl : e = ⟨4, 0⟩ := List.mem_singleton.1 he
  exact ⟨hl, hbranches, hnext, hbranches ▸ hr⟩

end Cond
end FlowTyping
