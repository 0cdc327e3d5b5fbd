import FlowTyping.Flow.Builder
import Mathlib.Data.List.Nodup
import Mathlib.Data.List.Perm.Basic

/-!
# Slots on the way from open to linked

A graph under construction has successor slots that lead nowhere yet. They travel: as the current
position, among those that leave an enclosing loop or switch, or put aside while another part is laid
out. Layout is sound because every open slot is in exactly one of these places.

* **`Builder.Held`** — a list holds each open slot exactly once, and all others were linked once.
* **`Builder.Held.link`**, **`Builder.Held.push`** — linking takes a slot off the list, a new node puts
  its slots on it.
* **`Builder.NodesGrow`** — what neither changes: nodes keep what they do, and linked slots lead where
  they led.
-/

namespace FlowTyping

namespace Builder

/-- The slot is there and leads nowhere. -/
def IsOpen (nodes : Array OpenNode) (e : Exit) : Prop :=
  ∃ n, nodes[e.node]? = some n ∧ n.links[e.slot]? = some []

/-- The slot was linked once, to the target. -/
def Linked (nodes : Array OpenNode) (e : Exit) (target : Nat) : Prop :=
  ∃ n, nodes[e.node]? = some n ∧ n.links[e.slot]? = some [target]

/-- A node has the slots that it needs, each open or linked once to a number below the bound. -/
structure Tidy (bound : Nat) (n : OpenNode) : Prop where
  slots : n.links.length = n.draft.slots
  once : ∀ link ∈ n.links, link = [] ∨ ∃ target < bound, link = [target]

/-- The list holds each open slot exactly once, and all others were linked once. -/
structure Held (bound : Nat) (nodes : Array OpenNode) (held : List Exit) : Prop where
  nodup : held.Nodup
  isOpen : ∀ e, IsOpen nodes e ↔ e ∈ held
  tidy : ∀ (id : Nat) (n : OpenNode), nodes[id]? = some n → Tidy bound n

/-- Nodes keep what they do, and linked slots lead where they led. -/
structure NodesGrow (nodes nodes' : Array OpenNode) : Prop where
  draft : ∀ (id : Nat) (n : OpenNode), nodes[id]? = some n →
    ∃ n', nodes'[id]? = some n' ∧ n'.draft = n.draft
  linked : ∀ (e : Exit) (target : Nat), Linked nodes e target → Linked nodes' e target

namespace NodesGrow

variable {nodes nodes' nodes'' : Array OpenNode}

theorem refl (nodes : Array OpenNode) : NodesGrow nodes nodes :=
  ⟨fun _ n hn => ⟨n, hn, rfl⟩, fun _ _ hl => hl⟩

theorem trans (hg : NodesGrow nodes nodes') (hg' : NodesGrow nodes' nodes'') :
    NodesGrow nodes nodes'' := by
  refine ⟨fun id n hn => ?_, fun e target hl => hg'.linked e target (hg.linked e target hl)⟩
  obtain ⟨n', hn', hd⟩ := hg.draft id n hn
  obtain ⟨n'', hn'', hd'⟩ := hg'.draft id n' hn'
  exact ⟨n'', hn'', hd'.trans hd⟩

theorem size_le (hg : NodesGrow nodes nodes') : nodes.size ≤ nodes'.size := by
  by_contra hlt
  obtain ⟨n', hn', -⟩ := hg.draft nodes'.size nodes[nodes'.size] (by simp)
  simp at hn'

end NodesGrow

namespace Held

variable {bound : Nat} {nodes : Array OpenNode} {held : List Exit}

theorem perm (hh : Held bound nodes held) {held' : List Exit} (hp : held.Perm held') :
    Held bound nodes held' :=
  ⟨hp.nodup_iff.1 hh.nodup, fun e => (hh.isOpen e).trans hp.mem_iff, hh.tidy⟩

theorem mono (hh : Held bound nodes held) {bound' : Nat} (hle : bound ≤ bound') :
    Held bound' nodes held := by
  refine ⟨hh.nodup, hh.isOpen, fun id n hn => ?_⟩
  have hn := hh.tidy id n hn
  refine ⟨hn.slots, fun link hlink => (hn.once link hlink).imp_right ?_⟩
  rintro ⟨target, ht, rfl⟩
  exact ⟨target, by omega, rfl⟩

end Held

/-! ## Linking -/

/-- Links one slot. -/
def linkNode (target : Nat) (nodes : Array OpenNode) (e : Exit) : Array OpenNode :=
  nodes.modify e.node fun n => { n with links := n.links.modify e.slot (target :: ·) }

section Link

variable {bound : Nat} {nodes : Array OpenNode} {held : List Exit} {target : Nat} {e : Exit}

@[simp] theorem size_linkNode (target : Nat) (nodes : Array OpenNode) (e : Exit) :
    (linkNode target nodes e).size = nodes.size := by
  simp [linkNode]

theorem getElem?_linkNode (id : Nat) :
    (linkNode target nodes e)[id]? =
      if e.node = id then (nodes[id]?).map fun n =>
        { n with links := n.links.modify e.slot (target :: ·) }
      else nodes[id]? := by
  rw [linkNode, Array.getElem?_modify]

/-- What a slot was linked to after one slot was linked. -/
theorem links_linkNode (d : Exit) (link : List Nat) :
    (∃ n, (linkNode target nodes e)[d.node]? = some n ∧ n.links[d.slot]? = some link) ↔
      ∃ n, nodes[d.node]? = some n ∧
        (n.links[d.slot]?).map (fun link => if d = e then target :: link else link) = some link := by
  simp only [getElem?_linkNode]
  by_cases hnode : e.node = d.node
  · by_cases hslot : e.slot = d.slot
    · obtain rfl : d = e := by
        cases d
        cases e
        simp_all
      simp
    · have hde : d ≠ e := fun heq => hslot (by rw [heq])
      simp [hnode, hslot, hde]
  · have hde : d ≠ e := fun heq => hnode (by rw [heq])
    simp [hnode, hde]

theorem isOpen_linkNode (d : Exit) :
    IsOpen (linkNode target nodes e) d ↔ IsOpen nodes d ∧ d ≠ e := by
  rw [IsOpen, links_linkNode]
  by_cases hde : d = e <;> simp [IsOpen, hde]

theorem linked_linkNode (ho : IsOpen nodes e) : Linked (linkNode target nodes e) e target := by
  obtain ⟨n, hn, hslot⟩ := ho
  exact (links_linkNode e [target]).2 ⟨n, hn, by simp [hslot]⟩

/-- Linking an open slot changes nothing else. -/
theorem nodesGrow_linkNode (ho : IsOpen nodes e) : NodesGrow nodes (linkNode target nodes e) := by
  refine ⟨fun id n hn => ?_, fun d link hd => ?_⟩
  · rw [getElem?_linkNode, hn]
    by_cases hid : e.node = id <;> simp [hid]
  · obtain ⟨n, hn, hslot⟩ := hd
    refine (links_linkNode d [link]).2 ⟨n, hn, ?_⟩
    have hde : d ≠ e := by
      rintro rfl
      obtain ⟨n', hn', hslot'⟩ := ho
      simp_all
    simp [hslot, hde]

theorem Tidy.link {n : OpenNode} (hn : Tidy bound n) (ht : target < bound) {slot : Nat}
    (hslot : n.links[slot]? = some []) :
    Tidy bound { n with links := n.links.modify slot (target :: ·) } := by
  refine ⟨by simpa using hn.slots, fun link hlink => ?_⟩
  obtain ⟨i, hi⟩ := List.mem_iff_getElem?.1 hlink
  simp only [List.getElem?_modify] at hi
  split at hi
  · rename_i heq
    subst heq
    rw [hslot] at hi
    exact .inr ⟨target, ht, by simpa using hi.symm⟩
  · exact hn.once link (List.mem_iff_getElem?.2 ⟨i, by simpa using hi⟩)

/-- Linking a slot takes it off the list. -/
theorem Held.link (hh : Held bound nodes (e :: held)) (ht : target < bound) :
    Held bound (linkNode target nodes e) held := by
  obtain ⟨hfresh, hnodup⟩ := List.nodup_cons.1 hh.nodup
  refine ⟨hnodup, fun d => ?_, fun id n hn => ?_⟩
  · rw [isOpen_linkNode, hh.isOpen, List.mem_cons]
    constructor
    · rintro ⟨rfl | hd, hne⟩
      · exact absurd rfl hne
      · exact hd
    · intro hd
      exact ⟨.inr hd, fun heq => hfresh (heq ▸ hd)⟩
  · rw [getElem?_linkNode] at hn
    split at hn
    · rename_i heq
      obtain ⟨m, hm, rfl⟩ := Option.map_eq_some_iff.1 hn
      obtain ⟨m', hm', hslot⟩ := (hh.isOpen e).2 (by simp)
      obtain rfl : m = m' := by simpa [heq, hm] using hm'
      exact (hh.tidy id m hm).link ht hslot
    · exact hh.tidy id n hn

/-- Linking slots takes them off the list; each is linked then, and nothing else changes. -/
theorem Held.linkAll {es : List Exit} (hh : Held bound nodes (es ++ held)) (ht : target < bound) :
    Held bound (es.foldl (linkNode target) nodes) held ∧
      NodesGrow nodes (es.foldl (linkNode target) nodes) ∧
      ∀ e ∈ es, Linked (es.foldl (linkNode target) nodes) e target := by
  induction es generalizing nodes with
  | nil => exact ⟨hh, .refl nodes, by simp⟩
  | cons e es ih =>
    have ho : IsOpen nodes e := (hh.isOpen e).2 (by simp)
    obtain ⟨hheld, hgrow, hlinked⟩ := ih (hh.link ht)
    refine ⟨hheld, (nodesGrow_linkNode ho).trans hgrow, fun d hd => ?_⟩
    rcases List.mem_cons.1 hd with rfl | hd
    · exact hgrow.linked d target (linked_linkNode ho)
    · exact hlinked d hd

theorem size_foldl_linkNode (target : Nat) (es : List Exit) (nodes : Array OpenNode) :
    (es.foldl (linkNode target) nodes).size = nodes.size := by
  induction es generalizing nodes with
  | nil => rfl
  | cons e es ih => simp [ih]

end Link

/-! ## New nodes -/

theorem mem_exits {node slots : Nat} {e : Exit} :
    e ∈ exits node slots ↔ e.node = node ∧ e.slot < slots := by
  simp only [exits, List.mem_map, List.mem_range]
  constructor
  · rintro ⟨slot, hslot, rfl⟩
    exact ⟨rfl, hslot⟩
  · rintro ⟨rfl, hslot⟩
    exact ⟨e.slot, hslot, rfl⟩

theorem exits_nodup (node slots : Nat) : (exits node slots).Nodup :=
  List.nodup_range.map fun _ _ heq => by simpa using heq

section Push

variable {bound : Nat} {nodes : Array OpenNode} {held : List Exit}

theorem nodesGrow_push (nodes : Array OpenNode) (n : OpenNode) : NodesGrow nodes (nodes.push n) := by
  have hold (id : Nat) (m : OpenNode) (hm : nodes[id]? = some m) : (nodes.push n)[id]? = some m := by
    have hlt := (Array.getElem?_eq_some_iff.1 hm).1
    rw [Array.getElem?_push, if_neg (by omega), hm]
  refine ⟨fun id m hm => ⟨m, hold id m hm, rfl⟩, ?_⟩
  rintro e target ⟨m, hm, hslot⟩
  exact ⟨m, hold e.node m hm, hslot⟩

/-- A new node puts its slots on the list. -/
theorem Held.push (hh : Held bound nodes held) (draft : Draft) :
    Held bound (nodes.push { draft, links := List.replicate draft.slots [] })
      (exits nodes.size draft.slots ++ held) := by
  have hlt {e : Exit} (he : e ∈ held) : e.node < nodes.size := by
    obtain ⟨n, hn, -⟩ := (hh.isOpen e).2 he
    exact (Array.getElem?_eq_some_iff.1 hn).1
  refine ⟨List.nodup_append.2 ⟨exits_nodup _ _, hh.nodup, ?_⟩, fun e => ?_, fun id n hn => ?_⟩
  · rintro e he d hd rfl
    have := (mem_exits.1 he).1
    have := hlt hd
    omega
  · rw [List.mem_append, mem_exits, ← hh.isOpen, IsOpen, IsOpen, Array.getElem?_push]
    by_cases hnode : e.node = nodes.size
    · simp [hnode, List.getElem?_replicate]
    · simp [hnode]
  · rw [Array.getElem?_push] at hn
    split at hn
    · obtain rfl := Option.some.inj hn
      refine ⟨by simp, fun link hlink => .inl ?_⟩
      exact (List.mem_replicate.1 hlink).2
    · exact hh.tidy id n hn

end Push

end Builder
end FlowTyping
