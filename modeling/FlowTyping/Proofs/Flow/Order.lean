import FlowTyping.Flow.Order

/-!
# The order of a pass reaches every successor

A depth-first search leaves every node that it meets, and it meets the successors of every node that it
leaves. The fuel is enough because each call meets a new node, and all nodes are in range in a valid
graph. So reverse postorder has the entry and is closed under successors.

* **`Graph.Search.Extends`** — what a search keeps: new nodes are left, with their successors met.
* **`Graph.entry_mem_reversePostorder`**, **`Graph.succ_mem_reversePostorder`**
* **`Sketch.check_valid`** — a graph that passed the check is valid.
-/

namespace FlowTyping

namespace Graph

variable {g : Graph} {s s' s'' : Search} {x y id : Nat}

/-! ## What a search keeps -/

/-- A search went on: the nodes that it met since are left, with their successors met. -/
structure Search.Extends (g : Graph) (s s' : Search) : Prop where
  seen_mono : ∀ x, s.seen.contains x = true → s'.seen.contains x = true
  left_mono : ∀ x ∈ s.left, x ∈ s'.left
  seen_left : ∀ x, s'.seen.contains x = true → s.seen.contains x = true ∨ x ∈ s'.left
  closed : ∀ x ∈ s'.left, x ∈ s.left ∨ ∀ y ∈ g.succs x, s'.seen.contains y = true

namespace Search.Extends

theorem refl (g : Graph) (s : Search) : s.Extends g s where
  seen_mono _ hx := hx
  left_mono _ hx := hx
  seen_left _ hx := .inl hx
  closed _ hx := .inl hx

theorem trans (hs : s.Extends g s') (hs' : s'.Extends g s'') : s.Extends g s'' where
  seen_mono x hx := hs'.seen_mono x (hs.seen_mono x hx)
  left_mono x hx := hs'.left_mono x (hs.left_mono x hx)
  seen_left x hx := by
    rcases hs'.seen_left x hx with hx | hx
    · exact (hs.seen_left x hx).imp_right (hs'.left_mono x)
    · exact .inr hx
  closed x hx := by
    rcases hs'.closed x hx with hx | hx
    · exact (hs.closed x hx).imp_right fun hsuccs y hy => hs'.seen_mono y (hsuccs y hy)
    · exact .inr hx

end Search.Extends

/-! ## Fuel -/

/-- The number of nodes that were not met. -/
def Search.unmet (g : Graph) (s : Search) : Nat :=
  (List.range g.size).countP fun x => !s.seen.contains x

theorem Search.unmet_mono (hs : ∀ x, s.seen.contains x = true → s'.seen.contains x = true) :
    s'.unmet g ≤ s.unmet g := by
  refine List.countP_mono_left fun x _ hx => ?_
  cases hseen : s.seen.contains x with
  | false => rfl
  | true => simp [hs x hseen] at hx

theorem countP_lt {α : Type} {f f' : α → Bool} {xs : List α} (hle : ∀ x ∈ xs, f x = true → f' x = true)
    {x : α} (hx : x ∈ xs) (hf : f x = false) (hf' : f' x = true) : xs.countP f < xs.countP f' := by
  induction xs with
  | nil => simp at hx
  | cons y ys ih =>
    have hrest : ys.countP f ≤ ys.countP f' :=
      List.countP_mono_left fun z hz => hle z (by simp [hz])
    rw [List.countP_cons, List.countP_cons]
    rcases List.mem_cons.1 hx with rfl | hx
    · simp [hf, hf']
      omega
    · have hlt := ih (fun z hz => hle z (by simp [hz])) hx
      by_cases hy : f y = true
      · rw [if_pos hy, if_pos (hle y (by simp) hy)]
        omega
      · rw [if_neg hy]
        exact Nat.lt_of_lt_of_le hlt (Nat.le_add_right _ _)

/-- Meeting a node leaves fewer unmet. -/
theorem Search.unmet_insert_lt (hid : id < g.size) (hs : s.seen.contains id = false) :
    Search.unmet g { s with seen := s.seen.insert id } < s.unmet g := by
  refine countP_lt (fun x _ hx => ?_) (List.mem_range.2 hid) (by simp) (by simp [hs])
  rw [Std.HashSet.contains_insert, Bool.not_or, Bool.and_eq_true] at hx
  exact hx.2

/-! ## Searches -/

/-- The loop over successors meets all of them, if each search meets the node that it starts from. -/
theorem foldl_search_extends {fuel : Nat}
    (hone : ∀ (s : Search) (id : Nat), s.unmet g ≤ fuel → id < g.size → s.seen.contains id = false →
      s.Extends g (g.search fuel id s) ∧ (g.search fuel id s).seen.contains id = true)
    {succs : List Nat} (hsuccs : ∀ y ∈ succs, y < g.size) (hf : s.unmet g ≤ fuel)
    (hs : succs.foldl (fun s next => if s.seen.contains next then s else search g fuel next s) s = s') :
    s.Extends g s' ∧ ∀ y ∈ succs, s'.seen.contains y = true := by
  induction succs generalizing s with
  | nil =>
    obtain rfl : s = s' := hs
    exact ⟨.refl g s, by simp⟩
  | cons y ys ih =>
    have hstep : s.Extends g (if s.seen.contains y then s else search g fuel y s) ∧
        (if s.seen.contains y then s else search g fuel y s).seen.contains y = true := by
      cases hy : s.seen.contains y with
      | true => exact ⟨.refl g s, hy⟩
      | false => exact hone s y hf (hsuccs y (by simp)) hy
    obtain ⟨hrest, hmet⟩ := ih (fun z hz => hsuccs z (by simp [hz]))
      (Nat.le_trans (Search.unmet_mono hstep.1.seen_mono) hf) hs
    refine ⟨hstep.1.trans hrest, fun z hz => ?_⟩
    rcases List.mem_cons.1 hz with rfl | hz
    · exact hrest.seen_mono z hstep.2
    · exact hmet z hz

/-- A search from a new node goes on, and meets the node. -/
theorem search_extends (hg : ∀ x, ∀ y ∈ g.succs x, y < g.size) {fuel : Nat} (hf : s.unmet g ≤ fuel)
    (hid : id < g.size) (hs : s.seen.contains id = false) :
    s.Extends g (g.search fuel id s) ∧ (g.search fuel id s).seen.contains id = true := by
  induction fuel generalizing id s with
  | zero => exact absurd (Search.unmet_insert_lt hid hs) (by omega)
  | succ fuel ih =>
    have hless := Search.unmet_insert_lt hid hs
    rw [search]
    generalize hloop : (g.succs id).foldl
      (fun s next => if s.seen.contains next then s else search g fuel next s)
      { s with seen := s.seen.insert id } = s'
    obtain ⟨hext, hmet⟩ := foldl_search_extends (fun s id hf hid hs => ih hf hid hs) (hg id)
      (by omega) hloop
    refine ⟨⟨fun x hx => hext.seen_mono x ?_, fun x hx => ?_, fun x hx => ?_, fun x hx => ?_⟩,
      hext.seen_mono id (by simp)⟩
    · rw [Std.HashSet.contains_insert, hx, Bool.or_true]
    · exact List.mem_cons_of_mem _ (hext.left_mono x hx)
    · rcases hext.seen_left x hx with hx | hx
      · rw [Std.HashSet.contains_insert, Bool.or_eq_true, beq_iff_eq] at hx
        rcases hx with rfl | hx
        · exact .inr (by simp)
        · exact .inl hx
      · exact .inr (List.mem_cons_of_mem _ hx)
    · rcases List.mem_cons.1 hx with rfl | hx
      · exact .inr hmet
      · exact hext.closed x hx

/-! ## Reverse postorder -/

theorem Valid.succs_lt (hg : g.Valid) (hy : y ∈ g.succs x) : y < g.size := by
  rw [succs] at hy
  split at hy
  · rename_i n hn
    exact hg.succ_lt x n hn y hy
  · simp at hy

theorem extends_reversePostorder (hg : g.Valid) :
    Search.Extends g {} (g.search (g.size + 1) g.entry {}) ∧
      (g.search (g.size + 1) g.entry {}).seen.contains g.entry = true := by
  refine search_extends (fun x y hy => hg.succs_lt hy) ?_ hg.entry_lt (by simp)
  exact Nat.le_trans List.countP_le_length (by simp)

/-- The order of a pass has the entry. -/
theorem entry_mem_reversePostorder (hg : g.Valid) : g.entry ∈ g.reversePostorder := by
  obtain ⟨hext, hentry⟩ := extends_reversePostorder hg
  exact (hext.seen_left g.entry hentry).resolve_left (by simp)

/-- The order of a pass has the successors of its nodes. -/
theorem succ_mem_reversePostorder (hg : g.Valid) (hx : x ∈ g.reversePostorder) (hy : y ∈ g.succs x) :
    y ∈ g.reversePostorder := by
  obtain ⟨hext, -⟩ := extends_reversePostorder hg
  have hsuccs := (hext.closed x hx).resolve_left (by simp)
  exact (hext.seen_left y (hsuccs y hy)).resolve_left (by simp)

end Graph

/-! ## Checked graphs -/

namespace Sketch

variable {s : Sketch}

/-- What a checked node has. -/
theorem checkNode_ok {id : Nat} {written : Option SketchNode} {n : Node}
    (hn : s.checkNode id written = .ok n) :
    ∃ w, written = some w ∧ w.draft = .op n.op ∧ n.succs = w.succs.map Int.toNat ∧
      w.succs.length = n.op.slots ∧ (∀ x ∈ w.succs, s.hasNode x = true) ∧
      (n.op.isEntry = true → s.entry = id) := by
  rw [checkNode.eq_def] at hn
  cases written with
  | none => simp [throw, throwThe, MonadExceptOf.throw] at hn
  | some w =>
    refine ⟨w, rfl, ?_⟩
    simp only [bind, Except.bind, throw, throwThe, MonadExceptOf.throw, pure, Except.pure] at hn
    split at hn
    · simp at hn
    · cases hd : w.draft with
      | op op =>
        simp only [hd] at hn
        split at hn
        · simp at hn
        rename_i hslots
        split at hn
        · simp at hn
        rename_i hfind
        split at hn
        · simp at hn
        rename_i hentry
        obtain rfl := Except.ok.inj hn
        have hnodes : ∀ x ∈ w.succs, s.hasNode x = true := by simpa using hfind
        have hunique : op.isEntry = true → s.entry = id := by simpa using hentry
        exact ⟨rfl, rfl, by simpa [Draft.slots] using hslots, hnodes, hunique⟩
      | noSubject => simp [hd] at hn
      | noTarget text | noCall =>
        simp only [hd] at hn
        split at hn
        · simp at hn
        · split at hn <;> simp at hn

theorem checkNodes_ok {written : List (Option SketchNode)} {id : Nat} {nodes : List Node}
    (hn : s.checkNodes id written = .ok nodes) :
    nodes.length = written.length ∧
      ∀ (k : Nat) (n : Node), nodes[k]? = some n →
        ∃ w, written[k]? = some w ∧ s.checkNode (id + k) w = .ok n := by
  induction written generalizing id nodes with
  | nil =>
    obtain rfl := Except.ok.inj hn
    exact ⟨rfl, by simp⟩
  | cons w ws ih =>
    rw [checkNodes.eq_def] at hn
    dsimp only at hn
    cases hw : s.checkNode id w with
    | error flaw => simp [hw] at hn
    | ok n =>
      cases hws : s.checkNodes (id + 1) ws with
      | error flaw => simp [hw, hws, Except.map] at hn
      | ok rest =>
        obtain rfl : n :: rest = nodes := by simpa [hw, hws, Except.map] using hn
        obtain ⟨hlen, hget⟩ := ih hws
        refine ⟨by simp [hlen], fun k m hm => ?_⟩
        cases k with
        | zero =>
          obtain rfl : n = m := by simpa using hm
          exact ⟨w, by simp, by simpa using hw⟩
        | succ k =>
          obtain ⟨w', hw', hcheck⟩ := hget k m (by simpa using hm)
          refine ⟨w', by simpa using hw', ?_⟩
          rwa [show id + (k + 1) = id + 1 + k by omega]

theorem toNat_lt_of_hasNode {x : Int} (hx : s.hasNode x = true) : x.toNat < s.nodes.length := by
  rw [hasNode, Bool.and_eq_true] at hx
  cases hget : s.nodes[x.toNat]? with
  | none => simp [hget] at hx
  | some w => exact (List.getElem?_eq_some_iff.1 hget).1

/-- The entry of a written graph that has one. -/
theorem entry_of_hasEntry (he : s.hasEntry = true) :
    0 ≤ s.entry ∧ ∃ w : SketchNode, s.nodes[s.entry.toNat]? = some (some w) ∧ w.draft = .op .entry := by
  rw [hasEntry] at he
  split at he
  · rename_i w id succs hnode
    rw [node?] at hnode
    split at hnode
    · simp at hnode
    · rename_i hneg
      obtain ⟨w', hget, hw'⟩ := Option.bind_eq_some_iff.1 hnode
      subst hw'
      exact ⟨by omega, _, hget, rfl⟩
  · simp at he

/-- A graph that passed the check is valid. -/
theorem check_valid {g : Graph} (hg : s.check = .ok g) : g.Valid := by
  rw [check] at hg
  simp only at hg
  split at hg
  · simp at hg
  · rename_i hentry
    have hentry : s.hasEntry = true := by simpa using hentry
    split at hg
    · simp at hg
    · rename_i nodes hnodes
      obtain rfl := Except.ok.inj hg
      obtain ⟨hlen, hget⟩ := checkNodes_ok hnodes
      obtain ⟨hpos, w, hw, hdraft⟩ := entry_of_hasEntry hentry
      -- each node of the graph is one that was written down and passed on its own
      have hchecked (id : Nat) (n : Node) (hn : nodes.toArray[id]? = some n) :
          ∃ w : SketchNode, s.nodes[id]? = some (some w) ∧ w.draft = .op n.op ∧
            n.succs = w.succs.map Int.toNat ∧ w.succs.length = n.op.slots ∧
            (∀ x ∈ w.succs, s.hasNode x = true) ∧ (n.op.isEntry = true → s.entry = id) := by
        obtain ⟨w, hw, hcheck⟩ := hget id n (by simpa using hn)
        obtain ⟨w', rfl, hrest⟩ := checkNode_ok hcheck
        exact ⟨w', hw, by simpa using hrest⟩
      constructor
      · intro n hn
        obtain ⟨w', hw', hdraft', -⟩ := hchecked _ n hn
        obtain rfl : w = w' := by simpa [hw] using hw'
        rw [hdraft] at hdraft'
        rw [← Draft.op.inj hdraft']
        rfl
      · show s.entry.toNat < nodes.toArray.size
        simpa [hlen] using (List.getElem?_eq_some_iff.1 hw).1
      · intro id n hn
        obtain ⟨w', -, -, hsuccs, hslots, -⟩ := hchecked id n hn
        simp [hsuccs, hslots]
      · intro id n hn x hx
        obtain ⟨w', -, -, hsuccs, -, hnode, -⟩ := hchecked id n hn
        rw [hsuccs] at hx
        obtain ⟨y, hy, rfl⟩ := List.mem_map.1 hx
        show y.toNat < nodes.toArray.size
        simpa [hlen] using toNat_lt_of_hasNode (hnode y hy)
      · intro id n hn hisEntry
        obtain ⟨w', -, -, -, -, -, hunique⟩ := hchecked id n hn
        have heq := hunique hisEntry
        show id = s.entry.toNat
        omega

end Sketch
end FlowTyping
