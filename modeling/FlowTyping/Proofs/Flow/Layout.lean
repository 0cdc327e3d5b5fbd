import FlowTyping.Proofs.Flow.Slots

/-!
# Laying out statements

What laying out a statement does to a graph under construction, whatever is pending and whatever loops
and switches are around.

* **`Stmt.isProper`**, **`Stmt.isStray`** — which statements can be part of a graph, and which have a
  jump without a target.
* **`Builder.Accounts`** — the invariant: the open slots are those of the current position, those that
  leave an enclosing scope, and those put aside by whoever lays out the surrounding statement.
* **`Builder.Grows`** — how a graph grows: nodes and links stay, of the scopes only the innermost one gets
  slots, and an error comes from a stray jump.
* **`Stmt.lay_accounts`** — laying out a proper statement keeps the one and does the other.
-/

namespace FlowTyping

/-! ## Statements that can be laid out -/

mutual
/-- Assignments have a target and a value, and conditionals have a condition. -/
def Stmt.isProper : Stmt → Bool
  | .declare name _ _ => !name.isEmpty
  | .assign name value => !name.isEmpty && value.isSome
  | .cond c yes no => c.isSome && Stmt.allProper yes && Stmt.allProper no
  | .loop _ body => Stmt.allProper body
  | .switch _ _ clauses none => Stmt.clausesProper clauses
  | .switch _ _ clauses (some body) => Stmt.clausesProper clauses && Stmt.allProper body
  | _ => true

def Stmt.allProper : List Stmt → Bool
  | [] => true
  | s :: rest => s.isProper && Stmt.allProper rest

def Stmt.clausesProper : List (List Ty × List Stmt) → Bool
  | [] => true
  | (_, body) :: rest => Stmt.allProper body && Stmt.clausesProper rest
end

mutual
/-- Whether the statement leaves or repeats something that is not around it: `inside` says that it
stands in a loop or switch, `inLoop` that it stands in a loop. -/
def Stmt.isStray (inside inLoop : Bool) : Stmt → Bool
  | .leave => !inside
  | .again => !inLoop
  | .cond _ yes no => Stmt.anyStray inside inLoop yes || Stmt.anyStray inside inLoop no
  | .loop _ body => Stmt.anyStray true true body
  | .switch _ _ clauses none => Stmt.clauseStray inLoop clauses
  | .switch _ _ clauses (some body) =>
    Stmt.clauseStray inLoop clauses || Stmt.anyStray true inLoop body
  | _ => false

def Stmt.anyStray (inside inLoop : Bool) : List Stmt → Bool
  | [] => false
  | s :: rest => s.isStray inside inLoop || Stmt.anyStray inside inLoop rest

def Stmt.clauseStray (inLoop : Bool) : List (List Ty × List Stmt) → Bool
  | [] => false
  | (_, body) :: rest => Stmt.anyStray true inLoop body || Stmt.clauseStray inLoop rest
end

/-- Whether a node is one that statements are laid out as. -/
def Draft.isLaid : Draft → Bool
  | .op .entry | .op .exit | .op (.other _) => false
  | .op _ => true
  | _ => false

namespace Builder

/-! ## Scopes -/

/-- Of the scopes only the innermost gets slots. -/
def ScopesGrow : List Scope → List Scope → Prop
  | [], [] => True
  | s :: rest, s' :: rest' => s'.header = s.header ∧ s.breaks <+: s'.breaks ∧ rest' = rest
  | _, _ => False

theorem ScopesGrow.refl (scopes : List Scope) : ScopesGrow scopes scopes := by
  cases scopes with
  | nil => trivial
  | cons s rest => exact ⟨rfl, List.prefix_rfl, rfl⟩

theorem ScopesGrow.trans {scopes scopes' scopes'' : List Scope} (hg : ScopesGrow scopes scopes')
    (hg' : ScopesGrow scopes' scopes'') : ScopesGrow scopes scopes'' := by
  match scopes, scopes', scopes'', hg, hg' with
  | [], [], [], _, _ => trivial
  | _ :: _, _ :: _, _ :: _, ⟨hh, hb, hr⟩, ⟨hh', hb', hr'⟩ =>
    exact ⟨hh'.trans hh, hb.trans hb', hr'.trans hr⟩

theorem ScopesGrow.header_eq {scopes scopes' : List Scope} (hg : ScopesGrow scopes scopes') :
    scopes'.findSome? (·.header) = scopes.findSome? (·.header) := by
  match scopes, scopes', hg with
  | [], [], _ => rfl
  | _ :: _, _ :: _, ⟨hh, _, rfl⟩ => rw [List.findSome?_cons, List.findSome?_cons, hh]

theorem ScopesGrow.breaks_subset {scopes scopes' : List Scope} (hg : ScopesGrow scopes scopes') {s : Scope}
    (hs : s ∈ scopes.head?) : ∃ s' ∈ scopes'.head?, s.breaks ⊆ s'.breaks := by
  match scopes, scopes', hg with
  | [], [], _ => simp at hs
  | _ :: _, s' :: _, ⟨_, hb, _⟩ =>
    obtain rfl : _ = s := by simpa using hs
    exact ⟨s', by simp, hb.subset⟩

/-- Whether there is a loop or switch around. -/
def inside (b : Builder) : Bool := !b.scopes.isEmpty

/-- Whether there is a loop around. -/
def inLoop (b : Builder) : Bool := b.innermostHeader.isSome

/-- How a graph under construction grows; `strays` says whether a stray jump is laid out. Which slots are
pending, and which scopes are around, has no part in it. -/
structure Adds (strays : Bool) (b b' : Builder) : Prop where
  nodes : NodesGrow b.nodes b'.nodes
  laid : ∀ (id : Nat) (n : OpenNode), b.nodes.size ≤ id → b'.nodes[id]? = some n →
    n.draft.isLaid = true
  error : b'.error.isSome = (b.error.isSome || strays)

/-- The graph grows, and of the scopes only the innermost gets slots. -/
structure Grows (strays : Bool) (b b' : Builder) : Prop extends Adds strays b b' where
  scopes : ScopesGrow b.scopes b'.scopes

theorem Adds.refl (b : Builder) : Adds false b b := by
  refine ⟨.refl _, fun id n hle hn => ?_, by simp⟩
  have := (Array.getElem?_eq_some_iff.1 hn).1
  omega

theorem Adds.trans {b b' b'' : Builder} {strays strays' : Bool} (hg : Adds strays b b')
    (hg' : Adds strays' b' b'') : Adds (strays || strays') b b'' := by
  refine ⟨hg.nodes.trans hg'.nodes, fun id n hle hn => ?_, ?_⟩
  · by_cases hlt : id < b'.nodes.size
    · obtain ⟨n', hn', hd⟩ := hg'.nodes.draft id b'.nodes[id] (by simp [hlt])
      obtain rfl : n' = n := by simpa [hn] using hn'.symm
      rw [hd]
      exact hg.laid id b'.nodes[id] hle (by simp [hlt])
    · exact hg'.laid id n (by omega) hn
  · rw [hg'.error, hg.error, Bool.or_assoc]

namespace Grows

variable {b b' b'' : Builder} {strays strays' : Bool}

theorem refl (b : Builder) : Grows false b b := ⟨.refl b, .refl _⟩

theorem trans (hg : Grows strays b b') (hg' : Grows strays' b' b'') :
    Grows (strays || strays') b b'' :=
  ⟨hg.toAdds.trans hg'.toAdds, hg.scopes.trans hg'.scopes⟩

theorem pending_left (hg : Grows strays b b') (exits : List Exit) :
    Grows strays { b with pending := exits } b' :=
  ⟨⟨hg.nodes, hg.laid, hg.error⟩, hg.scopes⟩

theorem pending_right (hg : Grows strays b b') (exits : List Exit) :
    Grows strays b { b' with pending := exits } :=
  ⟨⟨hg.nodes, hg.laid, hg.error⟩, hg.scopes⟩

theorem inside_eq (hg : Grows strays b b') : b'.inside = b.inside := by
  have hs := hg.scopes
  rw [inside, inside]
  match b.scopes, b'.scopes, hs with
  | [], [], _ => rfl
  | _ :: _, _ :: _, _ => rfl

theorem innermostHeader_eq (hg : Grows strays b b') : b'.innermostHeader = b.innermostHeader :=
  hg.scopes.header_eq

theorem inLoop_eq (hg : Grows strays b b') : b'.inLoop = b.inLoop := by
  rw [inLoop, inLoop, hg.innermostHeader_eq]

theorem exists_scope (hg : Grows strays b b') {s : Scope} {rest : List Scope}
    (hs : b.scopes = s :: rest) : ∃ s', b'.scopes = s' :: rest ∧ s'.header = s.header := by
  have hg := hg.scopes
  rw [hs] at hg
  match b'.scopes, hg with
  | s' :: _, ⟨hh, _, hr⟩ => exact ⟨s', by rw [hr], hh⟩

/-- A scope that is entered is still the innermost one in the end. -/
theorem of_enter {header : Option Nat} (hg : Grows strays (b.enter header) b') :
    Adds strays b b' ∧ ∃ s, b'.scopes = s :: b.scopes ∧ s.header = header :=
  ⟨⟨hg.nodes, hg.laid, hg.error⟩, hg.exists_scope rfl⟩

end Grows

/-! ## The invariant -/

/-- The slots that leave the enclosing loops and switches. -/
def breaks (b : Builder) : List Exit := b.scopes.flatMap (·.breaks)

/-- The open slots are those of the current position, those that leave a scope, and those put aside. The
heads of the enclosing loops are there. -/
structure Accounts (b : Builder) (aside : List Exit) : Prop where
  held : Held b.nodes.size b.nodes (b.pending ++ (b.breaks ++ aside))
  header : ∀ s ∈ b.scopes, ∀ id ∈ s.header, id < b.nodes.size

section Accounts

variable {b : Builder} {aside : List Exit}

/-- Slots may change places between the current position and those put aside. -/
theorem Accounts.move (ha : Accounts b aside) (pending aside' : List Exit)
    (hp : (b.pending ++ aside).Perm (pending ++ aside')) :
    Accounts { b with pending := pending } aside' := by
  refine ⟨ha.held.perm ?_, ha.header⟩
  show (b.pending ++ (b.breaks ++ aside)).Perm (pending ++ (b.breaks ++ aside'))
  refine List.perm_iff_count.2 fun e => ?_
  have := List.perm_iff_count.1 hp e
  simp only [List.count_append] at this ⊢
  omega

theorem Accounts.perm (ha : Accounts b aside) {aside' : List Exit} (hp : aside.Perm aside') :
    Accounts b aside' :=
  ha.move b.pending aside' (hp.append_left b.pending)

theorem foldl_link (target : Nat) (es : List Exit) (b : Builder) :
    es.foldl (link · target) b = { b with nodes := es.foldl (linkNode target) b.nodes } := by
  induction es generalizing b with
  | nil => rfl
  | cons e es ih => rw [List.foldl_cons, ih]; rfl

theorem linkPending_eq (b : Builder) (target : Nat) :
    b.linkPending target =
      { b with nodes := b.pending.foldl (linkNode target) b.nodes, pending := [] } := by
  rw [linkPending, foldl_link]

/-- Linking the current position to a node leaves it unreachable. -/
theorem Accounts.linkPending (ha : Accounts b aside) {target : Nat} (ht : target < b.nodes.size) :
    Accounts (b.linkPending target) aside ∧ Grows false b (b.linkPending target) ∧
      ∀ e ∈ b.pending, Linked (b.linkPending target).nodes e target := by
  obtain ⟨hheld, hgrow, hlinked⟩ := ha.held.linkAll ht
  rw [linkPending_eq]
  refine ⟨⟨?_, fun s hs id hid => ?_⟩, ⟨⟨hgrow, fun id n hle hn => ?_, by simp⟩, .refl _⟩, hlinked⟩
  · show Held (b.pending.foldl (linkNode target) b.nodes).size _ (b.breaks ++ aside)
    rwa [size_foldl_linkNode]
  · simpa only [size_foldl_linkNode] using ha.header s hs id hid
  · have := (Array.getElem?_eq_some_iff.1 hn).1
    simp only [size_foldl_linkNode] at this
    omega

theorem place_eq (b : Builder) (draft : Draft) :
    b.place draft =
      { b with
        nodes := (b.pending.foldl (linkNode b.nodes.size) b.nodes).push
          { draft, links := List.replicate draft.slots [] }
        pending := exits b.nodes.size draft.slots } := by
  rw [place, linkPending_eq]

@[simp] theorem size_place (b : Builder) (draft : Draft) :
    (b.place draft).nodes.size = b.nodes.size + 1 := by
  rw [place_eq, Array.size_push, size_foldl_linkNode]

theorem getElem?_place (b : Builder) (draft : Draft) :
    (b.place draft).nodes[b.nodes.size]? = some { draft, links := List.replicate draft.slots [] } := by
  rw [place_eq]
  show (Array.push _ _)[b.nodes.size]? = _
  rw [Array.getElem?_push, size_foldl_linkNode, if_pos rfl]

/-- A node at the current position: what was pending leads to it, and its slots are pending then. -/
theorem Accounts.place (ha : Accounts b aside) (draft : Draft) :
    Accounts (b.place draft) aside ∧ NodesGrow b.nodes (b.place draft).nodes ∧
      ∀ e ∈ b.pending, Linked (b.place draft).nodes e b.nodes.size := by
  have hbound : Held (b.nodes.size + 1) b.nodes (b.pending ++ (b.breaks ++ aside)) :=
    ha.held.mono (by omega)
  obtain ⟨hheld, hgrow, hlinked⟩ := hbound.linkAll (show b.nodes.size < b.nodes.size + 1 by omega)
  have hpush := hheld.push draft
  rw [size_foldl_linkNode] at hpush
  have hgrow' := nodesGrow_push (b.pending.foldl (linkNode b.nodes.size) b.nodes)
    { draft, links := List.replicate draft.slots [] }
  refine ⟨⟨?_, fun s hs id hid => ?_⟩, ?_, fun e he => ?_⟩
  · rw [size_place, place_eq]
    exact hpush
  · rw [size_place]
    rw [place_eq] at hs
    exact Nat.lt_succ_of_lt (ha.header s hs id hid)
  · rw [place_eq]
    exact hgrow.trans hgrow'
  · rw [place_eq]
    exact hgrow'.linked e _ (hlinked e he)

theorem Accounts.place_grows (ha : Accounts b aside) (draft : Draft) (hd : draft.isLaid = true) :
    Grows false b (b.place draft) := by
  refine ⟨⟨(ha.place draft).2.1, fun id n hle hn => ?_, ?_⟩, ?_⟩
  · have hlt := (Array.getElem?_eq_some_iff.1 hn).1
    rw [size_place] at hlt
    obtain rfl : id = b.nodes.size := by omega
    rw [getElem?_place] at hn
    obtain rfl := Option.some.inj hn
    exact hd
  · rw [place_eq]
    simp
  · rw [place_eq]
    exact .refl _

theorem emit_eq (b : Builder) (draft : Draft) :
    b.emit draft = if 2 ≤ b.pending.length then (b.place (.op .merge)).place draft
      else b.place draft := by
  rw [emit]
  match b.pending with
  | [] => rfl
  | [_] => rfl
  | _ :: _ :: _ => simp

theorem emit_pending (b : Builder) (draft : Draft) :
    (b.emit draft).pending = exits (b.emit draft).last draft.slots := by
  rw [emit_eq]
  split <;> rw [last, size_place, place_eq] <;> simp

theorem Accounts.emit (ha : Accounts b aside) (draft : Draft) (hd : draft.isLaid = true) :
    Accounts (b.emit draft) aside ∧ Grows false b (b.emit draft) := by
  rw [emit_eq]
  split
  · have hm := (ha.place (.op .merge)).1
    exact ⟨(hm.place draft).1, (ha.place_grows _ rfl).trans (hm.place_grows draft hd)⟩
  · exact ⟨(ha.place draft).1, ha.place_grows draft hd⟩

theorem fail_error (b : Builder) (e : LayoutError) : (b.fail e).error.isSome = true := by
  rw [fail]
  split <;> simp_all

/-- An error changes nothing else. -/
theorem Accounts.fail (ha : Accounts b aside) (e : LayoutError) :
    Accounts (b.fail e) aside ∧ Grows true b (b.fail e) := by
  have hb : b.fail e = { b with error := (b.fail e).error } := by
    rw [Builder.fail]
    split <;> rfl
  rw [hb]
  exact ⟨⟨ha.held, ha.header⟩, ⟨(Adds.refl b).nodes, (Adds.refl b).laid, by simp [fail_error]⟩, .refl _⟩

end Accounts
end Builder

/-! ## Conditions -/

open Builder

/-- A condition leaves no current position: all slots of its nodes are among those where it holds and
those where it does not. -/
theorem Cond.lower_accounts {c : Cond} {b b' : Builder} {aside yes no : List Exit}
    (ha : Accounts b aside) (hl : c.lower b = ((yes, no), b')) :
    b'.pending = [] ∧ Accounts b' (yes ++ (no ++ aside)) ∧ Grows false b b' := by
  induction c generalizing b b' aside yes no with
  | test g =>
    obtain ⟨hacc, hgrow⟩ := ha.emit (.op (.branch g)) rfl
    simp only [lower, Prod.mk.injEq] at hl
    obtain ⟨⟨rfl, rfl⟩, rfl⟩ := hl
    refine ⟨rfl, hacc.move _ _ ?_, hgrow.pending_right []⟩
    rw [emit_pending]
    rfl
  | not c ih =>
    rcases hc : c.lower b with ⟨⟨cYes, cNo⟩, b₁⟩
    simp only [lower, hc, Prod.mk.injEq] at hl
    obtain ⟨⟨rfl, rfl⟩, rfl⟩ := hl
    obtain ⟨hpending, hacc, hgrow⟩ := ih ha hc
    refine ⟨hpending, hacc.perm (List.perm_iff_count.2 fun e => ?_), hgrow⟩
    simp only [List.count_append]
    omega
  | and left right ihl ihr =>
    rcases hleft : left.lower b with ⟨⟨leftYes, leftNo⟩, b₁⟩
    rcases hright : right.lower { b₁ with pending := leftYes } with ⟨⟨rightYes, rightNo⟩, b₂⟩
    simp only [lower, hleft, hright, Prod.mk.injEq] at hl
    obtain ⟨⟨rfl, rfl⟩, rfl⟩ := hl
    obtain ⟨hpending, hacc, hgrow⟩ := ihl ha hleft
    -- where the left side fails is put aside while the right side is laid out
    have hacc := hacc.move leftYes (leftNo ++ aside) (by simp [hpending])
    obtain ⟨hpending', hacc', hgrow'⟩ := ihr hacc hright
    refine ⟨hpending', hacc'.perm (List.perm_iff_count.2 fun e => ?_),
      (hgrow.pending_right _).trans hgrow'⟩
    simp only [List.count_append]
    omega
  | or left right ihl ihr =>
    rcases hleft : left.lower b with ⟨⟨leftYes, leftNo⟩, b₁⟩
    rcases hright : right.lower { b₁ with pending := leftNo } with ⟨⟨rightYes, rightNo⟩, b₂⟩
    simp only [lower, hleft, hright, Prod.mk.injEq] at hl
    obtain ⟨⟨rfl, rfl⟩, rfl⟩ := hl
    obtain ⟨hpending, hacc, hgrow⟩ := ihl ha hleft
    -- where the left side holds is put aside while the right side is laid out
    have hacc := hacc.move leftNo (leftYes ++ aside)
      (by simpa [hpending] using List.perm_append_comm_assoc leftYes leftNo aside)
    obtain ⟨hpending', hacc', hgrow'⟩ := ihr hacc hright
    refine ⟨hpending', hacc'.perm (List.perm_iff_count.2 fun e => ?_),
      (hgrow.pending_right _).trans hgrow'⟩
    simp only [List.count_append]
    omega

/-! ## Scopes around the current position -/

namespace Builder

variable {b : Builder} {aside : List Exit}

theorem Accounts.enter (ha : Accounts b aside) (header : Option Nat)
    (hh : ∀ id ∈ header, id < b.nodes.size) : Accounts (b.enter header) aside := by
  refine ⟨ha.held, fun s hs id hid => ?_⟩
  rcases List.mem_cons.1 hs with rfl | hs
  · exact hh id hid
  · exact ha.header s hs id hid

/-- The slots that leave a scope join the current position when it ends. -/
theorem Accounts.leaveScope {s : Scope} {rest : List Scope} (ha : Accounts b aside)
    (hs : b.scopes = s :: rest) {pending aside' : List Exit}
    (hp : (b.pending ++ s.breaks ++ aside).Perm (pending ++ aside')) :
    Accounts { b with scopes := rest, pending := pending } aside' := by
  refine ⟨ha.held.perm (List.perm_iff_count.2 fun e => ?_), fun s hs' => ha.header s (by simp [hs, hs'])⟩
  have := List.perm_iff_count.1 hp e
  simp only [breaks, hs, List.flatMap_cons, List.count_append] at this ⊢
  omega

/-- The current position leaves the innermost scope. -/
theorem Accounts.addBreaks {s : Scope} {rest : List Scope} (ha : Accounts b aside)
    (hs : b.scopes = s :: rest) :
    Accounts { b.addBreaks b.pending with pending := [] } aside ∧
      Grows false b (b.addBreaks b.pending) := by
  have heq : b.addBreaks b.pending =
      { b with scopes := { s with breaks := s.breaks ++ b.pending } :: rest } := by
    rw [Builder.addBreaks, hs]
  rw [heq]
  refine ⟨⟨ha.held.perm (List.perm_iff_count.2 fun e => ?_), fun s' hs' id hid => ?_⟩, ?_⟩
  · simp only [breaks, hs, List.flatMap_cons, List.count_append, List.count_nil]
    omega
  · rcases List.mem_cons.1 hs' with rfl | hs'
    · exact ha.header s (by simp [hs]) id hid
    · exact ha.header s' (by simp [hs, hs']) id hid
  · refine ⟨⟨.refl _, (Adds.refl b).laid, by simp⟩, ?_⟩
    rw [hs]
    exact ⟨rfl, List.prefix_append _ _, rfl⟩

theorem clauseExits_add (node first m n : Nat) :
    clauseExits node first (m + n) = clauseExits node first m ++ clauseExits node (first + m) n := by
  simp [clauseExits, List.range_add, Nat.add_assoc]

theorem exits_succ (node n : Nat) :
    exits node (n + 1) = clauseExits node 0 n ++ [{ node, slot := n }] := by
  simp [exits, clauseExits, List.range_succ]

end Builder

/-! ## Statements

Each compound statement is accounted for if the blocks in it are; the cases are lemmas of their own, and
`Stmt.lay_accounts` puts them together along the syntax. -/

/-- A layout accounts for every slot and only adds to the graph; `strays` says, for the scopes around it,
whether a jump in it is stray. -/
def Accounted (strays : Bool → Bool → Bool) (lay : Builder → Builder) : Prop :=
  ∀ (b : Builder) (aside : List Exit), Accounts b aside →
    Accounts (lay b) aside ∧ Grows (strays b.inside b.inLoop) b (lay b)

theorem isLaid_assign {name : String} (hname : name.isEmpty = false) (value : Value) (declare : Bool)
    (ascribed : Option Ty) : (Draft.assign name (some value) declare ascribed).isLaid = true := by
  simp [Draft.assign, hname, Draft.isLaid]

theorem declare_accounted {name : String} (hname : name.isEmpty = false) (ascribed : Option Ty)
    (value : Option Value) : Accounted (fun _ _ => false) (Stmt.declare name ascribed value).lay := by
  intro b aside ha
  obtain ⟨hacc, hgrow⟩ := ha.emit _ (isLaid_assign hname _ true ascribed)
  cases ascribed with
  | none => exact ⟨hacc, hgrow⟩
  | some t => exact ⟨⟨hacc.held, hacc.header⟩, ⟨hgrow.nodes, hgrow.laid, hgrow.error⟩, hgrow.scopes⟩

section Cond

variable {c : Cond} {b b₁ : Builder} {aside held failed : List Exit}

/-- Where the condition holds, the slots where it does not are put aside. -/
theorem held_stage (ha : Accounts b aside) (hc : c.lower b = ((held, failed), b₁)) :
    Accounts { b₁ with pending := held } (failed ++ aside) ∧
      Grows false b { b₁ with pending := held } := by
  obtain ⟨hpending, hacc, hgrow⟩ := Cond.lower_accounts ha hc
  exact ⟨hacc.move _ _ (by simp [hpending]), hgrow.pending_right held⟩

/-- Where it does not hold, what falls off the other block is put aside. -/
theorem failed_stage {yes : List Stmt} {strays : Bool → Bool → Bool}
    (hyes : Accounted strays (layAll yes)) (ha : Accounts b aside)
    (hc : c.lower b = ((held, failed), b₁)) :
    Accounts { layAll yes { b₁ with pending := held } with pending := failed }
        ((layAll yes { b₁ with pending := held }).pending ++ aside) ∧
      Grows (strays b.inside b.inLoop) b
        { layAll yes { b₁ with pending := held } with pending := failed } := by
  obtain ⟨hacc, hgrow⟩ := held_stage ha hc
  obtain ⟨hacc', hgrow'⟩ := hyes _ _ hacc
  have hgrow' := hgrow.trans hgrow'
  rw [hgrow.inside_eq, hgrow.inLoop_eq, Bool.false_or] at hgrow'
  exact ⟨hacc'.move _ _ (List.perm_append_comm_assoc _ _ _), hgrow'.pending_right failed⟩

theorem cond_accounted (c : Cond) {yes no : List Stmt}
    (hyes : Accounted (fun i l => Stmt.anyStray i l yes) (layAll yes))
    (hno : Accounted (fun i l => Stmt.anyStray i l no) (layAll no)) :
    Accounted (fun i l => Stmt.anyStray i l yes || Stmt.anyStray i l no)
      (Stmt.cond (some c) yes no).lay := by
  intro b aside ha
  rcases hc : c.lower b with ⟨⟨held, failed⟩, b₁⟩
  simp only [Stmt.lay, lowerCond, hc]
  obtain ⟨hacc, hgrow⟩ := failed_stage hyes ha hc
  generalize layAll yes { b₁ with pending := held } = b₂ at hacc hgrow ⊢
  obtain ⟨hacc', hgrow'⟩ := hno _ _ hacc
  have hgrow' := hgrow.trans hgrow'
  rw [hgrow.inside_eq, hgrow.inLoop_eq] at hgrow'
  refine ⟨hacc'.move _ _ (List.perm_iff_count.2 fun e => ?_), hgrow'.pending_right _⟩
  simp only [List.count_append]
  omega

end Cond

/-- The part of a loop before its body: the head, and the test if there is one. -/
def Builder.openLoop (b : Builder) (c : Option Cond) : List Exit × Builder :=
  match c with
  | none => ([], b.place (.op .merge))
  | some c =>
    let ((held, failed), b) := c.lower (b.place (.op .merge))
    (failed, { b with pending := held })

theorem Builder.Accounts.openLoop {b : Builder} {aside : List Exit} (ha : Accounts b aside)
    (c : Option Cond) :
    Accounts (b.openLoop c).2 ((b.openLoop c).1 ++ aside) ∧ Grows false b (b.openLoop c).2 ∧
      b.nodes.size < (b.openLoop c).2.nodes.size := by
  have hplace := (ha.place (.op .merge)).1
  have hgrow := ha.place_grows (.op .merge) rfl
  cases c with
  | none => exact ⟨hplace, hgrow, by simp [Builder.openLoop]⟩
  | some c =>
    rcases hc : c.lower (b.place (.op .merge)) with ⟨⟨held, failed⟩, b₁⟩
    simp only [Builder.openLoop, hc]
    obtain ⟨hpending, hacc, hgrow'⟩ := Cond.lower_accounts hplace hc
    refine ⟨hacc.move _ _ (by simp [hpending]), (hgrow.trans hgrow').pending_right _, ?_⟩
    have := hgrow'.nodes.size_le
    rw [size_place] at this
    exact this

theorem lay_loop (c : Option Cond) (body : List Stmt) (b : Builder) :
    (Stmt.loop c body).lay b =
      let (done, b₁) := b.openLoop c
      let b₂ := (layAll body (b₁.enter (some b.nodes.size))).linkPending b.nodes.size
      let (breaks, b₃) := b₂.leaveScope
      { b₃ with pending := done ++ breaks } := by
  cases c <;> simp [Stmt.lay, Builder.openLoop, last]

/-- The body of a loop is laid out with the loop around it. What falls off its end goes back to the head,
and what leaves it is pending after the loop. -/
theorem loop_stage (c : Option Cond) {body : List Stmt} {strays : Bool → Bool → Bool}
    (hbody : Accounted strays (layAll body)) {b : Builder} {aside : List Exit} (ha : Accounts b aside) :
    Accounts ((b.openLoop c).2.enter (some b.nodes.size)) ((b.openLoop c).1 ++ aside) ∧
      ∃ s, (layAll body ((b.openLoop c).2.enter (some b.nodes.size))).scopes =
          s :: (b.openLoop c).2.scopes ∧
        s.header = some b.nodes.size ∧
        b.nodes.size < (layAll body ((b.openLoop c).2.enter (some b.nodes.size))).nodes.size ∧
        (Stmt.loop c body).lay b =
          { (layAll body ((b.openLoop c).2.enter (some b.nodes.size))).linkPending b.nodes.size with
            scopes := (b.openLoop c).2.scopes
            pending := (b.openLoop c).1 ++ s.breaks } := by
  rw [lay_loop]
  obtain ⟨hacc, hgrow, hsize⟩ := ha.openLoop c
  generalize b.openLoop c = opened at hacc hgrow hsize ⊢
  obtain ⟨done, b₁⟩ := opened
  have hacc := hacc.enter (some b.nodes.size) (by simpa using hsize)
  obtain ⟨-, hgrow'⟩ := hbody _ _ hacc
  simp only at hacc hgrow' hsize ⊢
  generalize layAll body (b₁.enter (some b.nodes.size)) = b₂ at hgrow' ⊢
  obtain ⟨hadds, s, hs, hheader⟩ := hgrow'.of_enter
  have hle := hadds.nodes.size_le
  refine ⟨hacc, s, hs, hheader, by omega, ?_⟩
  have hscopes : (b₂.linkPending b.nodes.size).scopes = s :: b₁.scopes := by rw [linkPending_eq, hs]
  simp only [Builder.leaveScope, hscopes]

theorem loop_accounted (c : Option Cond) {body : List Stmt}
    (hbody : Accounted (fun i l => Stmt.anyStray i l body) (layAll body)) :
    Accounted (fun _ _ => Stmt.anyStray true true body) (Stmt.loop c body).lay := by
  intro b aside ha
  obtain ⟨hacc, s, hs, -, hsize, hlay⟩ := loop_stage c hbody ha
  rw [hlay]
  obtain ⟨-, hgrow₁, -⟩ := ha.openLoop c
  obtain ⟨hacc₂, hgrow₂⟩ := hbody _ _ hacc
  generalize b.openLoop c = opened at hacc₂ hgrow₁ hgrow₂ hs hsize ⊢
  obtain ⟨done, b₁⟩ := opened
  simp only at hacc₂ hgrow₁ hgrow₂ hs hsize ⊢
  generalize layAll body (b₁.enter (some b.nodes.size)) = b₂ at hacc₂ hgrow₂ hs hsize ⊢
  obtain ⟨hacc₃, hgrow₃, -⟩ := hacc₂.linkPending hsize
  have hscopes : (b₂.linkPending b.nodes.size).scopes = s :: b₁.scopes := by rw [linkPending_eq, hs]
  have hpending : (b₂.linkPending b.nodes.size).pending = [] := by rw [linkPending_eq]
  refine ⟨hacc₃.leaveScope hscopes (List.perm_iff_count.2 fun e => ?_), ⟨?_, hgrow₁.scopes⟩⟩
  · simp only [hpending, List.count_append, List.count_nil]
    omega
  · have hadds := (hgrow₁.toAdds.trans hgrow₂.of_enter.1).trans hgrow₃.toAdds
    rw [Bool.false_or, Bool.or_false] at hadds
    exact ⟨hadds.nodes, hadds.laid, hadds.error⟩

section Clauses

variable {b : Builder} {s : Scope} {scopes : List Scope} {aside : List Exit} {node first : Nat}
  {values : List Ty} {body : List Stmt} {rest : List (List Ty × List Stmt)}

/-- The slots of a clause are pending where it starts, those of the other clauses are put aside. -/
theorem clause_start
    (ha : Accounts { b with pending := [] }
      (clauseExits node first (((values, body) :: rest).flatMap (·.1)).length ++ aside)) :
    Accounts { b with pending := clauseExits node first values.length }
      (clauseExits node (first + values.length) (rest.flatMap (·.1)).length ++ aside) :=
  ha.move _ _ (by simp [clauseExits_add])

/-- What falls off the end of a clause leaves the switch. -/
theorem clause_stage (hbody : Accounted (fun i l => Stmt.anyStray i l body) (layAll body))
    (hs : b.scopes = s :: scopes)
    (ha : Accounts { b with pending := clauseExits node first values.length } aside) {b₁ : Builder}
    (hb : layAll body { b with pending := clauseExits node first values.length } = b₁) :
    Accounts { b₁.addBreaks b₁.pending with pending := [] } aside ∧
      Grows false b₁ (b₁.addBreaks b₁.pending) ∧
      Grows (Stmt.anyStray true b.inLoop body) b (b₁.addBreaks b₁.pending) ∧
      ∃ s', (b₁.addBreaks b₁.pending).scopes = s' :: scopes := by
  obtain ⟨hacc, hgrow⟩ := hbody _ _ ha
  have hinside : Builder.inside { b with pending := clauseExits node first values.length } = true := by
    simp [Builder.inside, hs]
  rw [hb, hinside] at hgrow
  rw [hb] at hacc
  obtain ⟨s₁, hs₁, -⟩ := hgrow.exists_scope hs
  obtain ⟨hacc', hgrow'⟩ := hacc.addBreaks hs₁
  obtain ⟨s₂, hs₂, -⟩ := hgrow'.exists_scope hs₁
  have htotal := (hgrow.trans hgrow').pending_left b.pending
  rw [Bool.or_false] at htotal
  exact ⟨hacc', hgrow', htotal, s₂, hs₂⟩

/-- The clauses of a switch take its slots one after the other. What the last clause leaves pending is
among the slots that leave the switch. -/
theorem clauses_accounted (clauses : List (List Ty × List Stmt))
    (hclauses : ∀ clause ∈ clauses, Accounted (fun i l => Stmt.anyStray i l clause.2) (layAll clause.2))
    (hs : b.scopes = s :: scopes) (ha : Accounts { b with pending := [] }
      (clauseExits node first (clauses.flatMap (·.1)).length ++ aside)) :
    Accounts { layClauses node first clauses b with pending := [] } aside ∧
      Grows (Stmt.clauseStray b.inLoop clauses) b (layClauses node first clauses b) := by
  induction clauses generalizing b s first with
  | nil => exact ⟨by simpa [clauseExits, layClauses] using ha, .refl b⟩
  | cons clause rest ih =>
    obtain ⟨values, body⟩ := clause
    obtain ⟨hacc, -, hgrow, s', hs'⟩ := clause_stage (hclauses _ List.mem_cons_self) hs
      (clause_start ha) rfl
    obtain ⟨hacc', hgrow'⟩ := ih (fun clause hmem => hclauses clause (List.mem_cons_of_mem _ hmem))
      hs' hacc
    rw [hgrow.inLoop_eq] at hgrow'
    exact ⟨hacc', hgrow.trans hgrow'⟩

end Clauses

/-- The part of a switch before its clauses. -/
def Builder.openSwitch (b : Builder) (site : SwitchSite) : Builder :=
  { b.emit (.op (.switch site)) with pending := [] }.enter none

/-- The default clause of a switch, or what stands for it. -/
def layDefault : Option (List Stmt) → Builder → Builder
  | none, b => b
  | some body, b => layAll body b

theorem lay_switch (v : String) (prop : Option Text) (clauses : List (List Ty × List Stmt))
    (default : Option (List Stmt)) (b : Builder) :
    (Stmt.switch v prop clauses default).lay b =
      let site := SwitchSite.ofClauses v prop clauses default
      let node := (b.emit (.op (.switch site))).last
      let b₁ := layClauses node 0 clauses (b.openSwitch site)
      let b₂ := layDefault default { b₁ with pending := [{ node, slot := site.cases.length }] }
      let (breaks, b₃) := b₂.leaveScope
      { b₃ with pending := b₃.pending ++ breaks } := by
  cases default <;> rfl

section Switch

variable {b : Builder} {aside : List Exit} {site : SwitchSite} {clauses : List (List Ty × List Stmt)}
  {default : Option (List Stmt)}

/-- The slots of a switch node are put aside for its clauses. -/
theorem openSwitch_accounts (ha : Accounts b aside) (site : SwitchSite) :
    Accounts (b.openSwitch site)
        (clauseExits (b.emit (.op (.switch site))).last 0 site.cases.length ++
          ({ node := (b.emit (.op (.switch site))).last, slot := site.cases.length } :: aside)) ∧
      Adds false b (b.openSwitch site) ∧ (b.openSwitch site).inLoop = b.inLoop := by
  obtain ⟨hacc, hgrow⟩ := ha.emit (.op (.switch site)) rfl
  have hslots := (emit_pending b (.op (.switch site))).trans (exits_succ _ site.cases.length)
  have hacc := hacc.move [] (_ ++ ({ node := _, slot := _ } :: aside))
    (by rw [hslots, List.append_assoc]; rfl)
  exact ⟨hacc.enter none (by simp), ⟨hgrow.nodes, hgrow.laid, hgrow.error⟩, hgrow.inLoop_eq⟩

/-- After the clauses the last slot is pending, for the default clause. -/
theorem default_stage
    (hclauses : ∀ clause ∈ clauses, Accounted (fun i l => Stmt.anyStray i l clause.2) (layAll clause.2))
    (hsite : site.cases = clauses.flatMap (·.1)) (ha : Accounts b aside) {node : Nat}
    (hnode : (b.emit (.op (.switch site))).last = node) :
    Accounts
        { layClauses node 0 clauses (b.openSwitch site) with
          pending := [{ node, slot := site.cases.length }] } aside ∧
      Grows (Stmt.clauseStray b.inLoop clauses) (b.openSwitch site)
        { layClauses node 0 clauses (b.openSwitch site) with
          pending := [{ node, slot := site.cases.length }] } := by
  obtain ⟨hacc, -, hinLoop⟩ := openSwitch_accounts ha site
  rw [hnode] at hacc
  rw [← hinLoop]
  obtain ⟨hacc', hgrow⟩ := clauses_accounted clauses (b := b.openSwitch site) hclauses rfl
    (hsite ▸ hacc)
  exact ⟨hacc'.move _ _ (by simp [hsite]), hgrow.pending_right _⟩

/-- What leaves the switch is pending after it, together with what falls off the default clause. -/
theorem switch_stage {v : String} {prop : Option Text} {b₁ b₂ : Builder} {strays : Bool} {node : Nat}
    (hsite : SwitchSite.ofClauses v prop clauses default = site)
    (hnode : (b.emit (.op (.switch site))).last = node)
    (hb₁ : layClauses node 0 clauses (b.openSwitch site) = b₁)
    (hb₂ : layDefault default { b₁ with pending := [{ node, slot := site.cases.length }] } = b₂)
    (hgrow : Grows strays (b.openSwitch site) b₂) :
    ∃ s, b₂.scopes = s :: (b.emit (.op (.switch site))).scopes ∧ s.header = none ∧
      (Stmt.switch v prop clauses default).lay b =
        { b₂ with
          scopes := (b.emit (.op (.switch site))).scopes
          pending := b₂.pending ++ s.breaks } := by
  obtain ⟨-, s, hs, hheader⟩ := hgrow.of_enter
  refine ⟨s, hs, hheader, ?_⟩
  simp only at hs
  rw [lay_switch]
  simp only [hsite, hnode, hb₁, hb₂, Builder.leaveScope, hs]

theorem switch_accounted (v : String) (prop : Option Text) {strays : Bool → Bool → Bool}
    (hclauses : ∀ clause ∈ clauses, Accounted (fun i l => Stmt.anyStray i l clause.2) (layAll clause.2))
    (hdefault : Accounted strays (layDefault default)) :
    Accounted (fun _ l => Stmt.clauseStray l clauses || strays true l)
      (Stmt.switch v prop clauses default).lay := by
  intro b aside ha
  generalize hsite : SwitchSite.ofClauses v prop clauses default = site
  have hcases : site.cases = clauses.flatMap (·.1) := by rw [← hsite]; rfl
  obtain ⟨-, hgrow₁⟩ := ha.emit (.op (.switch site)) rfl
  obtain ⟨-, hadds, hinLoop⟩ := openSwitch_accounts ha site
  obtain ⟨hacc, hgrow⟩ := default_stage hclauses hcases ha rfl
  obtain ⟨hacc', hgrow'⟩ := hdefault _ _ hacc
  have hgrow' := hgrow.trans hgrow'
  have hinside : (b.openSwitch site).inside = true := rfl
  rw [hgrow.inside_eq, hgrow.inLoop_eq, hinside, hinLoop] at hgrow'
  obtain ⟨s, hs, -, hlay⟩ := switch_stage hsite rfl rfl rfl hgrow'
  rw [hlay]
  refine ⟨hacc'.leaveScope hs (.refl _), ⟨?_, hgrow₁.scopes⟩⟩
  have hadds := hadds.trans hgrow'.toAdds
  rw [Bool.false_or] at hadds
  exact ⟨hadds.nodes, hadds.laid, hadds.error⟩

end Switch

theorem leave_accounted : Accounted (fun i _ => !i) Stmt.leave.lay := by
  intro b aside ha
  rw [Stmt.lay]
  cases hs : b.scopes with
  | nil => simpa [hs, Builder.inside] using ha.fail .leaveOutside
  | cons s rest =>
    obtain ⟨hacc, hgrow⟩ := ha.addBreaks hs
    simpa [hs, Builder.inside] using ⟨hacc, hgrow.pending_right []⟩

theorem again_accounted : Accounted (fun _ l => !l) Stmt.again.lay := by
  intro b aside ha
  rw [Stmt.lay]
  cases hheader : b.innermostHeader with
  | none => simpa [hheader, Builder.inLoop] using ha.fail .againOutside
  | some header =>
    obtain ⟨s, hs, hsome⟩ := List.exists_of_findSome?_eq_some hheader
    obtain ⟨hacc, hgrow, -⟩ := ha.linkPending (ha.header s hs header hsome)
    simpa [hheader, Builder.inLoop] using ⟨hacc, hgrow⟩

mutual
/-- Laying out a proper statement accounts for every slot, and only adds to the graph. -/
theorem Stmt.lay_accounts (s : Stmt) (hs : s.isProper = true) :
    Accounted (fun i l => s.isStray i l) s.lay := by
  match s with
  | .declare name ascribed value =>
    exact declare_accounted (by simpa [Stmt.isProper] using hs) ascribed value
  | .assign name none => simp [Stmt.isProper] at hs
  | .assign name (some value) =>
    exact fun b aside ha => ha.emit _ (isLaid_assign (by simpa [Stmt.isProper] using hs) value false none)
  | .call site => exact fun b aside ha => ha.emit _ rfl
  | .ret value => exact fun b aside ha => ha.emit _ rfl
  | .throw value => exact fun b aside ha => ha.emit _ rfl
  | .cond none yes no => simp [Stmt.isProper] at hs
  | .cond (some c) yes no =>
    simp only [Stmt.isProper, Option.isSome_some, Bool.true_and, Bool.and_eq_true] at hs
    exact cond_accounted c (layAll_accounts yes hs.1) (layAll_accounts no hs.2)
  | .loop c body => exact loop_accounted c (layAll_accounts body hs)
  | .switch v prop clauses none =>
    have hdefault : Accounted (fun _ _ => false) (layDefault none) := fun b aside ha => ⟨ha, .refl b⟩
    simpa only [Stmt.isStray, Bool.or_false] using
      switch_accounted v prop (layClauses_accounts clauses hs) hdefault
  | .switch v prop clauses (some body) =>
    simp only [Stmt.isProper, Bool.and_eq_true] at hs
    have hdefault : Accounted (fun i l => Stmt.anyStray i l body) (layDefault (some body)) :=
      layAll_accounts body hs.2
    exact switch_accounted v prop (layClauses_accounts clauses hs.1) hdefault
  | .leave => exact leave_accounted
  | .again => exact again_accounted

theorem layAll_accounts (body : List Stmt) (hb : Stmt.allProper body = true) :
    Accounted (fun i l => Stmt.anyStray i l body) (layAll body) := by
  match body with
  | [] => exact fun b aside ha => ⟨ha, .refl b⟩
  | s :: rest =>
    rw [Stmt.allProper, Bool.and_eq_true] at hb
    intro b aside ha
    obtain ⟨hacc, hgrow⟩ := s.lay_accounts hb.1 b aside ha
    obtain ⟨hacc', hgrow'⟩ := layAll_accounts rest hb.2 (s.lay b) aside hacc
    rw [hgrow.inside_eq, hgrow.inLoop_eq] at hgrow'
    exact ⟨hacc', hgrow.trans hgrow'⟩

theorem layClauses_accounts (clauses : List (List Ty × List Stmt))
    (hc : Stmt.clausesProper clauses = true) :
    ∀ clause ∈ clauses, Accounted (fun i l => Stmt.anyStray i l clause.2) (layAll clause.2) := by
  match clauses with
  | [] => simp
  | (values, body) :: rest =>
    rw [Stmt.clausesProper, Bool.and_eq_true] at hc
    intro clause hmem
    rcases List.mem_cons.1 hmem with rfl | hmem
    · exact layAll_accounts body hc.1
    · exact layClauses_accounts rest hc.2 clause hmem
end

end FlowTyping
