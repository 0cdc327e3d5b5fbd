import FlowTyping.Proofs.Flow.Headers
import FlowTyping.Proofs.Flow.Potential
import FlowTyping.Proofs.Guard.Sides

/-!
# When a pass settles

A pass goes on until no node waits. What keeps it from going on forever is widening, which needs
declared types that stay and variables that stay bound. Both can fail: a declaration without a written
type joins into the declared types whenever it is entered, and an edge that dies takes the variables
with it that it alone bound.

* **`Pass.settles_iff_steady`** — a pass settles exactly if it is steady from some step on. Loop headers
  use up their potential then; other nodes are entered only after nodes before them.
* **`Pass.unboundLoop_never_settles`** — a loop whose test keeps binding a variable and losing it again.
-/

namespace FlowTyping.Graph.Pass

open Ty Universe

variable {g : Graph} {s : Surroundings} {limit : Nat} {u : Universe} {p q : Moment} {id : Nat}

/-! ## Steps one after the other -/

variable {plan : Plan}

/-- The moment after a number of steps; `none` once no node is next. -/
def after (plan : Plan) (p : Moment) : Nat → Option Moment
  | 0 => some p
  | n + 1 => (after plan p n).bind fun q => q.step plan

theorem after_succ (p : Moment) (n : Nat) :
    after plan p (n + 1) = (p.step plan).bind fun q => after plan q n := by
  induction n with
  | zero =>
    rw [after, after, Option.bind_some]
    cases p.step plan <;> rfl
  | succ n ih =>
    rw [after, ih]
    cases p.step plan <;> rfl

/-- A run has a result when its steps come to an end within its fuel. -/
theorem isSome_run_iff (p : Moment) (fuel : Nat) :
    (p.run plan fuel).isSome = true ↔ after plan p (fuel + 1) = none := by
  induction fuel generalizing p with
  | zero =>
    rw [after, after, Option.bind_some, Moment.step_eq_none_iff, Moment.run_zero]
    cases p.next? plan <;> simp
  | succ fuel ih =>
    rw [after_succ, Moment.run_succ]
    cases p.step plan with
    | none => simp
    | some q => exact ih q

theorem settles_iff (p : Moment) :
    (∃ fuel, (p.run plan fuel).isSome = true) ↔ ∃ n, after plan p n = none := by
  constructor
  · rintro ⟨fuel, hf⟩
    exact ⟨fuel + 1, (isSome_run_iff p fuel).1 hf⟩
  · rintro ⟨n, hn⟩
    cases n with
    | zero => simp [after] at hn
    | succ n => exact ⟨n, (isSome_run_iff p n).2 hn⟩

theorem eventually_not {f : Nat → Nat} {E : Nat → Prop} {N : Nat}
    (hle : ∀ n, N ≤ n → f (n + 1) ≤ f n) (hlt : ∀ n, N ≤ n → E n → f (n + 1) < f n) :
    ∃ K, ∀ n, K ≤ n → ¬ E n := by
  generalize hm : f N = m
  induction m using Nat.strongRecOn generalizing N with
  | ind m ih =>
    subst hm
    by_cases hE : ∃ n, N ≤ n ∧ E n
    · obtain ⟨n, hn, hEn⟩ := hE
      have hmono (k : Nat) : f (N + k) ≤ f N := by
        induction k with
        | zero => exact Nat.le_refl _
        | succ k ihk => exact Nat.le_trans (hle (N + k) (by omega)) ihk
      have hfn : f n ≤ f N := by simpa [Nat.add_sub_cancel' hn] using hmono (n - N)
      have hless := hlt n hn hEn
      exact ih (f (n + 1)) (by omega) (fun k hk => hle k (by omega)) (fun k hk => hlt k (by omega)) rfl
    · exact ⟨N, fun n hn hEn => hE ⟨n, hn, hEn⟩⟩

theorem eventually_forall {α : Type} {Q : α → Nat → Prop} (xs : List α)
    (hx : ∀ x ∈ xs, ∃ K, ∀ n, K ≤ n → Q x n) : ∃ K, ∀ x ∈ xs, ∀ n, K ≤ n → Q x n := by
  induction xs with
  | nil => exact ⟨0, by simp⟩
  | cons x xs ih =>
    obtain ⟨K, hK⟩ := hx x (by simp)
    obtain ⟨K', hK'⟩ := ih fun y hy => hx y (by simp [hy])
    refine ⟨max K K', fun y hy n hn => ?_⟩
    rcases List.mem_cons.1 hy with rfl | hy
    · exact hK n (by omega)
    · exact hK' y hy n (by omega)

/-! ## Runs that never end -/

/-- A node is entered in a step of a run. -/
def EntersAt (plan : Plan) (P : Nat → Moment) (id n : Nat) : Prop :=
  (P n).next? plan = some id ∧ ∃ node env, Enters plan (P n) id node env (P (n + 1))

section Endless

variable {P : Nat → Moment} {K : Nat}

/-- A node that is no successor of one that is entered waits only if it waited before and was not
looked at. -/
theorem waited (hP : ∀ n, (P n).step plan = some (P (n + 1))) {n : Nat}
    (hno : ∀ pred, id ∈ plan.graph.succs pred → ¬ EntersAt plan P pred n)
    (hw : (P (n + 1)).waiting.contains id = true) :
    (P n).waiting.contains id = true ∧ (P n).next? plan ≠ some id := by
  obtain ⟨id', hnext, hcase⟩ := step_cases (hP n)
  have herase (hw : ((P n).waiting.erase id').contains id = true) :
      (P n).waiting.contains id = true ∧ (P n).next? plan ≠ some id := by
    rw [Std.HashSet.contains_erase, Bool.and_eq_true, Bool.not_eq_true', beq_eq_false_iff_ne] at hw
    exact ⟨hw.2, fun heq => hw.1 (by simpa [hnext] using heq)⟩
  rcases hcase with hpass | ⟨node, env, henter⟩
  · rw [hpass.pass] at hw
    exact herase hw
  · rw [henter.pass] at hw
    rcases record_waiting _ _ _ _ _ hw with hw | hsucc
    · exact herase hw
    · refine absurd ⟨hnext, node, env, henter⟩ (hno id' ?_)
      rw [succs, henter.node]
      exact hsucc

/-- A node whose predecessors are no longer entered is soon no longer looked at. -/
theorem eventually_not_next (id : Nat)
    (hP : ∀ n, (P n).step plan = some (P (n + 1)))
    (hno : ∀ n, K ≤ n → ∀ pred, id ∈ plan.graph.succs pred → ¬ EntersAt plan P pred n) :
    ∃ K', ∀ n, K' ≤ n → (P n).next? plan ≠ some id := by
  by_cases hvisit : ∃ n, K ≤ n ∧ (P n).next? plan = some id
  · obtain ⟨n, hn, hnext⟩ := hvisit
    have hidle (k : Nat) : (P (n + 1 + k)).waiting.contains id = false := by
      induction k with
      | zero =>
        rw [Bool.eq_false_iff]
        exact fun hw => (waited hP (hno n hn) hw).2 hnext
      | succ k ih =>
        rw [Bool.eq_false_iff]
        intro hw
        have := (waited hP (hno (n + 1 + k) (by omega)) hw).1
        simp [ih] at this
    refine ⟨n + 1, fun k hk hnext => ?_⟩
    have hwait := (next?_some hnext).2
    have hfalse := hidle (k - (n + 1))
    rw [Nat.add_sub_cancel' hk, hwait] at hfalse
    contradiction
  · exact ⟨K, fun n hn hnext => hvisit ⟨n, hn, hnext⟩⟩

/-- A loop header of a pass that stays steady is soon no longer entered. -/
theorem eventually_header {N : Nat}
    (hP : ∀ n, (P n).step (g.plan s limit) = some (P (n + 1)))
    (htidy : ∀ n, (P n).Tidy g) (hsteady : ∀ n, N ≤ n → Steady g (P n) (P (n + 1)))
    (hid : id ∈ g.loopHeaders) : ∃ K, ∀ n, K ≤ n → ¬ EntersAt (g.plan s limit) P id n := by
  have hlt (n : Nat) (hn : N ≤ n) {node : Node} {env : Env}
      (he : Enters (g.plan s limit) (P n) id node env (P (n + 1))) :
      potential g limit id (P (n + 1)) < potential g limit id (P n) :=
    potential_lt (htidy n) hid he (hsteady n hn)
  refine eventually_not (f := fun n => potential g limit id (P n)) (N := N) (fun n hn => ?_) ?_
  · obtain ⟨id', -, hcase⟩ := step_cases (hP n)
    rcases hcase with hpass | ⟨node, env, he⟩
    · refine Nat.le_of_eq (potential_eq (hsteady n hn) ?_ ?_)
      · rw [hpass.pass]
      · rw [hpass.pass]
    · by_cases heq : id' = id
      · subst heq
        exact Nat.le_of_lt (hlt n hn he)
      · have hne : (id' == id) = false := by simpa using heq
        refine Nat.le_of_eq (potential_eq (hsteady n hn) ?_ ?_)
        · rw [he.pass, record_entered, Std.HashMap.getElem?_insert, hne]
          rfl
        · rw [he.pass, record_visits, Std.HashMap.getD_insert, hne]
          rfl
  · rintro n hn ⟨-, node, env, he⟩
    exact hlt n hn he

/-- The position of a node in the order of a graph. -/
def position (g : Graph) (id : Nat) : Nat := (positions g.reversePostorder).getD id 0

/-- Edges lead forward, except to loop headers. -/
theorem position_lt {pred : Nat} (hid : id < g.size) (hh : id ∉ g.loopHeaders)
    (hpred : pred ∈ g.reversePostorder) (hs : id ∈ g.succs pred) :
    position g pred < position g id := by
  refine Nat.lt_of_not_le fun hle => hh ?_
  exact mem_loopHeaders_iff.2 ⟨hid, pred, hpred, hs, hle⟩

/-- No node of a pass that stays steady is entered forever: headers use up their potential, and the
other nodes are entered only after nodes before them. -/
theorem eventually_entered {N : Nat}
    (hP : ∀ n, (P n).step (g.plan s limit) = some (P (n + 1)))
    (htidy : ∀ n, (P n).Tidy g) (hsteady : ∀ n, N ≤ n → Steady g (P n) (P (n + 1))) (id : Nat) :
    ∃ K, ∀ n, K ≤ n → ¬ EntersAt (g.plan s limit) P id n := by
  generalize hpos : position g id = i
  induction i using Nat.strongRecOn generalizing id with
  | ind i ih =>
    subst hpos
    by_cases hh : id ∈ g.loopHeaders
    · exact eventually_header hP htidy hsteady hh
    · by_cases hlt : id < g.size
      · -- all predecessors that can be entered stand before it
        obtain ⟨K, hK⟩ := eventually_forall g.reversePostorder
          (Q := fun pred n => id ∈ g.succs pred → ¬ EntersAt (g.plan s limit) P pred n)
          fun pred hpred => by
            by_cases hsucc : id ∈ g.succs pred
            · obtain ⟨K, hK⟩ := ih _ (position_lt hlt hh hpred hsucc) pred rfl
              exact ⟨K, fun n hn _ => hK n hn⟩
            · exact ⟨0, fun n _ hsucc' => absurd hsucc' hsucc⟩
        obtain ⟨K', hK'⟩ := eventually_not_next id (K := K) hP fun n hn pred hsucc hat =>
          hK pred (next?_some hat.1).1 n hn hsucc hat
        exact ⟨K', fun n hn hat => hK' n hn hat.1⟩
      · refine ⟨0, fun n _ hat => hlt ?_⟩
        obtain ⟨-, node, env, he⟩ := hat
        exact (Array.getElem?_eq_some_iff.1 he.node).1

/-- A pass that stays steady does not go on forever. -/
theorem not_endless {N : Nat}
    (hP : ∀ n, (P n).step (g.plan s limit) = some (P (n + 1)))
    (htidy : ∀ n, (P n).Tidy g) (hsteady : ∀ n, N ≤ n → Steady g (P n) (P (n + 1))) : False := by
  obtain ⟨K, hK⟩ := eventually_forall g.reversePostorder
    (Q := fun id n => ¬ EntersAt (g.plan s limit) P id n)
    fun id _ => eventually_entered hP htidy hsteady id
  obtain ⟨K', hK'⟩ := eventually_forall g.reversePostorder
    (Q := fun id n => (P n).next? (g.plan s limit) ≠ some id) fun id _ =>
      eventually_not_next id (K := K) hP fun n hn pred _ hat =>
        hK pred (next?_some hat.1).1 n hn hat
  obtain ⟨id, hnext, -⟩ := step_cases (hP K')
  exact hK' id (next?_some hnext).1 K' (Nat.le_refl _) hnext

end Endless

/-! ## Settling -/

/-- **A pass settles exactly if it is steady from some step on**: the declared types do not change any
more, and no loop header loses a variable. Widening then brings it to an end, whatever the graph, the
functions, the predicates and the limit are, and whatever the universe holds and remembers. -/
theorem settles_iff_steady (u : Universe) (g : Graph) (s : Surroundings) (limit : Nat) :
    (∃ fuel, ((Moment.start g u).run (g.plan s limit) fuel).isSome = true) ↔
      ∃ N, ∀ n, N ≤ n → ∀ p q, after (g.plan s limit) (.start g u) n = some p →
        p.step (g.plan s limit) = some q → Steady g p q := by
  rw [settles_iff]
  constructor
  · rintro ⟨N, hN⟩
    refine ⟨N, fun n hn p q hp => ?_⟩
    have hnone (k : Nat) : after (g.plan s limit) (.start g u) (N + k) = none := by
      induction k with
      | zero => exact hN
      | succ k ih => rw [← Nat.add_assoc, after, ih, Option.bind_none]
    rw [← Nat.add_sub_cancel' hn, hnone] at hp
    simp at hp
  · rintro ⟨N, hN⟩
    -- were it never to end, it would be steady from `N` on, and no steady pass goes on forever
    refine Classical.byContradiction fun hno => ?_
    have hsome (n : Nat) : ∃ p, after (g.plan s limit) (.start g u) n = some p :=
      Option.ne_none_iff_exists'.1 fun hnone => hno ⟨n, hnone⟩
    obtain ⟨P, hP⟩ : ∃ P : Nat → Moment, ∀ n, after (g.plan s limit) (.start g u) n = some (P n) :=
      ⟨fun n => (hsome n).choose, fun n => (hsome n).choose_spec⟩
    have hstep (n : Nat) :
        (P n).step (g.plan s limit) = some (P (n + 1)) := by
      have := hP (n + 1)
      rwa [after, hP n, Option.bind_some] at this
    have htidy (n : Nat) : (P n).Tidy g := by
      induction n with
      | zero =>
        have hzero : Moment.start g u = P 0 := by simpa [after] using hP 0
        exact hzero ▸ tidy_start g
      | succ n ih => exact tidy_of_step ih (hstep n)
    exact not_endless hstep htidy fun n hn => hN n hn (P n) (P (n + 1)) (hP n) (hstep n)

/-! ## A loop that never settles -/

/-- The test `q === q`. -/
def selfTest : Guard := .equality .strictEq { var := "q" } (.var "q")

/-- A loop on `q === q` in a function that declares `q` as `null` but binds it only later. -/
def unboundLoop : Graph where
  name := "f"
  nodes := #[{ op := .entry, succs := [1] }, { op := .branch (some selfTest), succs := [2, 1] },
    { op := .exit, succs := [] }]
  entry := 0
  exit := 2
  params := []
  returns := none
  declared := { bindings := [("q", .null)] }

theorem unboundLoop_order : unboundLoop.reversePostorder = [0, 1, 2] := by
  simp [reversePostorder, search, unboundLoop, size, succs]

/-- What the test leaves: `q` is bound. -/
def tested : Env := { bindings := [("q", .null)] }

variable {h : Hierarchy}

/-- Where `q` is unbound, the test cannot tell anything, and binds `q` on both ways. -/
theorem yields_unbound (hu : u.Sound h) (s : Surroundings) :
    u.Yields h (transfer s none unboundLoop.declared (.branch (some selfTest)) {}) fun _ o =>
      o.outs = [some tested, some tested] ∧ o.declared = unboundLoop.declared := by
  have hnull : u.Stands .null .null := stands_atom hu (by simp [Ty.atoms])
  have hsplit : (selfTest.split s.preds (some ({} : Env).find?) .null : InUniverse Split) =
      pure (.unchanged .null (.unbound "q")) := rfl
  have hwithin : (Guard.withinInput .null (.unchanged .null (.unbound "q")) : Ideal h Split).run =
      { yes := .null, no := .null, degraded := true, reason := some (.unbound "q") } := by
    simp [Guard.withinInput, Split.unchanged]
  have hnarrow : u.YieldsSplit h (selfTest.narrow s.preds (some ({} : Env).find?) .null)
      (Guard.withinInput .null (.unchanged .null (.unbound "q")) : Ideal h Split).run := by
    rw [Guard.narrow, hsplit, pure_bind]
    exact yields_withinInput hnull (q := .unchanged .null (.unbound "q")) ⟨hnull, hnull, rfl⟩
  rw [hwithin] at hnarrow
  have hcurrent : (({} : Env).find? selfTest.target).getD (unbound unboundLoop.declared selfTest.target) = .null := rfl
  have hbind : narrowed {} selfTest.target .null = some tested := rfl
  have hbranch := yields_branch s none hcurrent hnarrow (by simp [Ty.atoms]) (by simp [Ty.atoms])
  simp only [hbind] at hbranch
  exact hbranch

/-- Where `q` is `null`, the test cannot fail. -/
theorem yields_tested (hu : u.Sound h) (s : Surroundings) :
    u.Yields h (transfer s none unboundLoop.declared (.branch (some selfTest)) tested) fun _ o =>
      o.outs = [some tested, none] ∧ o.declared = unboundLoop.declared := by
  have hnull : u.Stands .null .null := stands_atom hu (by simp [Ty.atoms])
  have hmeet : h.meet .null .null = .null :=
    Hierarchy.intersect_single (Hierarchy.conjunctsAll_pair rfl rfl) rfl rfl
  have hwithout : (Guard.without .null .null : Ideal h Ty).run = .never := by
    rw [Guard.run_without]
    rfl
  have hsplit : (selfTest.split s.preds (some tested.find?) .null : InUniverse Split) =
      Guard.splitEquality .strictEq none .null .null := rfl
  have hequality : (Guard.splitEquality .strictEq none .null .null : Ideal h Split).run =
      { yes := .null, no := .never } := by
    rw [Guard.run_splitEquality]
    simp [EqOp.negated, Guard.comparisonSides, Guard.looseRight, EqOp.loose, hmeet, hwithout]
  have hwithin : (Guard.withinInput .null { yes := .null, no := .never } : Ideal h Split).run =
      { yes := .null, no := .never } := by
    simp [Guard.withinInput]
  have hnarrow : u.YieldsSplit h (selfTest.narrow s.preds (some tested.find?) .null)
      (Guard.withinInput .null { yes := .null, no := .never } : Ideal h Split).run := by
    rw [Guard.narrow, hsplit]
    refine (yields_splitEquality .strictEq none hnull hnull).bind fun v made _ huv hmade => ?_
    rw [hequality] at hmade
    exact yields_withinInput (hnull.grows huv) hmade
  rw [hwithin] at hnarrow
  have hcurrent : (tested.find? selfTest.target).getD (unbound unboundLoop.declared selfTest.target) = .null := rfl
  have hbind : narrowed tested selfTest.target .null = some tested := rfl
  have hdead : narrowed tested selfTest.target .never = none := rfl
  have hbranch := yields_branch s none hcurrent hnarrow (by simp [Ty.atoms]) (by simp [Ty.atoms])
  simp only [hbind, hdead] at hbranch
  exact hbranch

/-- The loop is to be looked at next: what stands on its own edge, and how it was entered last. -/
structure Turning (h : Hierarchy) (p : Moment) (looped old : Option Env) : Prop where
  declared : p.declared = unboundLoop.declared
  into : p.edges[((0, 0) : Nat × Nat)]? = some ({} : Env)
  back : p.edges[((1, 1) : Nat × Nat)]? = looped
  entered : p.entered[1]? = old
  idle : p.waiting.contains 0 = false
  waits : p.waiting.contains 1 = true
  sound : p.store.Sound h

namespace Turning

variable {looped old : Option Env} {s : Surroundings}

theorem next (hp : Turning h p looped old) : p.next? (unboundLoop.plan s limit) = some 1 := by
  rw [next?, Graph.plan, unboundLoop_order, List.find?_cons, List.find?_cons, hp.idle, hp.waits]

theorem liveInto (hp : Turning h p looped old) :
    p.liveInto unboundLoop 1 = ({} : Env) :: looped.toList := by
  have hpred : unboundLoop.predecessors 1 = [0, 1] := rfl
  have hsucc : unboundLoop.succs 0 = [1] := rfl
  have hsucc' : unboundLoop.succs 1 = [2, 1] := rfl
  rw [Pass.liveInto, hpred]
  cases looped <;> simp [hsucc, hsucc', hp.into, hp.back]

/-- Entering the loop goes on to the opposite turn. -/
theorem enter (hp : Turning h p looped old) {env : Env} {v : Universe} {out : Option Env}
    (ha : (p.arriving (unboundLoop.plan s limit) 1).run p.store = (some env, v)) (hv : v.Sound h)
    (hst : p.stale 1 env = false)
    (ho : v.Yields h (transfer s none unboundLoop.declared (.branch (some selfTest)) env) fun _ o =>
      o.outs = [some tested, out] ∧ o.declared = unboundLoop.declared)
    (hnew : noted looped out ≠ looped) (hs : p.step (unboundLoop.plan s limit) = some q) :
    Turning h q (noted looped out) (some env) := by
  have harrival : p.arrival (unboundLoop.plan s limit) 1 = some env := congrArg Prod.fst ha
  have harrived : p.arrived (unboundLoop.plan s limit) 1 = v := congrArg Prod.snd ha
  obtain ⟨id, hnext, hcase⟩ := step_cases hs
  obtain rfl : 1 = id := by simpa [hp.next] using hnext
  rcases hcase with hpass | ⟨n, env', he⟩
  · -- the header is a node, and what arrives is new, so it is not passed over
    rcases hpass.cause env harrival with hnone | hstale
    · simp [Graph.plan, unboundLoop] at hnone
    · simp [hst] at hstale
  · obtain rfl : env = env' := by simpa [harrival] using he.arrives
    obtain rfl : { op := .branch (some selfTest), succs := [2, 1] } = n := by
      simpa [Graph.plan, unboundLoop] using he.node
    have hrun : (p.outcome (unboundLoop.plan s limit) 1 { op := .branch (some selfTest), succs := [2, 1] } env,
        p.left (unboundLoop.plan s limit) 1 { op := .branch (some selfTest), succs := [2, 1] } env) =
          (transfer s none unboundLoop.declared (.branch (some selfTest)) env : InUniverse Outcome).run v := by
      rw [Moment.outcome, Moment.left, harrived, hp.declared]
      rfl
    obtain ⟨hsound, -, houts, hdeclared⟩ := ho v hv (.refl h v)
    rw [← hrun] at hsound houts hdeclared
    have hafter := he.pass
    have hstore := he.store
    dsimp only at hsound houts hdeclared hafter hstore
    generalize p.outcome (unboundLoop.plan s limit) 1 { op := .branch (some selfTest), succs := [2, 1] } env = o
      at houts hdeclared hafter
    have hback : q.edges[((1, 1) : Nat × Nat)]? = noted looped out := by
      rw [hafter, record_edges, if_pos (by decide), ← hp.back, houts]
      rfl
    refine ⟨?_, ?_, hback, ?_, ?_, ?_, hstore ▸ hsound⟩
    · rw [hafter, record_declared, hdeclared]
    · rw [hafter, record_edges, if_neg (by decide)]
      exact hp.into
    · rw [hafter, record_entered, Std.HashMap.getElem?_insert_self]
    · rw [Bool.eq_false_iff, hafter]
      intro hw
      rcases record_waiting _ _ _ _ _ hw with hw | hw
      · simp [hp.idle] at hw
      · simp at hw
    · -- the header would be idle only if its back edge were as before
      cases hw : q.waiting.contains 1 with
      | true => rfl
      | false =>
        rw [hafter] at hw
        have hsame := record_unchanged _ _ _ _ _ (k := 1) (x := 1) rfl hw
        rw [← hafter, hback] at hsame
        exact absurd (hsame.trans hp.back) hnew

/-- The edge of the loop is live: `q` arrives bound, and the test kills the edge. -/
theorem kill (hp : Turning h p (some tested) (some {}))
    (hs : p.step (unboundLoop.plan s limit) = some q) :
    Turning h q none (some tested) := by
  have hnull : p.store.Stands .null .null := stands_atom hp.sound (by simp [Ty.atoms])
  obtain ⟨hv, -, hunion⟩ := yields_union (h := h) (.cons hnull (.cons hnull .nil)) p.store hp.sound (.refl h _)
  generalize hmade : (TypeStore.union [.null, .null] : InUniverse Ty).run p.store = made at hv hunion
  obtain ⟨met, v⟩ := made
  obtain rfl : met = .null := eq_of_key_eq_atom (by simp [Ty.atoms]) (hv.key_eq hunion.lookup?)
  -- the two ways into the loop are joined, and its header widens nothing
  have harriving : (p.arriving (unboundLoop.plan s limit) 1).run p.store = (some tested, v) := by
    have hincoming : (p.incoming unboundLoop 1 : InUniverse (Option Env)).run p.store = (some tested, v) := by
      rw [incoming, if_neg (by decide), hp.liveInto]
      show (do return some (← Env.joinAll [({} : Env), tested] (unbound p.declared)) :
        InUniverse (Option Env)).run p.store = _
      rw [Env.joinAll.eq_def, hp.declared]
      have hall : (Env.ofList ([({} : Env), tested].flatMap (·.bindings))).names = ["q"] := rfl
      have hnulls : [({} : Env), tested].map (fun e => (e.find? "q").getD
        (unbound unboundLoop.declared "q")) = [.null, .null] := rfl
      simp only [hall, Env.joinNames, hnulls, bind_assoc, pure_bind]
      rw [run_bind_of_run hmade]
      rfl
    rw [arriving, Graph.plan, run_bind_of_run hincoming, hp.entered]
    dsimp only
    rw [hp.declared]
    generalize hlimit : decide (limit ≤ p.visits.getD 1 0) = late
    split
    · cases late <;> rfl
    · rfl
  exact hp.enter harriving hv (by simp [stale, hp.entered]; rfl) (yields_tested hv s) (by simp [noted]) hs

/-- The edge of the loop is dead: `q` arrives unbound, and the test brings the edge to life. -/
theorem revive (hp : Turning h p none old) (hold : old = none ∨ old = some tested)
    (hs : p.step (unboundLoop.plan s limit) = some q) :
    Turning h q (some tested) (some {}) := by
  have harriving : (p.arriving (unboundLoop.plan s limit) 1).run p.store = (some {}, p.store) := by
    have hincoming : (p.incoming unboundLoop 1 : InUniverse (Option Env)).run p.store = (some {}, p.store) := by
      rw [incoming, if_neg (by decide), hp.liveInto]
      rfl
    rw [arriving, Graph.plan, run_bind_of_run hincoming, hp.entered]
    rcases hold with rfl | rfl
    · rfl
    · dsimp only
      split <;> rfl
  refine hp.enter harriving hp.sound ?_ (yields_unbound hp.sound s) (by simp [noted]) hs
  rcases hold with rfl | rfl
  · simp [stale, hp.entered]
  · simp [stale, hp.entered]
    rfl

end Turning

/-- The loop goes on and on: the test brings the edge of the loop to life where `q` is unbound, and
kills it where `q` is bound. -/
theorem run_turning {s : Surroundings} (fuel : Nat)
    (hp : Turning h p (some tested) (some {}) ∨
      ∃ old, (old = none ∨ old = some tested) ∧ Turning h p none old) :
    p.run (unboundLoop.plan s limit) fuel = none := by
  have hnext : p.next? (unboundLoop.plan s limit) = some 1 := by
    rcases hp with hp | ⟨old, -, hp⟩
    · exact hp.next
    · exact hp.next
  induction fuel generalizing p with
  | zero => rw [Moment.run_zero, hnext]; rfl
  | succ fuel ih =>
    rw [Moment.run_succ]
    cases hs : p.step (unboundLoop.plan s limit) with
    | none => simp [Moment.step_eq_none_iff, hnext] at hs
    | some q =>
      rcases hp with hp | ⟨old, hold, hp⟩
      · have hq := hp.kill hs
        exact ih (.inr ⟨_, .inr rfl, hq⟩) hq.next
      · have hq := hp.revive hold hs
        exact ih (.inl hq) hq.next

theorem next?_start (s : Surroundings) (limit : Nat) :
    (start unboundLoop).next? (unboundLoop.plan s limit) = some 0 := by
  have hwaits : (start unboundLoop).waiting.contains 0 = true := by simp [start, unboundLoop]
  rw [next?, Graph.plan, unboundLoop_order, List.find?_cons, hwaits]

/-- The first step enters the function. -/
theorem turning_of_start {s : Surroundings} (hu : u.Sound h)
    (hs : (Moment.start unboundLoop u).step (unboundLoop.plan s limit) = some q) :
    Turning h q none none := by
  obtain ⟨id, hnext, hcase⟩ := step_cases hs
  obtain rfl : 0 = id := by simpa [Moment.start, next?_start] using hnext
  have harriving : ((Moment.start unboundLoop u).arriving (unboundLoop.plan s limit) 0).run u = (some {}, u) := by
    have hincoming : ((start unboundLoop).incoming unboundLoop 0 : InUniverse (Option Env)).run u = (some {}, u) := rfl
    have hentered : (Moment.start unboundLoop u).entered[0]? = none := by simp [Moment.start, start]
    rw [arriving, Graph.plan]
    show ((start unboundLoop).incoming unboundLoop 0 >>= _ : InUniverse (Option Env)).run u = _
    rw [run_bind_of_run hincoming]
    dsimp only
    rw [hentered]
    rfl
  have harrival : (Moment.start unboundLoop u).arrival (unboundLoop.plan s limit) 0 = some {} :=
    congrArg Prod.fst harriving
  have harrived : (Moment.start unboundLoop u).arrived (unboundLoop.plan s limit) 0 = u :=
    congrArg Prod.snd harriving
  rcases hcase with hpass | ⟨n, env, he⟩
  · -- the entry is a node that was never entered, so it is not passed over
    rcases hpass.cause {} harrival with hnone | hstale
    · simp [Graph.plan, unboundLoop] at hnone
    · simp [stale, Moment.start, start] at hstale
  · obtain rfl : ({} : Env) = env := by simpa [harrival] using he.arrives
    obtain rfl : { op := .entry, succs := [1] } = n := by
      simpa [Graph.plan, unboundLoop] using he.node
    have hafter : q.toPass = { start unboundLoop with waiting := (start unboundLoop).waiting.erase 0 }.record
        0 [1] {} { outs := [some {}], declared := unboundLoop.declared } := he.pass
    have hstore : q.store = u := he.store.trans harrived
    refine ⟨?_, ?_, ?_, ?_, ?_, ?_, hstore ▸ hu⟩
    · rw [hafter, record_declared]
    · rw [hafter, record_edges, if_pos (by decide)]
      simp [start, noted]
    · rw [hafter, record_edges, if_neg (by decide)]
      simp [start]
    · rw [hafter, record_entered]
      simp [start]
    · rw [Bool.eq_false_iff, hafter]
      intro hw
      rcases record_waiting _ _ _ _ _ hw with hw | hw
      · simp [start, unboundLoop] at hw
      · simp at hw
    · cases hw : q.waiting.contains 1 with
      | true => rfl
      | false =>
        rw [hafter] at hw
        have hsame := record_unchanged _ _ _ _ _ (k := 0) (x := 1) rfl hw
        rw [record_edges, if_pos (by decide)] at hsame
        simp [start, noted] at hsame

/-- The loop as it would be written down. -/
def unboundLoopSketch : Sketch where
  name := "f"
  nodes := [some { id := 0, draft := .op .entry, succs := [1] },
    some { id := 1, draft := .op (.branch (some selfTest)), succs := [2, 1] },
    some { id := 2, draft := .op .exit, succs := [] }]
  entry := 0
  exit := 2
  params := []
  returns := none
  declared := { bindings := [("q", .null)] }

/-- A graph that passes its checks, and on which no pass ever settles, whatever the functions, the
predicates and the limit are, and in every sound universe. -/
theorem unboundLoop_never_settles :
    unboundLoopSketch.check = .ok unboundLoop ∧
      ∀ (h : Hierarchy) (u : Universe), u.Sound h → ∀ (s : Surroundings) (limit fuel : Nat),
        (Moment.start unboundLoop u).run (unboundLoop.plan s limit) fuel = none := by
  refine ⟨rfl, fun h u hu s limit fuel => ?_⟩
  have hnext : (Moment.start unboundLoop u).next? (unboundLoop.plan s limit) = some 0 := next?_start s limit
  cases fuel with
  | zero => rw [Moment.run_zero, hnext]; rfl
  | succ fuel =>
    rw [Moment.run_succ]
    cases hs : (Moment.start unboundLoop u).step (unboundLoop.plan s limit) with
    | none => simp [Moment.step_eq_none_iff, hnext] at hs
    | some q => exact run_turning fuel (.inr ⟨none, .inl rfl, turning_of_start hu hs⟩)

end FlowTyping.Graph.Pass
