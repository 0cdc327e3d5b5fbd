import FlowTyping.Proofs.Flow.History
import FlowTyping.Proofs.Relation.Hereditary
import FlowTyping.Proofs.Relation.Reorder
import FlowTyping.Proofs.Ty.Vars

/-!
# Type parameters in solved calls

The bindings of a call come from four sources: type arguments that are written, lower bounds found by
matching, the bound of a parameter, and `unknown`. The first two mention no type parameter if the
arguments do not; the bound of a parameter may mention another one, and it is taken as it stands.

* **`Ty.Closed`** — types without type parameters, and **`Ty.Outermost`** — the parameters that replacing
  reaches.
* **`Universe.bound_matchType`** — lower bounds are parts of arguments or unions of such.
* **`Universe.closed_rebuild`** — replacing all outermost parameters leaves none.
* **`Universe.History.solve_closed`** — a call is fully instantiated exactly if no bound that mentions a
  parameter had to be taken.
-/

namespace FlowTyping

open Ty

/-! ## Closed types -/

namespace Ty

variable {s t v : Ty}

/-- No type parameter occurs in the type. -/
abbrev Closed (t : Ty) : Prop := t.freeVars = []

theorem not_closed_var (name : String) (bound : Option Ty) : ¬ Closed (.var name bound) :=
  freeVars_var name bound

theorem Closed.not_var (ht : Closed t) (name : String) (bound : Option Ty) : t ≠ .var name bound := by
  rintro rfl
  exact not_closed_var name bound ht

/-- A type that is no parameter itself is closed if its parts are. -/
theorem closed_iff (hno : ∀ name bound, t ≠ .var name bound) : Closed t ↔ ∀ s ∈ t.parts, Closed s := by
  have hfold (ts : List Ty) : ts.foldl collectVars [] = [] ↔ ∀ s ∈ ts, Closed s := by
    induction ts with
    | nil => simp
    | cons s ts ih =>
      rw [List.foldl_cons, List.forall_mem_cons]
      constructor
      · intro hnone
        -- what is found in the first type stays found
        have hs : Closed s := List.eq_nil_iff_forall_not_mem.2 fun v hv => by
          have hmem := mem_foldl_collectVars hv ts
          rw [freeVars, hnone] at hmem
          exact List.not_mem_nil hmem
        rw [show collectVars [] s = [] from hs] at hnone
        exact ⟨hs, ih.1 hnone⟩
      · rintro ⟨hs, hts⟩
        rw [show collectVars [] s = [] from hs]
        exact ih.2 hts
  rw [Closed, freeVars, Mirroring.collectVars_parts [] hno]
  exact hfold t.parts

theorem Closed.part (ht : Closed t) (hs : s ∈ t.parts) : Closed s :=
  (closed_iff ht.not_var).1 ht s hs

theorem closed_object {tag : String} {props : List (Property Ty)} (hp : ∀ p ∈ props, Closed p.type) :
    Closed (.object tag props) := by
  refine (closed_iff (by simp)).2 fun s hs => ?_
  obtain ⟨p, hmem, rfl⟩ := List.mem_map.1 hs
  exact hp p hmem

theorem closed_hereditary : Hereditary Closed where
  part := Closed.part
  atom ht := by
    simp only [atoms, List.mem_cons, List.not_mem_nil, or_false] at ht
    rcases ht with rfl | rfl | rfl | rfl | rfl | rfl | rfl <;>
      exact (closed_iff (by simp)).2 fun _ hs => absurd hs (by simp [parts])
  literal _ := (closed_iff (by simp)).2 fun _ hs => absurd hs (by simp [parts])
  object _ hp := closed_object hp
  union hm := (closed_iff (by simp)).2 hm
  inter hm := (closed_iff (by simp)).2 hm

theorem closed_tuple {elems : List (Elem Ty)} {rest : Option Ty} (he : ∀ e ∈ elems, Closed e.type)
    (hr : ∀ t ∈ rest, Closed t) : Closed (.tuple elems rest) := by
  refine (closed_iff (by simp)).2 fun s hs => ?_
  rcases List.mem_append.1 hs with hs | hs
  · obtain ⟨e, hmem, rfl⟩ := List.mem_map.1 hs
    exact he e hmem
  · exact hr s (by simpa using hs)

theorem closed_function {params : List (Param Ty)} {ret : Ty} (hp : ∀ p ∈ params, Closed p.type)
    (hr : Closed ret) : Closed (.function params ret) := by
  refine (closed_iff (by simp)).2 fun s hs => ?_
  rcases List.mem_append.1 hs with hs | hs
  · obtain ⟨p, hmem, rfl⟩ := List.mem_map.1 hs
    exact hp p hmem
  · exact List.mem_singleton.1 hs ▸ hr

/-- A type parameter that stands in a type outside of all bounds. -/
inductive Outermost (v : Ty) : Ty → Prop where
  | self {name : String} {bound : Option Ty} (hv : v = .var name bound) : Outermost v v
  | part {s t : Ty} (hno : ∀ name bound, t ≠ .var name bound) (hs : s ∈ t.parts) (hv : Outermost v s) :
    Outermost v t

/-- An outermost parameter is among those that are collected. -/
theorem Outermost.mem_freeVars (hv : Outermost v t) : ∃ w ∈ t.freeVars, w.same v = true := by
  suffices hall : ∀ found, ∃ w ∈ collectVars found t, w.same v = true from hall []
  induction hv with
  | @self name bound hv =>
    subst hv
    intro found
    rw [Mirroring.collectVars_var]
    split
    · rename_i hfound
      exact List.any_eq_true.1 hfound
    · exact ⟨_, mem_foldl_collectVars (List.mem_cons_self ..) _, beq_self_eq_true _⟩
  | @part s t hno hs _ ih =>
    intro found
    obtain ⟨before, after, hparts⟩ := List.append_of_mem hs
    rw [Mirroring.collectVars_parts found hno, hparts, List.foldl_append, List.foldl_cons]
    obtain ⟨w, hw, hsame⟩ := ih (before.foldl collectVars found)
    exact ⟨w, mem_foldl_collectVars hw after, hsame⟩

theorem mem_parts_of_bound? {bound : Ty} (hbound : t.bound? = some bound) : bound ∈ t.parts := by
  cases t with
  | var name b => exact Option.mem_toList.2 hbound
  | _ => simp [Ty.bound?] at hbound

end Ty

/-! ## Signatures -/

namespace Signature

variable {sig : Signature} {bounds : Bounds} {v : Ty}

/-- Parameter types and result mention no type parameters but those of the signature. -/
def Scoped (sig : Signature) : Prop :=
  ∀ t ∈ sig.params.map (·.type) ++ [sig.ret], ∀ v ∈ t.freeVars, ∃ w ∈ sig.typeParams, w.same v = true

/-- Nothing gives the type parameter a lower bound, some parameter type mentions it, and its own bound,
which is taken then, mentions type parameters. -/
def Leaks (sig : Signature) (bounds : Bounds) (v : Ty) : Prop :=
  bounds.get? v = none ∧ sig.mentions v = true ∧ ∃ bound ∈ v.bound?, ¬ Closed bound

theorem Scoped.exists_same {t v : Ty} (hs : sig.Scoped) (ht : t ∈ sig.params.map (·.type) ++ [sig.ret])
    (hv : Outermost v t) : ∃ w ∈ sig.typeParams, w.same v = true := by
  obtain ⟨w, hw, hwv⟩ := hv.mem_freeVars
  obtain ⟨x, hx, hxw⟩ := hs t ht w hw
  refine ⟨x, hx, ?_⟩
  rw [Ty.same, beq_iff_eq] at hxw hwv ⊢
  exact hxw.trans hwv

end Signature

/-! ## Closed entries -/

namespace Universe

variable {h : Hierarchy} {u v : Universe} {r s t : Ty} {ts : List Ty}

/-- An entry without type parameters. -/
def KeepsClosed (u : Universe) (t : Ty) : Prop := u.Keeps t ∧ Closed t

/-- The computation answers an entry without type parameters. -/
abbrev AnswersClosed (h : Hierarchy) (u : Universe) (x : InUniverse Ty) : Prop :=
  u.Yields h x fun v r => v.KeepsClosed r

theorem KeepsClosed.grows (ht : u.KeepsClosed t) (huv : u.Grows h v) : v.KeepsClosed t :=
  ⟨huv.keeps ht.1, ht.2⟩

theorem Sound.closed_part (hu : u.Sound h) (ht : u.KeepsClosed t) (hs : s ∈ t.parts) : u.KeepsClosed s :=
  ⟨hu.part ht.1 s hs, ht.2.part hs⟩

theorem Sound.closed_members (hu : u.Sound h) (ht : u.KeepsClosed t) (hs : s ∈ t.members) :
    u.KeepsClosed s :=
  ⟨hu.keeps_members ht.1 hs, of_mem_members ht.2 (fun _ => ht.2.part) hs⟩

theorem Sound.closed_atom (hu : u.Sound h) (ht : t ∈ atoms) : u.KeepsClosed t :=
  ⟨hu.atom ht, closed_hereditary.atom ht⟩

/-- The tree that is kept for a closed type is closed. -/
theorem Sound.closed_of_stands (hu : u.Sound h) (hs : u.Stands r t) (ht : Closed t) : u.KeepsClosed r := by
  refine ⟨hu.keeps_of_stands hs, List.isEmpty_iff.1 ?_⟩
  rw [hu.mirroring.freeVars_isEmpty_eq hs, ht, List.isEmpty_nil]

theorem Yields.closed {x : InUniverse Ty} (hx : u.Yields h x fun v r => v.Stands r t) (ht : Closed t) :
    u.AnswersClosed h x :=
  hx.imp fun _ _ hv _ hs => hv.closed_of_stands hs ht

theorem closed_self (ht : u.KeepsClosed t) : u.AnswersClosed h (pure t) :=
  .pure fun _ _ huv => ht.grows huv

theorem closed_union (hts : ∀ t ∈ ts, u.KeepsClosed t) : u.AnswersClosed h (TypeStore.union ts) :=
  .of_sound fun _ hv huv => (yields_union (hv.stands_all fun t ht => huv.keeps (hts t ht).1)).closed
    (Hierarchy.union_hereditary closed_hereditary fun t ht => (hts t ht).2)

theorem closed_intersect (hts : ∀ t ∈ ts, u.KeepsClosed t) : u.AnswersClosed h (TypeStore.intersect ts) :=
  .of_sound fun _ hv huv => (yields_intersect (hv.stands_all fun t ht => huv.keeps (hts t ht).1)).closed
    (Hierarchy.intersect_hereditary closed_hereditary fun t ht => (hts t ht).2)

theorem closed_propertyOf (ht : u.KeepsClosed t) (name : Text) :
    u.Yields h (TypeStore.propertyOf t name) fun v found => ∀ p ∈ found, v.KeepsClosed p.type := by
  refine .of_sound fun v hv huv => ?_
  refine (yields_propertyOf (hv.stands (huv.keeps ht.1)) name).imp fun w found hw _ hfound p hp => ?_
  have hclosed {q : Property Ty} (hq : h.propertyOf t name = some q) : Closed q.type :=
    Hierarchy.propertyOf_hereditary closed_hereditary ht.2 hq
  generalize h.propertyOf t name = found' at hfound hclosed
  cases hfound with
  | none => simp at hp
  | some hmirrors =>
    obtain rfl := Option.some.inj hp
    exact hw.closed_of_stands hmirrors.type (hclosed rfl)

/-- Asking about entries tells something and changes no entry. -/
theorem asks_subtype (hs : u.Keeps s) (ht : u.Keeps t) :
    u.Yields h (TypeStore.subtype s t) fun _ _ => True :=
  .of_sound fun _ hv huv => (says_subtype (hv.stands (huv.keeps hs)) (hv.stands (huv.keeps ht))).imp
    fun _ _ _ _ _ => trivial

/-! ## Lower bounds -/

variable {vars members : List Ty} {arg param : Ty} {bounds : Bounds}

/-- All types that are bound are closed entries. -/
def KeepsBound (u : Universe) (bounds : Bounds) : Prop := ∀ b ∈ bounds, u.KeepsClosed b.type

/-- The computation ends with closed bounds. -/
abbrev AnswersBound (h : Hierarchy) (u : Universe) (x : InUniverse Bounds) : Prop :=
  u.Yields h x fun v bounds => v.KeepsBound bounds

theorem KeepsBound.grows (hb : u.KeepsBound bounds) (huv : u.Grows h v) : v.KeepsBound bounds :=
  fun b hmem => (hb b hmem).grows huv

theorem KeepsBound.add (hb : u.KeepsBound bounds) (param : Ty) (ht : u.KeepsClosed t) :
    u.KeepsBound (bounds.add param t) := by
  intro b hmem
  rcases List.mem_append.1 hmem with hmem | hmem
  · exact hb b (List.mem_filter.1 hmem).1
  · exact List.mem_singleton.1 hmem ▸ ht

theorem KeepsBound.get? (hb : u.KeepsBound bounds) (hget : bounds.get? param = some t) :
    u.KeepsClosed t := by
  obtain ⟨b, hfind, rfl⟩ := Option.map_eq_some_iff.1 hget
  exact hb b (List.mem_of_find?_eq_some hfind)

theorem bound_self (hb : u.KeepsBound bounds) : u.AnswersBound h (pure bounds) :=
  .pure fun _ _ huv => hb.grows huv

theorem bound_raise (hb : u.KeepsBound bounds) (param : Ty) (ht : u.KeepsClosed t) :
    u.AnswersBound h (bounds.raise param t) := by
  rw [Bounds.raise]
  cases hget : bounds.get? param with
  | none => exact bound_self (hb.add param ht)
  | some prev =>
    refine (closed_union fun s hs => ?_).bind fun v joined _ huv hjoined => ?_
    · rcases (by simpa using hs : s = prev ∨ s = t) with rfl | rfl
      · exact hb.get? hget
      · exact ht
    · exact bound_self ((hb.grows huv).add param hjoined)

open Signature

theorem bound_matchUnion (hm : ∀ m ∈ members, u.Keeps m) (ha : u.KeepsClosed arg)
    (hb : u.KeepsBound bounds) : u.AnswersBound h (matchUnion vars members arg bounds) := by
  refine .of_sound fun v hv huv => ?_
  have ha := ha.grows huv
  have hb := hb.grows huv
  rw [matchUnion.eq_def]
  split
  · have hfixed (f) (hf : f ∈ members.filter (!isOneOf vars ·)) : v.Keeps f :=
      huv.keeps (hm f (List.mem_filter.1 hf).1)
    have hask (t) (ht : t ∈ arg.members) : v.Yields h
        (do return !(← (members.filter (!isOneOf vars ·)).anyM fun f => TypeStore.subtype t f))
        fun _ _ => True := by
      have hstands := hv.stands_all hfixed
      have hself := hv.stands (hv.closed_members ha ht).1
      exact Yields.bind (Says.anyM hstands fun f _ f' _ hf => says_subtype hself hf) fun _ _ _ _ _ =>
        .pure fun _ _ _ => trivial
    refine (Yields.filterM hask).bind fun w left hw hvw hleft => ?_
    refine (closed_union fun t ht => hw.closed_members (ha.grows hvw) (hleft ht)).bind ?_
    intro w' rest _ hww' hrest
    have hb := (hb.grows hvw).grows hww'
    split
    · exact bound_self hb
    · exact bound_raise hb _ hrest
  · exact bound_self hb

/-- Matching a parameter type against closed arguments leaves closed bounds, in whichever universe. -/
def MatchesClosed (h : Hierarchy) (vars : List Ty) (param : Ty) : Prop :=
  ∀ {u : Universe} {arg : Ty} {bounds : Bounds}, u.Keeps param → u.KeepsClosed arg → u.KeepsBound bounds →
    u.AnswersBound h (matchType vars param arg bounds)

theorem bound_matchMembers (heach : ∀ m ∈ members, MatchesClosed h vars m)
    (hm : ∀ m ∈ members, u.Keeps m) (ha : u.KeepsClosed arg) (hb : u.KeepsBound bounds) :
    u.AnswersBound h (matchMembers vars members arg bounds) := by
  induction members generalizing u bounds with
  | nil =>
    rw [matchMembers]
    exact bound_self hb
  | cons m ms ih =>
    rw [matchMembers]
    refine (heach m (by simp) (hm m (by simp)) ha hb).bind fun v bounds _ huv hb => ?_
    exact ih (fun m hm => heach m (by simp [hm])) (fun x hx => huv.keeps (hm x (by simp [hx])))
      (ha.grows huv) hb

theorem bound_matchElems {elems args : List (Elem Ty)} {rest : Option Ty}
    (heach : ∀ e ∈ elems, MatchesClosed h vars e.type) (he : ∀ e ∈ elems, u.Keeps e.type)
    (ha : ∀ e ∈ args, u.KeepsClosed e.type) (hr : ∀ t ∈ rest, u.KeepsClosed t)
    (hb : u.KeepsBound bounds) : u.AnswersBound h (matchElems vars elems args rest bounds) := by
  induction elems generalizing u args bounds with
  | nil =>
    rw [matchElems]
    exact bound_self hb
  | cons e elems ih =>
    have hrest {args : List (Elem Ty)} (ha : ∀ e ∈ args, u.KeepsClosed e.type) {t : Ty}
        (ht : u.KeepsClosed t) :
        u.AnswersBound h (matchType vars e.type t bounds >>= matchElems vars elems args rest) := by
      refine (heach e (by simp) (he e (by simp)) ht hb).bind fun v bounds _ huv hb => ?_
      exact ih (fun e he => heach e (by simp [he])) (fun x hx => huv.keeps (he x (by simp [hx])))
        (fun x hx => (ha x hx).grows huv) (fun x hx => (hr x hx).grows huv) hb
    cases args with
    | cons a args =>
      rw [matchElems]
      exact hrest (fun x hx => ha x (by simp [hx])) (ha a (by simp))
    | nil =>
      cases rest with
      | none =>
        rw [matchElems]
        exact bound_self hb
      | some r =>
        rw [matchElems]
        exact hrest (by simp) (hr r rfl)

theorem bound_matchProps {props : List (Property Ty)} (heach : ∀ p ∈ props, MatchesClosed h vars p.type)
    (hp : ∀ p ∈ props, u.Keeps p.type) (ha : u.KeepsClosed arg) (hb : u.KeepsBound bounds) :
    u.AnswersBound h (matchProps vars props arg bounds) := by
  induction props generalizing u bounds with
  | nil =>
    rw [matchProps]
    exact bound_self hb
  | cons p props ih =>
    have hrest {v : Universe} (huv : u.Grows h v) {bounds : Bounds} (hb : v.KeepsBound bounds) :
        v.AnswersBound h (matchProps vars props arg bounds) :=
      ih (fun p hp => heach p (by simp [hp])) (fun q hq => huv.keeps (hp q (by simp [hq])))
        (ha.grows huv) hb
    rw [matchProps]
    refine (closed_propertyOf ha p.name).bind fun v found _ huv hfound => ?_
    cases found with
    | none => exact hrest huv (hb.grows huv)
    | some q =>
      refine (heach p (by simp) (huv.keeps (hp p (by simp))) (hfound q rfl) (hb.grows huv)).bind ?_
      exact fun w bounds _ hvw hb => hrest (huv.trans hvw) hb

theorem bound_matchParams {params args : List (Param Ty)}
    (heach : ∀ p ∈ params, MatchesClosed h vars p.type) (hp : ∀ p ∈ params, u.Keeps p.type)
    (ha : ∀ p ∈ args, u.KeepsClosed p.type) (hb : u.KeepsBound bounds) :
    u.AnswersBound h (matchParams vars params args bounds) := by
  induction params generalizing u args bounds with
  | nil =>
    rw [matchParams.eq_def]
    exact bound_self hb
  | cons p params ih =>
    cases args with
    | nil =>
      rw [matchParams.eq_def]
      exact bound_self hb
    | cons a args =>
      rw [matchParams]
      refine (heach p (by simp) (hp p (by simp)) (ha a (by simp)) hb).bind fun v bounds _ huv hb => ?_
      exact ih (fun p hp => heach p (by simp [hp])) (fun q hq => huv.keeps (hp q (by simp [hq])))
        (fun q hq => (ha q (by simp [hq])).grows huv) hb

/-- The parts of an argument are matched one after the other. -/
theorem bound_eachPart (ha : u.KeepsClosed arg) (hb : u.KeepsBound bounds)
    {f : Bounds → Ty → InUniverse Bounds}
    (hf : ∀ (v : Universe) (part : Ty) (bounds : Bounds), v.Sound h → u.Grows h v → v.KeepsClosed part →
      v.KeepsBound bounds → v.AnswersBound h (f bounds part)) :
    u.AnswersBound h ((matchedParts arg).foldlM f bounds) := by
  refine .of_sound fun v hv huv => ?_
  have hparts : ∀ part ∈ matchedParts arg, v.KeepsClosed part := by
    intro part hp
    have ha := ha.grows huv
    cases arg with
    | union ms => exact hv.closed_part ha hp
    | _ => exact List.mem_singleton.1 hp ▸ ha
  refine .foldlM (P := KeepsBound) (fun hvw hb => hb.grows hvw) (hb.grows huv) ?_
  exact fun part hp w bounds hw hvw hb => hf w part bounds hw (huv.trans hvw) ((hparts part hp).grows hvw) hb

/-- **Lower bounds come from the arguments.** The induction is on the parameter type; the argument is taken
apart along with it. -/
theorem bound_matchType (hp : u.Keeps param) (ha : u.KeepsClosed arg) (hb : u.KeepsBound bounds) :
    u.AnswersBound h (matchType vars param arg bounds) := by
  suffices hmatches : MatchesClosed h vars param from hmatches hp ha hb
  clear hp ha hb
  induction param using parts_induction with
  | step param ih =>
    intro u arg bounds hp ha hb
    refine .of_sound fun v hv huv => ?_
    replace hp := huv.keeps hp
    replace ha := ha.grows huv
    replace hb := hb.grows huv
    have hpart := hv.part hp
    cases param with
    | var name bound =>
      rw [matchType]
      split
      · exact bound_raise hb _ ha
      · exact bound_self hb
    | union ms =>
      rw [matchType]
      split
      · exact bound_self hb
      · exact bound_matchUnion hpart ha hb
    | inter ms =>
      rw [matchType]
      split
      · exact bound_self hb
      · exact bound_eachPart ha hb fun w part bounds _ hvw hpart' hb =>
          bound_matchMembers ih (fun m hm => hvw.keeps (hpart m hm)) hpart' hb
    | object tag props =>
      rw [matchType]
      split
      · exact bound_self hb
      · refine bound_eachPart ha hb fun w part bounds _ hvw hpart' hb => ?_
        exact bound_matchProps (fun p hp => ih _ (List.mem_map_of_mem hp))
          (fun p hp => hvw.keeps (hpart _ (List.mem_map_of_mem hp))) hpart' hb
    | function params ret =>
      have hparam {p : Param Ty} (hp : p ∈ params) : p.type ∈ (Ty.function params ret).parts :=
        List.mem_append_left _ (List.mem_map_of_mem hp)
      have hret : ret ∈ (Ty.function params ret).parts := List.mem_append_right _ (by simp)
      rw [matchType]
      split
      · exact bound_self hb
      · refine bound_eachPart ha hb fun w part bounds hw hvw hpart' hb => ?_
        split
        · rename_i args argRet
          refine (bound_matchParams (fun p hp => ih _ (hparam hp)) (fun p hp => hvw.keeps (hpart _ (hparam hp)))
            (fun p hp => hw.closed_part hpart' (List.mem_append_left _ (List.mem_map_of_mem hp))) hb).bind ?_
          intro w' bounds _ hww' hb
          exact ih ret hret (hww'.keeps (hvw.keeps (hpart ret hret)))
            ((hw.closed_part hpart' (List.mem_append_right _ (by simp))).grows hww') hb
        · exact bound_self hb
    | tuple elems rest =>
      have helem {e : Elem Ty} (he : e ∈ elems) : e.type ∈ (Ty.tuple elems rest).parts :=
        List.mem_append_left _ (List.mem_map_of_mem he)
      have hfront {w : Universe} (hvw : v.Grows h w) (hw : w.Sound h) {args : List (Elem Ty)}
          {argRest : Option Ty} (hargs : w.KeepsClosed (.tuple args argRest)) {bounds : Bounds}
          (hb : w.KeepsBound bounds) : w.AnswersBound h (matchElems vars elems args argRest bounds) :=
        bound_matchElems (fun e he => ih _ (helem he)) (fun e he => hvw.keeps (hpart _ (helem he)))
          (fun e he => hw.closed_part hargs (List.mem_append_left _ (List.mem_map_of_mem he)))
          (fun t ht => hw.closed_part hargs (List.mem_append_right _ (by simpa using ht))) hb
      cases rest with
      | none =>
        rw [matchType]
        split
        · exact bound_self hb
        · refine bound_eachPart ha hb fun w part bounds hw hvw hpart' hb => ?_
          split
          · exact hfront hvw hw hpart' hb
          · exact bound_self hb
      | some rest =>
        have hrest : rest ∈ (Ty.tuple elems (some rest)).parts := List.mem_append_right _ (by simp)
        rw [matchType]
        split
        · exact bound_self hb
        · refine bound_eachPart ha hb fun w part bounds hw hvw hpart' hb => ?_
          split
          · rename_i args argRest
            -- the elements, what the argument has beyond them, and its rest
            refine (hfront hvw hw hpart' hb).bind fun w₁ bounds hw₁ h₁ hb => ?_
            refine (Yields.foldlM (P := KeepsBound) (fun hvw hb => hb.grows hvw) hb ?_).bind ?_
            · intro e he w₂ bounds hw₂ h₂ hb
              refine ih rest hrest (((hvw.trans h₁).trans h₂).keeps (hpart rest hrest)) ?_ hb
              have hmem := List.mem_map_of_mem (f := Elem.type) (List.mem_of_mem_drop he)
              exact (hw.closed_part hpart' (List.mem_append_left _ hmem)).grows (h₁.trans h₂)
            · intro w₂ bounds hw₂ h₂ hb
              cases argRest with
              | none => exact bound_self hb
              | some argRest =>
                refine ih rest hrest (((hvw.trans h₁).trans h₂).keeps (hpart rest hrest)) ?_ hb
                exact (hw.closed_part hpart' (List.mem_append_right _ (by simp))).grows (h₁.trans h₂)
          · exact bound_self hb
    | _ =>
      rw [matchType.eq_def]
      exact bound_self hb

/-! ## Solving -/

variable {sig : Signature} {args explicit vs : List Ty}

theorem Sound.keeps_paramType? (hu : u.Sound h) (hs : ∀ t ∈ sig.types, u.Keeps t) {i : Nat}
    (hparam : sig.paramType? i = some param) : u.Keeps param := by
  have hcopies := (sig.copies_self fun t ht => hu.stands (hs t ht)).mirrors
  have hrel := hu.mirroring.paramType?_rel hcopies i
  rw [hparam] at hrel
  cases hrel with
  | some hself => exact hu.keeps_of_stands hself

theorem bound_inferFrom (hs : ∀ t ∈ sig.types, u.Keeps t) (i : Nat) (ha : ∀ t ∈ args, u.KeepsClosed t)
    (hb : u.KeepsBound bounds) : u.AnswersBound h (sig.inferFrom i args bounds) := by
  induction args generalizing u i bounds with
  | nil => exact bound_self hb
  | cons arg args ih =>
    refine .of_sound fun v hv huv => ?_
    rw [inferFrom]
    cases hparam : sig.paramType? i with
    | none => exact bound_self (hb.grows huv)
    | some param =>
      have hkept := hv.keeps_paramType? (fun t ht => huv.keeps (hs t ht)) hparam
      refine (bound_matchType hkept ((ha arg (by simp)).grows huv) (hb.grows huv)).bind ?_
      intro w bounds _ hvw hb
      have hall := huv.trans hvw
      exact ih (fun t ht => hall.keeps (hs t ht)) (i + 1) (fun t ht => (ha t (by simp [ht])).grows hall) hb

theorem bound_explicitBounds (he : ∀ t ∈ explicit, u.KeepsClosed t) (hb : u.KeepsBound bounds) :
    u.AnswersBound h (explicitBounds vs explicit bounds) := by
  induction vs generalizing u explicit bounds with
  | nil =>
    rw [explicitBounds.eq_def]
    exact bound_self hb
  | cons v vs ih =>
    cases explicit with
    | nil =>
      rw [explicitBounds.eq_def]
      exact bound_self hb
    | cons t ts =>
      rw [explicitBounds]
      refine (bound_raise hb v (he t (by simp))).bind fun w bounds _ huw hb => ?_
      exact ih (fun s hs => (he s (by simp [hs])).grows huw) hb

theorem Sound.closed_widened (hu : u.Sound h) (ht : u.KeepsClosed t) : u.KeepsClosed t.widened := by
  cases t with
  | literal l => cases l <;> exact hu.closed_atom (by simp [widened, Literal.base, atoms])
  | _ => exact ht

theorem closed_widen (param : Ty) (ht : u.KeepsClosed t) : u.AnswersClosed h (widen param t) := by
  refine .of_sound fun v hv huv => ?_
  rw [widen.eq_def]
  split
  · exact closed_self (ht.grows huv)
  · refine closed_union fun s hs => ?_
    obtain ⟨m, hm, rfl⟩ := List.mem_map.1 hs
    exact hv.closed_widened (hv.closed_members (ht.grows huv) hm)

/-- A type parameter is bound to an entry, and that is closed unless the parameter leaks. -/
theorem yields_bindParam (explicit : Bool) (hs : u.Keeps s) (hb : u.KeepsBound bounds) :
    u.Yields h (sig.bindParam explicit bounds s) fun v bound =>
      v.Keeps bound.1 ∧ (Closed bound.1 ↔ ¬ sig.Leaks bounds s) := by
  refine .of_sound fun v hv huv => ?_
  have hunknown : v.KeepsClosed .unknown := hv.closed_atom (by simp [atoms])
  rw [bindParam.eq_def]
  cases hget : bounds.get? s with
  | some lower =>
    have hkept := (hb.grows huv).get? hget
    have hdone {w : Universe} {t : Ty} (ht : w.KeepsClosed t) : w.Yields h (pure (t, false)) fun v bound =>
        v.Keeps bound.1 ∧ (Closed bound.1 ↔ ¬ sig.Leaks bounds s) :=
      .pure fun _ _ hww' => ⟨hww'.keeps ht.1, iff_of_true ht.2 fun hleak => by simp [hleak.1] at hget⟩
    cases explicit with
    | true => exact hdone hkept
    | false => exact (closed_widen s hkept).bind fun _ _ _ _ ht => hdone ht
  | none =>
    refine .pure fun w hw hvw => ?_
    have hunknown := hunknown.grows hvw
    split
    · rename_i hmentions
      cases hbound : s.bound? with
      | none =>
        refine ⟨hunknown.1, iff_of_true hunknown.2 fun hleak => ?_⟩
        obtain ⟨b, hb, -⟩ := hleak.2.2
        simp [hbound] at hb
      | some bound =>
        refine ⟨hw.part ((huv.trans hvw).keeps hs) bound (mem_parts_of_bound? hbound), ?_⟩
        simp [Leaks, hget, hmentions, hbound]
    · rename_i hno
      exact ⟨hunknown.1, iff_of_true hunknown.2 fun hleak => hno hleak.2.1⟩

theorem yields_bindParams (explicit : Bool) (hvs : ∀ s ∈ vs, u.Keeps s) (hb : u.KeepsBound bounds) :
    u.Yields h (sig.bindParams explicit bounds vs) fun v bound =>
      bound.1.map (·.param) = vs ∧ (∀ b ∈ bound.1, v.Keeps b.type) ∧
        ((∀ b ∈ bound.1, Closed b.type) ↔ ∀ s ∈ vs, ¬ sig.Leaks bounds s) := by
  induction vs generalizing u with
  | nil => exact .pure fun _ _ _ => by simp
  | cons s vs ih =>
    rw [bindParams]
    refine (yields_bindParam explicit (hvs s (by simp)) hb).bind fun v first _ huv hfirst => ?_
    obtain ⟨t, free⟩ := first
    refine (ih (fun s hs => huv.keeps (hvs s (by simp [hs]))) (hb.grows huv)).bind ?_
    rintro w rest _ hvw ⟨hparams, hkept, hclosed⟩
    refine .pure fun w' _ hww' => ⟨by simp [hparams], ?_, ?_⟩
    · rw [List.forall_mem_cons]
      exact ⟨(hvw.trans hww').keeps hfirst.1, fun b hb => hww'.keeps (hkept b hb)⟩
    · rw [List.forall_mem_cons, List.forall_mem_cons, hfirst.2, hclosed]

/-! ## Replacing -/

variable {subst : Subst}

/-- A type without outermost parameters has none at all. -/
theorem closed_of_no_outermost (hno : ∀ v, ¬ Outermost v t) : Closed t := by
  induction t using parts_induction with
  | step t ih =>
    have hvar (name : String) (bound : Option Ty) : t ≠ .var name bound := by
      intro heq
      exact hno t (.self heq)
    exact (closed_iff hvar).2 fun s hs => ih s hs fun v hv => hno v (.part hvar hs hv)

/-- **No type parameter is left if all outermost ones are replaced.** Those inside of bounds go with the
parameter that has the bound. -/
theorem closed_rebuild (hsubst : u.KeepsBound subst) (ht : u.Keeps t)
    (hall : ∀ v, Outermost v t → (subst.get? v).isSome = true) :
    u.AnswersClosed h (TypeStore.rebuild subst t) := by
  induction t using parts_induction generalizing u with
  | step t ih =>
    refine .of_sound fun v hv huv => ?_
    replace ht := huv.keeps ht
    replace hsubst := hsubst.grows huv
    -- a parameter is outermost in itself, so something is put in its place
    by_cases hvar : ∃ name bound, t = .var name bound
    · obtain ⟨name, bound, rfl⟩ := hvar
      obtain ⟨s, hs⟩ := Option.isSome_iff_exists.1 (hall _ (.self rfl))
      cases bound <;>
        · rw [TypeStore.rebuild, hs]
          exact closed_self (hsubst.get? hs)
    have hno (name : String) (bound : Option Ty) : t ≠ .var name bound :=
      fun heq => hvar ⟨name, bound, heq⟩
    -- what is outermost in a part of any other type is so in the type
    have hpart (s) (hs : s ∈ t.parts) : v.AnswersClosed h (TypeStore.rebuild subst s) :=
      ih s hs hsubst (hv.part ht s hs) fun w hw => hall w (.part hno hs hw)
    have hpieces {ms : List Ty} (hms : ∀ m ∈ ms, v.AnswersClosed h (TypeStore.rebuild subst m)) :
        v.Yields h (TypeStore.rebuildAll subst ms) fun w ts => ∀ t ∈ ts, w.KeepsClosed t := by
      rw [rebuildAll_eq]
      refine (Yields.mapM (R := Eq) (P := fun v _ t => v.KeepsClosed t) (fun hvw ht => ht.grows hvw)
        (List.forall₂_same.2 fun _ _ => rfl) fun m hm _ _ _ => hms m hm).imp fun w ts _ _ hts t ht => ?_
      obtain ⟨_, -, ht⟩ := exists_mem_left hts ht
      exact ht
    cases t with
    | var name bound => exact absurd rfl (hno name bound)
    | literal l =>
      rw [TypeStore.rebuild]
      exact (yields_literal l).closed (closed_hereditary.literal l)
    | object tag props =>
      obtain ⟨htag, hnames⟩ := hv.ownNamed ht
      rw [TypeStore.rebuild, rebuildProps_eq]
      refine (keeps_pieces (P := KeepsClosed) (fun hvw ht => ht.grows hvw) fun p hp =>
        hpart _ (List.mem_map_of_mem hp)).bind fun w ps hw _ hps => ?_
      have hclosed (q) (hq : q ∈ ps) : w.KeepsClosed q.type := by
        obtain ⟨p, -, t, ht, rfl⟩ := exists_mem_left hps hq
        exact ht
      refine (yields_object htag (fun q hq => ?_) (List.forall₂_same.2 fun q hq =>
        ⟨rfl, hw.stands (hclosed q hq).1, rfl, rfl⟩)).closed ?_
      · obtain ⟨p, hp, t, -, rfl⟩ := exists_mem_left hps hq
        exact hnames p hp
      · exact closed_object fun q hq => (hclosed q (TypeStore.mem_of_mem_sortProps hq)).2
    | tuple elems rest =>
      -- elements keep their marks, so no required one comes behind an optional one
      have horder : elems.Pairwise fun e f => e.optional = true → f.optional = true := hv.orderly ht
      have helems : v.Yields h (TypeStore.rebuildElems subst elems) fun w es =>
          (es.Pairwise fun e f => e.optional = true → f.optional = true) ∧
            ∀ e ∈ es, w.KeepsClosed e.type := by
        rw [rebuildElems_eq]
        refine (keeps_pieces (P := KeepsClosed) (fun hvw ht => ht.grows hvw) fun e he =>
          hpart _ (List.mem_append_left _ (List.mem_map_of_mem he))).imp
            fun w es _ _ hes => ⟨ordered_of_marks ?_ horder, fun f hf => ?_⟩
        · clear horder hpart ih ht hall hno hvar
          induction hes with
          | nil => rfl
          | cons he _ ih =>
            obtain ⟨t, -, rfl⟩ := he
            simp only [List.map_cons, ih]
        · obtain ⟨e, -, t, ht, rfl⟩ := exists_mem_left hes hf
          exact ht
      have hmade {w : Universe} {es : List (Elem Ty)} {r : Option Ty} (hw : w.Sound h)
          (horder : es.Pairwise fun e f => e.optional = true → f.optional = true)
          (hes : ∀ e ∈ es, w.KeepsClosed e.type) (hr : ∀ t ∈ r, w.KeepsClosed t) :
          w.AnswersClosed h (TypeStore.tuple es r) :=
        (yields_tuple horder (List.forall₂_same.2 fun e he => ⟨hw.stands (hes e he).1, rfl⟩)
          (hw.stands_option fun t ht => (hr t ht).1)).closed
            (closed_tuple (fun e he => (hes e he).2) fun t ht => (hr t ht).2)
      cases rest with
      | none =>
        rw [TypeStore.rebuild]
        exact helems.bind fun w es hw _ hes => hmade hw hes.1 hes.2 (by simp)
      | some rest =>
        rw [TypeStore.rebuild]
        refine helems.bind fun w es _ hvw hes => ?_
        refine ((hpart rest (by simp [parts])).grows hvw).bind fun w' t hw' hww' ht => ?_
        exact hmade hw' hes.1 (fun e he => (hes.2 e he).grows hww') (by simpa using ht)
    | function params ret =>
      rw [TypeStore.rebuild, rebuildParams_eq]
      refine (keeps_pieces (P := KeepsClosed) (fun hvw ht => ht.grows hvw) fun p hp =>
        hpart _ (List.mem_append_left _ (List.mem_map_of_mem hp))).bind fun w ps _ hvw hps => ?_
      refine ((hpart ret (by simp [parts])).grows hvw).bind fun w' t hw' hww' ht => ?_
      have hclosed (q) (hq : q ∈ ps) : w'.KeepsClosed q.type := by
        obtain ⟨p, -, t, ht, rfl⟩ := exists_mem_left hps hq
        exact ht.grows hww'
      refine (yields_function (List.forall₂_same.2 fun q hq => ?_) (hw'.stands ht.1)).closed ?_
      · exact ⟨hw'.stands (hclosed q hq).1, rfl, fun _ => rfl⟩
      · exact closed_function (fun q hq => (hclosed q hq).2) ht.2
    | union ms =>
      rw [TypeStore.rebuild]
      exact (hpieces hpart).bind fun w ts _ _ hts => closed_union hts
    | inter ms =>
      rw [TypeStore.rebuild]
      exact (hpieces hpart).bind fun w ts _ _ hts => closed_intersect hts
    | _ =>
      have hself : Closed _ := (closed_iff hno).2 fun _ hs => absurd hs (by simp [parts])
      rw [TypeStore.rebuild] <;> first | exact closed_self ⟨ht, hself⟩ | simp

/-- Replacing answers an entry, and a closed one if all outermost parameters are bound to closed types. -/
theorem yields_apply (hsubst : ∀ b ∈ subst, u.Keeps b.type) (ht : u.Keeps t)
    (hall : ∀ v, Outermost v t → (subst.get? v).isSome = true) :
    u.Yields h (TypeStore.apply t subst) fun v r =>
      v.Keeps r ∧ ((∀ b ∈ subst, Closed b.type) → Closed r) := by
  by_cases hclosed : ∀ b ∈ subst, Closed b.type
  · have happly : u.AnswersClosed h (TypeStore.apply t subst) := by
      cases subst with
      | nil =>
        -- nothing is bound, so there is nothing to bind
        have hself : Closed t := closed_of_no_outermost fun v hv => by simpa [Subst.get?] using hall v hv
        intro v hv huv
        rw [TypeStore.apply, List.isEmpty_nil, if_pos rfl, run_normalize (huv.keeps ht)]
        exact ⟨hv, .refl h v, huv.keeps ht, hself⟩
      | cons b subst => exact closed_rebuild (fun b hb => ⟨hsubst b hb, hclosed b hb⟩) ht hall
    exact happly.imp fun _ _ _ _ hr => ⟨hr.1, fun _ => hr.2⟩
  · exact (keeps_apply ht hsubst).imp fun _ _ _ _ hr => ⟨hr, fun hall => absurd hall hclosed⟩

/-- Holding bindings against their bounds finds something, and changes no entry. -/
theorem asks_checkBounds (hsubst : ∀ b ∈ subst, u.Keeps b.type) (hvs : ∀ s ∈ vs, u.Keeps s) :
    u.Yields h (checkBounds subst vs) fun _ _ => True := by
  induction vs generalizing u with
  | nil => exact .pure fun _ _ _ => trivial
  | cons s vs ih =>
    have hrest {v : Universe} (huv : u.Grows h v) : v.Yields h (checkBounds subst vs) fun _ _ => True :=
      ih (fun b hb => huv.keeps (hsubst b hb)) fun t ht => huv.keeps (hvs t (by simp [ht]))
    refine .of_sound fun v hv huv => ?_
    rw [checkBounds]
    cases hbound : s.bound? with
    | none => exact hrest huv
    | some bound =>
      have hkept : v.Keeps bound := hv.part (huv.keeps (hvs s (by simp))) bound (mem_parts_of_bound? hbound)
      have hlower : v.Keeps ((subst.get? s).getD .unknown) := by
        cases hget : subst.get? s with
        | none => exact hv.atom (by simp [atoms])
        | some lower => exact huv.keeps (keeps_get? hsubst hget)
      refine (keeps_apply hkept fun b hb => huv.keeps (hsubst b hb)).bind fun w t _ hvw ht => ?_
      refine (asks_subtype (hvw.keeps hlower) ht).bind fun w' within _ hww' _ => ?_
      have hall := (huv.trans hvw).trans hww'
      cases within with
      | true => exact hrest hall
      | false => exact (hrest hall).bind fun _ _ _ _ _ => .pure fun _ _ _ => trivial

theorem yields_instantiate (hs : ∀ t ∈ sig.types, u.Keeps t) (hsubst : ∀ b ∈ subst, u.Keeps b.type)
    (hscoped : sig.Scoped) (hall : subst.map (·.param) = sig.typeParams) :
    u.Yields h (sig.instantiate subst) fun _ inst => (∀ b ∈ subst, Closed b.type) →
      (∀ p ∈ inst.params, Closed p.type) ∧ Closed inst.ret := by
  have hbound {t : Ty} (ht : t ∈ sig.params.map (·.type) ++ [sig.ret]) (v : Ty) (hv : Outermost v t) :
      (subst.get? v).isSome = true := by
    obtain ⟨w, hw, hsame⟩ := hscoped.exists_same ht hv
    rw [← hall] at hw
    obtain ⟨b, hb, rfl⟩ := List.mem_map.1 hw
    rw [Subst.get?, Option.isSome_map, List.find?_isSome]
    exact ⟨b, hb, hsame⟩
  have hkept {t : Ty} (ht : t ∈ sig.params.map (·.type) ++ [sig.ret]) : u.Keeps t :=
    hs t (by rw [Signature.types, List.append_assoc]; exact List.mem_append_right _ ht)
  have happly {v : Universe} (huv : u.Grows h v) {t : Ty} (ht : t ∈ sig.params.map (·.type) ++ [sig.ret]) :=
    yields_apply (h := h) (fun b hb => huv.keeps (hsubst b hb)) (huv.keeps (hkept ht)) (hbound ht)
  unfold instantiate
  refine (Yields.mapM (R := Eq) (P := fun _ _ (p : Param Ty) => (∀ b ∈ subst, Closed b.type) → Closed p.type)
    (fun _ hp => hp) (List.forall₂_same.2 fun _ _ => rfl) fun p hp _ _ _ => ?_).bind ?_
  · have hmem : p.type ∈ sig.params.map (·.type) ++ [sig.ret] :=
      List.mem_append_left _ (List.mem_map_of_mem hp)
    exact (happly (.refl h u) hmem).bind fun _ t _ _ ht => .pure fun _ _ _ hclosed => ht.2 hclosed
  · intro v params _ huv hparams
    refine (happly huv (List.mem_append_right _ (by simp))).bind fun w ret _ _ hret => ?_
    refine .pure fun _ _ _ hclosed => ⟨fun p hp => ?_, hret.2 hclosed⟩
    obtain ⟨_, -, hp⟩ := exists_mem_left hparams hp
    exact hp hclosed

/-- All that a solved call says is closed exactly if no type parameter leaks. -/
theorem yields_solve (hs : ∀ t ∈ sig.types, u.Keeps t) (hscoped : sig.Scoped)
    (ha : ∀ t ∈ args, u.KeepsClosed t) (he : ∀ t ∈ explicit, u.KeepsClosed t) :
    u.Yields h (sig.solve args explicit) fun _ solved => ∀ sol, solved = .ok sol →
      ((∀ b ∈ sol.subst, Closed b.type) ∧ (∀ p ∈ sol.signature.params, Closed p.type) ∧
        Closed sol.signature.ret ↔ ∀ v ∈ sig.typeParams, ¬ sig.Leaks sol.bounds v) := by
  have hrest {v : Universe} (huv : u.Grows h v) {bounds : Bounds} (hb : v.KeepsBound bounds) :
      v.Yields h
        (do
          let bound ← sig.bindParams (!explicit.isEmpty) bounds sig.typeParams
          let violations ← checkBounds bound.1 sig.typeParams
          let signature ← sig.instantiate bound.1
          return Except.ok { bounds, subst := bound.1, signature, violations, underconstrained := bound.2 })
        fun _ (solved : Except TypeArgCount Solution) => ∀ sol, solved = .ok sol →
          ((∀ b ∈ sol.subst, Closed b.type) ∧ (∀ p ∈ sol.signature.params, Closed p.type) ∧
            Closed sol.signature.ret ↔ ∀ v ∈ sig.typeParams, ¬ sig.Leaks sol.bounds v) := by
    have hkept {w : Universe} (hvw : v.Grows h w) (t) (ht : t ∈ sig.types) : w.Keeps t :=
      hvw.keeps (huv.keeps (hs t ht))
    have hparam {w : Universe} (hvw : v.Grows h w) (t) (ht : t ∈ sig.typeParams) : w.Keeps t :=
      hkept hvw t (by simp [Signature.types, ht])
    refine (yields_bindParams _ (hparam (.refl h v)) hb).bind ?_
    rintro w₁ bound _ h₁ ⟨hall, hsubst, hclosed⟩
    refine (asks_checkBounds hsubst (hparam h₁)).bind fun w₂ violations _ h₂ _ => ?_
    refine (yields_instantiate (hkept (h₁.trans h₂)) (fun b hb => h₂.keeps (hsubst b hb)) hscoped hall).bind ?_
    intro w₃ signature _ _ hsignature
    refine .pure fun _ _ _ sol hsol => ?_
    obtain rfl := Except.ok.inj hsol
    exact ⟨fun hout => hclosed.1 hout.1, fun hno => ⟨hclosed.2 hno, hsignature (hclosed.2 hno)⟩⟩
  have hempty : u.KeepsBound [] := fun b hb => absurd hb (by simp)
  unfold solve
  split
  · exact .pure fun _ _ _ sol hsol => by simp at hsol
  · dsimp only
    split
    · exact (bound_inferFrom hs 0 ha hempty).bind fun v _ _ huv hb => hrest huv hb
    · exact (bound_explicitBounds he hempty).bind fun v _ _ huv hb => hrest huv hb

/-- **A solved call is fully instantiated exactly if no type parameter leaks**: if the arguments and the
type arguments mention no type parameter, then bindings, parameter types and result mention none, unless
one took a bound that does. -/
theorem History.solve_closed (hu : u.History) (hs : ∀ t ∈ sig.types, u.Keeps t) (hscoped : sig.Scoped)
    (ha : ∀ t ∈ args, u.Keeps t ∧ t.freeVars = []) (he : ∀ t ∈ explicit, u.Keeps t ∧ t.freeVars = [])
    {sol : Solution} (hsol : ((sig.solve args explicit : InUniverse _).run u).1 = .ok sol) :
    (∀ b ∈ sol.subst, b.type.freeVars = []) ∧ (∀ p ∈ sol.signature.params, p.type.freeVars = []) ∧
      sol.signature.ret.freeVars = [] ↔ ∀ v ∈ sig.typeParams, ¬ sig.Leaks sol.bounds v :=
  (yields_solve hs hscoped ha he u hu.sound.1 (.refl _ u)).2.2 sol hsol


/-! ## Two signatures -/

/-- The signature that takes a value and answers it. -/
def identity : Signature where
  typeParams := [.var "T" none]
  params := [{ name := "x", type := .var "T" none }]
  ret := .var "T" none

theorem freeVars_unbounded (name : String) : (Ty.var name none).freeVars = [.var name none] := by
  rw [freeVars, collectVars]
  rfl

theorem run_identity (u : Universe) : ((identity.solve [.string] [] : InUniverse _).run u).1 = .ok {
    bounds := [⟨.var "T" none, .string⟩],
    subst := [⟨.var "T" none, .string⟩],
    signature := { params := [{ name := "x", type := .string }], ret := .string },
    violations := [],
    underconstrained := [] } := by
  have hinfer : (identity.infer [.string] : InUniverse _) = pure [⟨.var "T" none, .string⟩] := by
    rw [infer, inferFrom]
    show (matchType _ (.var "T" none) _ _ >>= _) = _
    rw [matchType, if_pos (by decide)]
    rfl
  rw [solve]
  show ((identity.infer [.string] >>= _ : InUniverse _).run u).1 = _
  rw [hinfer]
  rfl

/-- A call whose argument says what the type parameter stands for. -/
theorem identity_solved : (holding parametric).History ∧
    ∃ sol, ((identity.solve [.string] [] : InUniverse _).run (holding parametric)).1 = .ok sol ∧
      (∀ b ∈ sol.subst, b.type.freeVars = []) ∧ (∀ p ∈ sol.signature.params, p.type.freeVars = []) ∧
        sol.signature.ret.freeVars = [] := by
  have hkept {t : Ty} (ht : t ∈ parametric) : (holding parametric).Keeps t :=
    (lookup?_holding (by decide)).2 ⟨ht, rfl⟩
  have hscoped : identity.Scoped := by
    intro t ht v hv
    obtain rfl : t = .var "T" none := by simpa [identity] using ht
    rw [freeVars_unbounded] at hv
    exact ⟨.var "T" none, by simp [identity], by rw [List.mem_singleton.1 hv]; decide⟩
  refine ⟨parametric_history, _, run_identity _, ?_⟩
  refine (parametric_history.solve_closed (fun t ht => hkept ?_) hscoped (fun t ht => ?_) (by simp)
    (run_identity _)).2 fun v hv hleak => ?_
  · simp only [identity, Signature.types, List.map_cons, List.map_nil, List.cons_append, List.nil_append,
      List.mem_cons, List.not_mem_nil, or_false, or_self] at ht
    simp [ht, parametric]
  · obtain rfl := List.mem_singleton.1 ht
    exact ⟨hkept (by simp [parametric, atoms]), closed_hereditary.atom (by simp [atoms])⟩
  · obtain rfl : v = .var "T" none := by simpa [identity] using hv
    exact absurd hleak.1 (by decide)

/-- The signature of an optional value whose type is bounded by another type parameter. -/
def bounded : Signature where
  typeParams := [.var "T" none, .var "U" (some (.var "T" none))]
  params := [{ name := "x", type := .var "U" (some (.var "T" none)), optional := true }]
  ret := .var "U" (some (.var "T" none))

/-- The entries after its type parameters were made. -/
def boundedEntries : List Ty := parametric ++ [.var "U" (some (.var "T" none))]

theorem bounded_history : (holding boundedEntries).History := by
  have hword : Text.IsWord "U" := by decide
  have hkept : (holding parametric).Keeps (.var "T" none) :=
    (lookup?_holding (by decide)).2 ⟨by simp [parametric], rfl⟩
  have hcall : ((Call.typeVar "U" (some (.var "T" none))).serve.run (holding parametric)).2 =
      holding boundedEntries := by
    show ((holding parametric).intern (.var "U" (some (.var "T" none)))).2 = _
    rw [intern_of_not_mem (by decide) (by decide), boundedEntries]
  rw [← hcall]
  refine .call parametric_history _ (fun t ht => ?_) (by simpa [Call.names] using hword)
  obtain rfl : t = .var "T" none := by simpa [Call.types] using ht
  exact hkept


theorem freeVars_bounded : (Ty.var "U" (some (.var "T" none))).freeVars = bounded.typeParams := by
  rw [freeVars, Mirroring.collectVars_var, if_neg (by decide)]
  show collectVars [.var "U" (some (.var "T" none))] (.var "T" none) = _
  rw [Mirroring.collectVars_var, if_neg (by decide)]
  rfl

theorem bounded_mentions {v : Ty} (hv : v ∈ bounded.typeParams) : bounded.mentions v = true := by
  show ((Ty.var "U" (some (.var "T" none))).freeVars.any (·.same v) || false) = true
  rw [freeVars_bounded, Bool.or_false, List.any_eq_true]
  exact ⟨v, hv, beq_self_eq_true _⟩

theorem run_solve_bounded : ((bounded.solve [] [] : InUniverse _).run (holding boundedEntries)).1 = .ok {
    bounds := [],
    subst := [⟨.var "T" none, .unknown⟩, ⟨.var "U" (some (.var "T" none)), .var "T" none⟩],
    signature := { params := [{ name := "x", type := .var "T" none, optional := true }], ret := .var "T" none },
    violations := [],
    underconstrained := [] } := by
  have hbind : (bindParams bounded false [] bounded.typeParams : InUniverse _) =
      pure ([⟨.var "T" none, .unknown⟩, ⟨.var "U" (some (.var "T" none)), .var "T" none⟩], []) := by
    have hbound (v : Ty) (hv : v ∈ bounded.typeParams) :
        (bindParam bounded false [] v : InUniverse _) = pure (v.bound?.getD .unknown, false) := by
      rw [bindParam.eq_def]
      show pure (if bounded.mentions v = true then _ else _) = _
      rw [if_pos (bounded_mentions hv)]
    have hT := hbound (.var "T" none) (by simp [bounded])
    have hU := hbound (.var "U" (some (.var "T" none))) (by simp [bounded])
    show bindParams bounded false [] [.var "T" none, .var "U" (some (.var "T" none))] = _
    rw [bindParams, bindParams, hT, hU]
    rfl
  rw [solve]
  show ((bounded.infer [] >>= _ : InUniverse _).run _).1 = _
  rw [show (bounded.infer [] : InUniverse _) = pure [] from rfl, pure_bind]
  show ((bindParams bounded false [] bounded.typeParams >>= fun bound => _ : InUniverse _).run _).1 = _
  rw [hbind]
  rfl

/-- **A type parameter gets away**: no argument is given for the value, so the parameter `U` takes its bound,
and that is the parameter `T`, which is bound to `unknown`. -/
theorem bounded_leaks : (holding boundedEntries).History ∧
    (∀ t ∈ bounded.types, (holding boundedEntries).Keeps t) ∧ bounded.Scoped ∧
    ∃ sol, ((bounded.solve [] [] : InUniverse _).run (holding boundedEntries)).1 = .ok sol ∧
      ¬ (∀ b ∈ sol.subst, b.type.freeVars = []) ∧ ¬ (∀ p ∈ sol.signature.params, p.type.freeVars = []) ∧
        sol.signature.ret.freeVars ≠ [] := by
  refine ⟨bounded_history, fun t ht => (lookup?_holding (by decide)).2 ⟨?_, rfl⟩, fun t ht v hv => ?_,
    _, run_solve_bounded, ?_, ?_, freeVars_var _ _⟩
  · rcases (by simpa [bounded, Signature.types] using ht : t = .var "T" none ∨ t = .var "U" (some (.var "T" none)))
      with rfl | rfl <;> simp [boundedEntries, parametric]
  · obtain rfl : t = .var "U" (some (.var "T" none)) := by simpa [bounded] using ht
    rw [freeVars_bounded] at hv
    exact ⟨v, hv, beq_self_eq_true _⟩
  · intro hall
    exact freeVars_var _ _ (hall ⟨.var "U" (some (.var "T" none)), .var "T" none⟩ (by simp))
  · intro hall
    exact freeVars_var _ _ (hall { name := "x", type := .var "T" none, optional := true } (by simp))

end Universe
end FlowTyping
