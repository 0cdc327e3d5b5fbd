import FlowTyping.Flow.Transfer
import FlowTyping.Proofs.Guard.Likeness
import FlowTyping.Proofs.Overload.Likeness

/-!
# Nodes in two universes

A node that is entered with alike environments, in two universes, is left with alike ones, and the same is
found at it.

* **`Env.Mirrors R`** — the same variables, of related types.
* **`Graph.Mirrors R`**, **`Surroundings.Mirrors R`** — the same graph, functions and predicates, with related
  types written in them.
* **`Twins.agree_transfer`** — one node. Its steps have a lemma each: values, assignments, calls, results.
-/

namespace FlowTyping

open Ty

/-! ## Environments -/

namespace Env

/-- The same variables, of related types. -/
def Mirrors (R : Ty → Ty → Prop) (e f : Env) : Prop :=
  List.Forall₂ (fun b c => b.1 = c.1 ∧ R b.2 c.2) e.bindings f.bindings

variable {R S : Ty → Ty → Prop} {e f e' f' : Env} {s t : Ty}

theorem Mirrors.imp (h : e.Mirrors R f) (hRS : ∀ s t, R s t → S s t) : e.Mirrors S f :=
  List.Forall₂.imp (fun _ _ h => ⟨h.1, hRS _ _ h.2⟩) h

theorem Mirrors.empty : ({} : Env).Mirrors R {} := .nil

theorem Mirrors.find?_rel (h : e.Mirrors R f) (name : String) :
    Option.Rel R (e.find? name) (f.find? name) := by
  unfold Mirrors at h
  unfold find?
  generalize e.bindings = bs, f.bindings = cs at h
  induction h with
  | nil => exact .none
  | @cons b c _ _ hbc _ ih =>
    rw [List.lookup_cons, List.lookup_cons, hbc.1]
    split
    · exact .some hbc.2
    · exact ih

theorem Mirrors.bind_rel (h : e.Mirrors R f) (name : String) (hst : R s t) :
    (e.bind name s).Mirrors R (f.bind name t) := by
  unfold Mirrors at h ⊢
  unfold Env.bind
  generalize e.bindings = bs, f.bindings = cs at h
  induction h with
  | nil => exact .cons ⟨rfl, hst⟩ .nil
  | @cons b c bs cs hbc htail ih =>
    dsimp only at ih ⊢
    rw [insertBinding, insertBinding, hbc.1]
    split
    · exact .cons ⟨rfl, hst⟩ (.cons ⟨rfl, hbc.2⟩ htail)
    split
    · exact .cons ⟨rfl, hst⟩ htail
    · exact .cons ⟨rfl, hbc.2⟩ ih

theorem Mirrors.names_eq (h : e.Mirrors R f) : e.names = f.names := by
  unfold Mirrors at h
  unfold names
  generalize e.bindings = bs, f.bindings = cs at h
  induction h with
  | nil => rfl
  | cons hbc _ ih => rw [List.map_cons, List.map_cons, hbc.1, ih]

theorem ofList_rel {bs cs : List (String × Ty)}
    (h : List.Forall₂ (fun b c => b.1 = c.1 ∧ R b.2 c.2) bs cs) : (ofList bs).Mirrors R (ofList cs) := by
  have hfold {e f : Env} (hef : e.Mirrors R f) :
      (bs.foldl (fun e b => e.bind b.1 b.2) e).Mirrors R (cs.foldl (fun e c => e.bind c.1 c.2) f) := by
    induction h generalizing e f with
    | nil => exact hef
    | @cons b c _ _ hbc _ ih =>
      rw [List.foldl_cons, List.foldl_cons]
      refine ih ?_
      rw [hbc.1]
      exact hef.bind_rel c.1 hbc.2
  exact hfold .empty

theorem Mirrors.same_eq (hR : Mirroring R) (h : e.Mirrors R f) (h' : e'.Mirrors R f') :
    e.same e' = f.same f' := by
  have hall {bs cs bs' cs' : List (String × Ty)}
      (h : List.Forall₂ (fun b c => b.1 = c.1 ∧ R b.2 c.2) bs cs)
      (h' : List.Forall₂ (fun b c => b.1 = c.1 ∧ R b.2 c.2) bs' cs') :
      ((bs.zip bs').all fun p => p.1.1 == p.2.1 && p.1.2.same p.2.2) =
        (cs.zip cs').all fun p => p.1.1 == p.2.1 && p.1.2.same p.2.2 := by
    induction h generalizing bs' cs' with
    | nil => rfl
    | cons hbc _ ih =>
      cases h' with
      | nil => rfl
      | cons hbc' htail =>
        simp only [List.zip_cons_cons, List.all_cons, hbc.1, hbc'.1, hR.same_eq hbc.2 hbc'.2, ih htail]
  refine congrArg₂ (· && ·) ?_ (hall h h')
  rw [List.Forall₂.length_eq h, List.Forall₂.length_eq h']

end Env

/-! ## Graphs -/

/-- The same value, of related types. -/
inductive Value.Mirrors (R : Ty → Ty → Prop) : Value → Value → Prop where
  | const {s t : Ty} (h : R s t) : Mirrors R (.const s) (.const t)
  | var (name : String) : Mirrors R (.var name) (.var name)
  | field (owner : String) (prop : Text) : Mirrors R (.field owner prop) (.field owner prop)

/-- The same call, of related types. -/
structure CallSite.Mirrors (R : Ty → Ty → Prop) (c d : CallSite) : Prop where
  callee : c.callee = d.callee
  args : List.Forall₂ (Value.Mirrors R) c.args d.args
  typeArgs : List.Forall₂ R c.typeArgs d.typeArgs
  result : c.result = d.result
  declare : c.declare = d.declare

/-- The same switch, of related types. -/
structure SwitchSite.Mirrors (R : Ty → Ty → Prop) (c d : SwitchSite) : Prop where
  var : c.var = d.var
  prop : c.prop = d.prop
  cases : List.Forall₂ R c.cases d.cases
  hasDefault : c.hasDefault = d.hasDefault

/-- Nodes that do the same, with related types. -/
inductive Op.Mirrors (R : Ty → Ty → Prop) : Op → Op → Prop where
  | entry : Mirrors R .entry .entry
  | assign (var : String) {x y : Value} (declare : Bool) {o o' : Option Ty} (hvalue : x.Mirrors R y)
    (hascribed : Option.Rel R o o') : Mirrors R (.assign var x declare o) (.assign var y declare o')
  | branch {o o' : Option Guard} (h : Option.Rel (Guard.Mirrors R) o o') :
    Mirrors R (.branch o) (.branch o')
  | merge : Mirrors R .merge .merge
  | ret {o o' : Option Value} (h : Option.Rel (Value.Mirrors R) o o') : Mirrors R (.ret o) (.ret o')
  | throw {o o' : Option Value} (h : Option.Rel (Value.Mirrors R) o o') : Mirrors R (.throw o) (.throw o')
  | call {c d : CallSite} (h : c.Mirrors R d) : Mirrors R (.call c) (.call d)
  | switch {c d : SwitchSite} (h : c.Mirrors R d) : Mirrors R (.switch c) (.switch d)
  | exit : Mirrors R .exit .exit
  | other (kind : Int) : Mirrors R (.other kind) (.other kind)

/-- The same node, with related types. -/
structure Node.Mirrors (R : Ty → Ty → Prop) (n k : Node) : Prop where
  op : n.op.Mirrors R k.op
  succs : n.succs = k.succs

/-- The same graph, with related types. -/
structure Graph.Mirrors (R : Ty → Ty → Prop) (g k : Graph) : Prop where
  name : g.name = k.name
  nodes : List.Forall₂ (Node.Mirrors R) g.nodes.toList k.nodes.toList
  entry : g.entry = k.entry
  exit : g.exit = k.exit
  params : List.Forall₂ (Param.Copies R) g.params k.params
  returns : Option.Rel R g.returns k.returns
  declared : g.declared.Mirrors R k.declared

/-- The same functions and predicates, with related types. -/
structure Surroundings.Mirrors (R : Ty → Ty → Prop) (s k : Surroundings) : Prop where
  catalogue : List.Forall₂ (fun c d => c.1 = d.1 ∧ c.2.Copies R d.2) s.catalogue k.catalogue
  preds : s.preds.Mirrors R k.preds

/-- What comes of a node, with related types. -/
structure Outcome.Mirrors (R : Ty → Ty → Prop) (x y : Outcome) : Prop where
  outs : List.Forall₂ (Option.Rel (Env.Mirrors R)) x.outs y.outs
  declared : x.declared.Mirrors R y.declared
  findings : List.Forall₂ (Finding.Mirrors R) x.findings y.findings
  call : Option.Rel (CallResult.Mirrors R) x.call y.call
  cases : Option.Rel (CaseSplit.Mirrors R) x.cases y.cases
  degraded : x.degraded = y.degraded

section Imp

variable {R S : Ty → Ty → Prop}

theorem Value.Mirrors.imp {x y : Value} (h : x.Mirrors R y) (hRS : ∀ s t, R s t → S s t) :
    x.Mirrors S y := by
  cases h with
  | const h => exact .const (hRS _ _ h)
  | var name => exact .var name
  | field owner prop => exact .field owner prop

theorem Op.Mirrors.imp {x y : Op} (h : x.Mirrors R y) (hRS : ∀ s t, R s t → S s t) : x.Mirrors S y := by
  cases h with
  | entry => exact .entry
  | assign var declare hvalue hascribed =>
    exact .assign var declare (hvalue.imp hRS) (optionRel_imp hascribed hRS)
  | branch h => exact .branch (optionRel_imp h fun _ _ h => h.imp hRS)
  | merge => exact .merge
  | ret h => exact .ret (optionRel_imp h fun _ _ h => h.imp hRS)
  | throw h => exact .throw (optionRel_imp h fun _ _ h => h.imp hRS)
  | call h =>
    exact .call ⟨h.callee, h.args.imp fun _ _ h => h.imp hRS, h.typeArgs.imp hRS, h.result, h.declare⟩
  | switch h => exact .switch ⟨h.var, h.prop, h.cases.imp hRS, h.hasDefault⟩
  | exit => exact .exit
  | other kind => exact .other kind

theorem Graph.Mirrors.imp {g k : Graph} (h : g.Mirrors R k) (hRS : ∀ s t, R s t → S s t) :
    g.Mirrors S k where
  name := h.name
  nodes := h.nodes.imp fun _ _ h => ⟨h.op.imp hRS, h.succs⟩
  entry := h.entry
  exit := h.exit
  params := h.params.imp fun _ _ h => h.imp hRS
  returns := optionRel_imp h.returns hRS
  declared := h.declared.imp hRS

theorem Surroundings.Mirrors.imp {s k : Surroundings} (h : s.Mirrors R k)
    (hRS : ∀ s t, R s t → S s t) : s.Mirrors S k :=
  ⟨h.catalogue.imp fun _ _ h => ⟨h.1, h.2.imp hRS⟩, h.preds.imp hRS⟩

theorem Surroundings.Mirrors.lookup_rel {s k : Surroundings} (h : s.Mirrors R k) (name : String) :
    Option.Rel (OverloadSet.Copies R) (s.catalogue.lookup name) (k.catalogue.lookup name) := by
  have hcatalogue := h.catalogue
  generalize s.catalogue = cs, k.catalogue = ds at hcatalogue
  induction hcatalogue with
  | nil => exact .none
  | cons hcd _ ih =>
    rw [List.lookup_cons, List.lookup_cons, hcd.1]
    split
    · exact .some hcd.2
    · exact ih

end Imp

/-! ## One node -/

namespace Twins

open FlowTyping.Graph

variable {w : Twins} {a b : Ty} {s s' : Surroundings} {env env' declared declared' : Env}

theorem env_grows {v : Twins} {e f : Env} (h : e.Mirrors w.Alike f) (hwv : w.Grows v) :
    e.Mirrors v.Alike f :=
  h.imp fun _ _ h => h.grows hwv

theorem surroundings_grow {v : Twins} (h : s.Mirrors w.Alike s') (hwv : w.Grows v) :
    s.Mirrors v.Alike s' :=
  h.imp fun _ _ h => h.grows hwv

theorem findings_grow {v : Twins} {fs gs : List Finding}
    (h : List.Forall₂ (Finding.Mirrors w.Alike) fs gs) (hwv : w.Grows v) :
    List.Forall₂ (Finding.Mirrors v.Alike) fs gs :=
  h.imp fun _ _ h => h.imp fun _ _ h => h.grows hwv

theorem agree_varType (hs : s.Mirrors w.Alike s') (hdeclared : declared.Mirrors w.Alike declared')
    (henv : env.Mirrors w.Alike env') (name : String) :
    w.AgreeTy (varType s declared env name) (varType s' declared' env' name) := by
  have hunknown : w.AgreeTy (pure .unknown) (pure .unknown) := agree_atom (by simp [atoms])
  have hbound := henv.find?_rel name
  unfold varType
  generalize env.find? name = o, env'.find? name = o' at hbound
  cases hbound with
  | some h => exact agree_self h
  | none =>
    have hwritten := hdeclared.find?_rel name
    dsimp only
    generalize declared.find? name = o, declared'.find? name = o' at hwritten
    cases hwritten with
    | some h => exact agree_self h
    | none =>
      refine .of_sound fun v hv hwv => ?_
      have hlookup := (surroundings_grow hs hwv).lookup_rel name
      dsimp only
      generalize s.catalogue.lookup name = o, s'.catalogue.lookup name = o' at hlookup
      cases hlookup with
      | none => exact hunknown.grows hwv
      | @some x y hxy =>
        have hsigs := hxy.signatures
        dsimp only
        rw [(hv.mirroring.mirrors_of_copies hxy).overloaded]
        generalize x.signatures = ps, y.signatures = qs at hsigs
        cases y.overloaded with
        | true => exact hunknown.grows hwv
        | false =>
          cases hsigs with
          | nil => exact hunknown.grows hwv
          | cons hpq _ => exact agree_function hpq.mirrors.params hpq.ret

theorem agree_valueType (hs : s.Mirrors w.Alike s') (hdeclared : declared.Mirrors w.Alike declared')
    (henv : env.Mirrors w.Alike env') {x y : Value} (hxy : x.Mirrors w.Alike y) :
    w.AgreeTy (valueType s declared env x) (valueType s' declared' env' y) := by
  cases hxy with
  | const h => exact agree_self h
  | var name => exact agree_varType hs hdeclared henv name
  | field owner prop =>
    rw [valueType, valueType]
    refine (agree_varType hs hdeclared henv owner).bind fun v _ _ _ _ hbase => ?_
    refine (agree_propertyOf hbase prop).bind fun u _ _ _ _ hfound => ?_
    cases hfound with
    | none => exact agree_atom (by simp [atoms])
    | some hp => exact agree_field hp

theorem agree_widenLiterals (hab : w.Alike a b) :
    w.AgreeTy (widenLiterals a) (widenLiterals b) := by
  refine .of_sound fun v hv hwv => agree_union ?_
  rw [List.forall₂_map_left_iff, List.forall₂_map_right_iff]
  exact (hv.mirroring.members_rel (hab.grows hwv)).imp fun _ _ h => hv.mirroring.widened_rel h

/-- A variable bound anew, in both. -/
structure AssignedAlike (w : Twins) (x y : Env × Env × List Finding) : Prop where
  env : x.1.Mirrors w.Alike y.1
  declared : x.2.1.Mirrors w.Alike y.2.1
  findings : List.Forall₂ (Finding.Mirrors w.Alike) x.2.2 y.2.2

/-- An assignment to a variable whose declared type is known. -/
theorem agree_assign_declared (hdeclared : declared.Mirrors w.Alike declared')
    (henv : env.Mirrors w.Alike env') (name : String) (hab : w.Alike a b) :
    w.Agree (assign declared env name a false) (assign declared' env' name b false) fun v =>
      v.AssignedAlike := by
  have hfind := hdeclared.find?_rel name
  unfold assign
  rw [if_neg Bool.false_ne_true, if_neg Bool.false_ne_true, pure_bind, pure_bind]
  dsimp only
  generalize declared.find? name = o, declared'.find? name = o' at hfind
  cases hfind with
  | none =>
    refine .pure fun u _ hwu => ⟨?_, env_grows hdeclared hwu, .nil⟩
    exact (env_grows henv hwu).bind_rel name (hab.grows hwu)
  | some ht =>
    refine (same_subtype hab ht).ite ?_ ?_
    · refine (agree_meet hab ht).bind fun u _ _ _ hwu hm => .pure fun u' _ huu' => ?_
      have hwu' := hwu.trans huu'
      exact ⟨(env_grows henv hwu').bind_rel name (hm.grows huu'), env_grows hdeclared hwu', .nil⟩
    · refine .pure fun u _ hwu => ⟨?_, env_grows hdeclared hwu, ?_⟩
      · exact (env_grows henv hwu).bind_rel name (ht.grows hwu)
      · exact .cons (.assignability name (hab.grows hwu) (ht.grows hwu)) .nil

theorem agree_assign (hdeclared : declared.Mirrors w.Alike declared') (henv : env.Mirrors w.Alike env')
    (name : String) (hab : w.Alike a b) (infers : Bool) :
    w.Agree (assign declared env name a infers) (assign declared' env' name b infers) fun v =>
      v.AssignedAlike := by
  cases infers with
  | false => exact agree_assign_declared hdeclared henv name hab
  | true =>
    unfold assign
    rw [if_pos rfl, if_pos rfl]
    refine (agree_widenLiterals hab).bind fun v d d' _ hwv hd => ?_
    replace hdeclared := env_grows hdeclared hwv
    have hfind := hdeclared.find?_rel name
    generalize declared.find? name = o, declared'.find? name = o' at hfind
    -- once the declared types are extended, the rest is an assignment that infers nothing
    cases hfind with
    | none =>
      exact agree_assign_declared (hdeclared.bind_rel name hd) (env_grows henv hwv) name (hab.grows hwv)
    | some hold =>
      refine (agree_join hold hd).bind fun u _ _ _ hvu hj => ?_
      have hwu := hwv.trans hvu
      exact agree_assign_declared ((env_grows hdeclared hvu).bind_rel name hj) (env_grows henv hwu) name
        (hab.grows hwu)

theorem callee?_rel (hw : w.Sound) (hs : s.Mirrors w.Alike s') (henv : env.Mirrors w.Alike env')
    (name : String) :
    Option.Rel (OverloadSet.Mirrors w.Alike) (callee? s env name) (callee? s' env' name) := by
  have hcatalogue := optionRel_imp (hs.lookup_rel name) fun _ _ h => hw.mirroring.mirrors_of_copies h
  have hbound := henv.find?_rel name
  unfold callee?
  generalize env.find? name = o, env'.find? name = o' at hbound
  cases hbound with
  | none => exact hcatalogue
  | @some s t h =>
    cases hw.mirroring.mirrors h with
    | function hps hr => exact .some (OverloadSet.mirrors_single name hps hr)
    | atom hatom =>
      cases s with
      | function _ _ => simp [atoms] at hatom
      | _ => exact hcatalogue
    | _ => exact hcatalogue

theorem agree_resolveCall (hs : s.Mirrors w.Alike s') (hdeclared : declared.Mirrors w.Alike declared')
    (henv : env.Mirrors w.Alike env') {c d : CallSite} (hcd : c.Mirrors w.Alike d) :
    w.Agree (resolveCall s declared env c) (resolveCall s' declared' env' d) fun v =>
      CallResult.Mirrors v.Alike := by
  unfold resolveCall
  refine (Agree.mapM (R := fun v => v.Alike) (fun hvu h => h.grows hvu) hcd.args fun x _ y _ hxy =>
    agree_valueType hs hdeclared henv hxy).bind fun v as bs hv hwv has => ?_
  have hcallee := callee?_rel hv (surroundings_grow hs hwv) (env_grows henv hwv) c.callee
  rw [← hcd.callee]
  generalize callee? s env c.callee = o, callee? s' env' c.callee = o' at hcallee
  cases hcallee with
  | some hxy => exact agree_resolve hxy has (alike_grows hcd.typeArgs hwv)
  | none =>
    refine .pure fun u hu hvu => ⟨rfl, alike_grows has hvu, .none, hu.atom (by simp [atoms]), ?_⟩
    exact .cons (.noMatch _ (alike_grows has hvu) ⟨[], [], .nil, rfl, rfl⟩) .nil

theorem agree_checkReturn {o o' : Option Ty} (ho : Option.Rel w.Alike o o') (hab : w.Alike a b) :
    w.Agree (checkReturn o a) (checkReturn o' b) fun v => List.Forall₂ (Finding.Mirrors v.Alike) := by
  cases ho with
  | none => exact .pure fun _ _ _ => .nil
  | some hr =>
    refine (same_subtype hab hr).ite (.pure fun _ _ _ => .nil) (.pure fun _ _ hwv => ?_)
    exact .cons (.assignability _ (hab.grows hwv) (hr.grows hwv)) .nil

theorem narrowed_rel {R : Ty → Ty → Prop} (hR : Mirroring R) (henv : env.Mirrors R env') (name : String)
    (hab : R a b) : Option.Rel (Env.Mirrors R) (narrowed env name a) (narrowed env' name b) := by
  unfold narrowed
  rw [hR.isNever_eq hab]
  split
  · exact .none
  · exact .some (henv.bind_rel name hab)

/-- The type of a variable at a test: bound, or as on a way that never assigned it. -/
theorem current_alike (hw : w.Sound) (hdeclared : declared.Mirrors w.Alike declared')
    (henv : env.Mirrors w.Alike env') (name : String) :
    w.Alike ((env.find? name).getD (unbound declared name))
      ((env'.find? name).getD (unbound declared' name)) := by
  have hgetD {o o' : Option Ty} {s t : Ty} (ho : Option.Rel w.Alike o o') (hst : w.Alike s t) :
      w.Alike (o.getD s) (o'.getD t) := by
    cases ho with
    | none => exact hst
    | some h => exact h
  exact hgetD (henv.find?_rel name) (hgetD (hdeclared.find?_rel name) (hw.atom (by simp [atoms])))

theorem missingCases_rel {R : Ty → Ty → Prop} (hR : Mirroring R) {c d : CaseSplit} (h : c.Mirrors R d) :
    List.Forall₂ (Finding.Mirrors R) (Guard.missingCases c).toList (Guard.missingCases d).toList := by
  unfold Guard.missingCases CaseSplit.exhaustive
  rw [hR.isNever_eq h.residual, h.degraded]
  split
  · exact .nil
  · exact .cons (.nonExhaustive h.residual) .nil

/-- **A node that is entered with alike environments is left with alike ones.** -/
theorem agree_transfer (hs : s.Mirrors w.Alike s') {returns returns' : Option Ty}
    (hreturns : Option.Rel w.Alike returns returns') (hdeclared : declared.Mirrors w.Alike declared')
    {x y : Op} (hxy : x.Mirrors w.Alike y) (henv : env.Mirrors w.Alike env') :
    w.Agree (transfer s returns declared x env) (transfer s' returns' declared' y env') fun v =>
      Outcome.Mirrors v.Alike := by
  have hon : w.Agree (pure { outs := [some env], declared })
      (pure { outs := [some env'], declared := declared' }) fun v => Outcome.Mirrors v.Alike :=
    .pure fun _ _ hwv => ⟨.cons (.some (env_grows henv hwv)) .nil, env_grows hdeclared hwv, .nil, .none,
      .none, rfl⟩
  -- a result is held against the declared one, and no way leads on
  have hends {v : Twins} (hwv : w.Grows v) {a b : Ty} (hab : v.Alike a b) :
      v.Agree
        (do return { outs := [], declared, findings := ← checkReturn returns a })
        (do return { outs := [], declared := declared', findings := ← checkReturn returns' b })
        fun v => Outcome.Mirrors v.Alike := by
    refine (agree_checkReturn (option_grows hreturns hwv) hab).bind fun u _ _ _ hvu hfs => ?_
    refine .pure fun u' _ huu' => ⟨.nil, ?_, findings_grow hfs huu', .none, .none, rfl⟩
    exact env_grows hdeclared ((hwv.trans hvu).trans huu')
  cases hxy with
  | entry => exact hon
  | merge => exact hon
  | other _ =>
    exact .pure fun _ _ hwv => ⟨.cons .none .nil, env_grows hdeclared hwv, .nil, .none, .none, rfl⟩
  | throw _ => exact .pure fun _ _ hwv => ⟨.nil, env_grows hdeclared hwv, .nil, .none, .none, rfl⟩
  | exit => exact .of_sound fun v hv hwv => hends hwv (hv.atom (by simp [atoms]))
  | ret h =>
    cases h with
    | none => exact .of_sound fun v hv hwv => hends hwv (hv.atom (by simp [atoms]))
    | some h =>
      rw [transfer, transfer]
      exact (agree_valueType hs hdeclared henv h).bind fun v _ _ _ hwv hab => hends hwv hab
  | @assign name _ _ declare o o' hvalue hascribed =>
    have hnone : o.isNone = o'.isNone := by cases hascribed <;> rfl
    rw [transfer, transfer, hnone]
    refine (agree_valueType hs hdeclared henv hvalue).bind fun v _ _ _ hwv hab => ?_
    refine (agree_assign (env_grows hdeclared hwv) (env_grows henv hwv) name hab _).bind ?_
    intro u p q _ _ hpq
    refine .pure fun u' _ huu' => ?_
    exact ⟨.cons (.some (env_grows hpq.env huu')) .nil, env_grows hpq.declared huu',
      findings_grow hpq.findings huu', .none, .none, rfl⟩
  | @call c d hcd =>
    rw [transfer, transfer]
    refine (agree_resolveCall hs hdeclared henv hcd).bind fun v p q _ hwv hpq => ?_
    rw [hcd.result, hcd.declare]
    replace hdeclared := env_grows hdeclared hwv
    replace henv := env_grows henv hwv
    cases d.result with
    | none =>
      refine .pure fun u _ hvu => ⟨.cons (.some (env_grows henv hvu)) .nil, env_grows hdeclared hvu,
        findings_grow hpq.findings hvu, .some (hpq.imp fun _ _ h => h.grows hvu), .none, rfl⟩
    | some name =>
      refine (agree_assign hdeclared henv name hpq.ret d.declare).bind fun u r r' _ hvu hr => ?_
      refine .pure fun u' _ huu' => ⟨.cons (.some (env_grows hr.env huu')) .nil,
        env_grows hr.declared huu', ?_, .some (hpq.imp fun _ _ h => h.grows (hvu.trans huu')), .none, rfl⟩
      exact List.rel_append (findings_grow hpq.findings (hvu.trans huu')) (findings_grow hr.findings huu')
  | branch h =>
    cases h with
    | none =>
      exact .pure fun _ _ hwv => ⟨.cons (.some (env_grows henv hwv)) (.cons (.some (env_grows henv hwv))
        .nil), env_grows hdeclared hwv, .nil, .none, .none, rfl⟩
    | @some g g' hg =>
      refine .of_sound fun v hv hwv => ?_
      replace hdeclared := env_grows hdeclared hwv
      replace henv := env_grows henv hwv
      replace hg := hg.imp fun _ _ h => Alike.grows h hwv
      rw [transfer, transfer, hg.target_eq]
      refine (agree_narrow (surroundings_grow hs hwv).preds (.some henv.find?_rel) hg
        (current_alike hv hdeclared henv _)).bind fun u p q _ hvu hpq => ?_
      refine .pure fun u' hu' huu' => ⟨?_, env_grows hdeclared (hvu.trans huu'), .nil, .none, .none,
        hpq.degraded⟩
      have henv := env_grows henv (hvu.trans huu')
      exact .cons (narrowed_rel hu'.mirroring henv _ (hpq.yes.grows huu'))
        (.cons (narrowed_rel hu'.mirroring henv _ (hpq.no.grows huu')) .nil)
  | @switch c d hcd =>
    refine .of_sound fun v hv hwv => ?_
    replace hdeclared := env_grows hdeclared hwv
    replace henv := env_grows henv hwv
    rw [transfer, transfer, hcd.var, hcd.prop]
    refine (agree_splitCases (surroundings_grow hs hwv).preds d.prop (alike_grows hcd.cases hwv)
      (current_alike hv hdeclared henv _)).bind fun u p q _ hvu hpq => ?_
    refine .pure fun u' hu' huu' => ?_
    replace hpq := hpq.imp fun _ _ h => Alike.grows h huu'
    replace henv := env_grows henv (hvu.trans huu')
    refine ⟨List.rel_append ?_ ?_, env_grows hdeclared (hvu.trans huu'), ?_, .none, .some hpq, hpq.degraded⟩
    · rw [List.forall₂_map_left_iff, List.forall₂_map_right_iff]
      exact hpq.cases.imp fun _ _ h => narrowed_rel hu'.mirroring henv _ h
    · exact .cons (narrowed_rel hu'.mirroring henv _ hpq.residual) .nil
    · dsimp only
      rw [hcd.hasDefault]
      split
      · exact .nil
      · exact missingCases_rel hu'.mirroring hpq

end Twins
end FlowTyping
