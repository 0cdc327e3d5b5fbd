import FlowTyping.Proofs.Overload.Chosen
import FlowTyping.Proofs.Signature.Covariant

/-!
# Inferred type arguments

Inference matches the arguments of a call against the parameter types and joins what stands where a type
parameter does into its lower bound. Bounds only grow on the way, so at the end each includes every part that
was matched with its parameter, and the binding that is widened from it does too. Where the parameter types are
covariant that is all that an argument needs to be accepted.

* **`Universe.gathers_matchType`** — matching an argument against a covariant type feeds the bounds with its
  parts.
* **`Universe.yields_solve_fed`** — the bindings of a call without type arguments include the matched parts.
* **`Universe.History.attempt_inferred`** — a call that is accepted with type arguments is accepted without.
* **`Session.collision_refused`** — a call that is not, in a universe where two types have one key.
-/

namespace FlowTyping

open Ty Signature

variable {h : Hierarchy} {u v : Universe}

/-! ## Lower bounds -/

namespace Ty

variable {r t x : Ty} {ts : List Ty}

/-- The alternatives of a type are among those of another. -/
def Includes (t x : Ty) : Prop := ∀ m ∈ x.members, t.Holds m

theorem Includes.self (t : Ty) : t.Includes t := fun _ hm => .of_mem hm

theorem Includes.union (hx : t.Includes x) (hf : t.Flat) (ht : t ∈ ts) : (h.union ts).Includes x :=
  fun m hm => Hierarchy.holds_union hf ht (hx m hm)

/-- A tree has the alternatives of the type that it stands for. -/
theorem Includes.of_stands (hu : u.Sound h) (hs : u.Stands r t) (ht : t.Includes x) : r.Includes x := by
  intro m hm
  rcases ht m hm with rfl | ⟨m', hm', hstands⟩
  · exact .inl (eq_of_key_eq_atom (by simp [atoms]) (hu.key_eq hs.lookup?))
  · obtain ⟨m'', hm'', hk⟩ := exists_mem_left (hu.mirroring.members_rel hs) hm'
    exact .inr ⟨m'', hm'', StandsFor.trans (.inl (hu.key_eq hk.lookup?)) hstands⟩

/-- Widening its literals takes no alternative from a type. -/
theorem Includes.widened (ht : Canonical t) (hx : t.Includes x) :
    (h.union (t.members.map Ty.widened)).Includes x := by
  intro m hm
  have hown {m : Ty} (hm : m ∈ t.members) : m.widened.Flat ∧ m.widened.members = [m.widened] := by
    cases t with
    | union ms =>
      have hm := isMember_iff.1 (ht.flat m hm)
      cases m with
      | union _ => simp [isUnion] at hm
      | never => simp [isNever] at hm
      | literal l => cases l <;> exact ⟨trivial, rfl⟩
      | _ => exact ⟨trivial, rfl⟩
    | never => simp [members] at hm
    | literal l =>
      obtain rfl := List.mem_singleton.1 hm
      cases l <;> exact ⟨trivial, rfl⟩
    | _ =>
      obtain rfl := List.mem_singleton.1 hm
      exact ⟨trivial, rfl⟩
  rcases hx m hm with rfl | ⟨m', hm', hstands⟩
  · exact Hierarchy.holds_union trivial (t := .unknown) (by simp [members, Ty.widened]) (.inl rfl)
  · refine Hierarchy.holds_union (hown hm').1 (List.mem_map_of_mem hm') (.inr ⟨m'.widened, by simp [(hown hm').2], ?_⟩)
    cases m' with
    | literal l =>
      rcases hstands with hk | ⟨l', rfl, hbase⟩
      · exact .inr ⟨l, literal_eq_of_key_eq hk.symm, rfl⟩
      · cases l' <;> simp [Literal.base] at hbase
    | _ => exact hstands

end Ty

namespace Subst

variable {subst subst' : Subst} {param w t x : Ty}

theorem get?_add : (subst.add param t).get? w = if param.same w then some t else subst.get? w := by
  -- the old binding is the only one that the filter drops
  have hothers : (subst.filter (!·.param.same param)).find? (·.param.same w) =
      if param.same w then none else subst.find? (·.param.same w) := by
    rw [List.find?_filter]
    split <;> rename_i hsame <;> simp only [Ty.same, beq_iff_eq] at hsame
    · exact List.find?_eq_none.2 fun b _ => by simp [Ty.same, hsame]
    · refine congrFun (congrArg List.find? (funext fun b => ?_)) subst
      by_cases hb : b.param.key = w.key
      · simp [Ty.same, hb, Ne.symm hsame]
      · simp [Ty.same, hb]
  rw [get?, add, List.find?_append, hothers]
  split <;> rename_i hsame <;> simp [get?, hsame]

theorem get?_congr (hk : param.key = w.key) : subst.get? param = subst.get? w := by
  simp [get?, Ty.same, hk]

theorem get?_add_self : (subst.add param t).get? param = some t := by
  rw [get?_add, if_pos (show param.same param = true from beq_self_eq_true _)]

/-- A type parameter is bound to a type that includes another. -/
def Includes (subst : Subst) (param x : Ty) : Prop := ∃ t, subst.get? param = some t ∧ t.Includes x

/-- Whatever the bindings include the others do too. -/
def Below (subst subst' : Subst) : Prop := ∀ param x, subst.Includes param x → subst'.Includes param x

theorem Below.refl (subst : Subst) : subst.Below subst := fun _ _ => id

theorem Below.trans {subst'' : Subst} (hle : subst.Below subst') (hle' : subst'.Below subst'') :
    subst.Below subst'' :=
  fun param x hx => hle' param x (hle param x hx)

/-- Other parameters keep their bindings, so only what this one was bound to has to be included. -/
theorem below_add (ht : ∀ prev ∈ subst.get? param, ∀ x, prev.Includes x → t.Includes x) :
    subst.Below (subst.add param t) := by
  rintro w x ⟨prev, hget, hx⟩
  by_cases hsame : param.same w = true
  · refine ⟨t, by rw [get?_add, if_pos hsame], ht prev ?_ x hx⟩
    rw [Ty.same, beq_iff_eq] at hsame
    rw [get?_congr hsame, hget]
    rfl
  · exact ⟨prev, by rw [get?_add, if_neg hsame, hget], hx⟩

end Subst

namespace Signature

variable {vars : List Ty} {bounds bounds' : Bounds} {param arg : Ty}

/-- The parts of an argument that stand where type parameters do are included in their bounds. -/
def FedBy (h : Hierarchy) (vars : List Ty) (param arg : Ty) (bounds : Bounds) : Prop :=
  Fed h (fun v x => isOneOf vars v = true ∧ bounds.Includes v x) param arg

/-- What is true of bounds stays true when they grow. -/
def Upward (Q : Bounds → Prop) : Prop := ∀ bounds bounds' : Bounds, bounds.Below bounds' → Q bounds → Q bounds'

theorem fedBy_upward : Upward (FedBy h vars param arg) :=
  fun _ _ hle hfed => hfed.imp fun v x hx => ⟨hx.1, hle v x hx.2⟩

/-- What a part of an argument feeds the bounds with, if it is a tuple that is matched against one. -/
structure FedElems (h : Hierarchy) (vars : List Ty) (elems : List (Elem Ty)) (rest : Option Ty) (part : Ty)
    (bounds : Bounds) : Prop where
  elem : ∀ as ra, part = .tuple as ra → ∀ (i : Nat) (e : Elem Ty) (s : Ty), elems[i]? = some e →
    elemAt as ra i = some s → FedBy h vars e.type s bounds
  rest : ∀ as ra, part = .tuple as ra → ∀ r ∈ rest, ∀ s ∈ (as.drop elems.length).map (·.type) ++ ra.toList,
    FedBy h vars r s bounds

theorem FedElems.of_no_tuple {elems : List (Elem Ty)} {rest : Option Ty} {part : Ty}
    (hno : ∀ as ra, part = .tuple as ra → False) : FedElems h vars elems rest part bounds :=
  ⟨fun as ra heq => (hno as ra heq).elim, fun as ra heq => (hno as ra heq).elim⟩

theorem fedElems_upward {elems : List (Elem Ty)} {rest : Option Ty} {part : Ty} :
    Upward (FedElems h vars elems rest part) :=
  fun _ _ hle hfed => ⟨fun as ra hpart i e s he hs => fedBy_upward _ _ hle (hfed.elem as ra hpart i e s he hs),
    fun as ra hpart r hr s hs => fedBy_upward _ _ hle (hfed.rest as ra hpart r hr s hs)⟩

/-- Nothing is matched against a closed type. -/
theorem matchType_of_closed {m : Type → Type} [TypeStore m] (hclosed : Closed param) :
    (matchType vars param arg bounds : m Bounds) = pure bounds := by
  have hyes : isClosed param = true := List.isEmpty_iff.2 hclosed
  cases param with
  | var name bound => exact absurd hclosed (not_closed_var name bound)
  | tuple elems rest => cases rest <;> rw [matchType, if_pos hyes]
  | object _ _ | function _ _ | union _ | inter _ => rw [matchType, if_pos hyes]
  | _ => rw [matchType] <;> simp

end Signature

/-! ## Types by position -/

namespace Signature

variable {vars : List Ty} {ps : List (Param Ty)} {t : Ty} {i : Nat}

/-- The types of rest parameters are arrays, the first elements of which may have types of their own. -/
def ArrayRests (ps : List (Param Ty)) : Prop :=
  ∀ p ∈ ps, p.rest = true → ∃ elems rest, p.type = .tuple elems (some rest)

/-- What a rest parameter wants is covariant if its type is. -/
theorem covariant_restType (ht : Covariant vars t) (i : Nat) : Covariant vars (restType t i) := by
  rw [restType.eq_def]
  split
  · rename_i elems rest
    have hparts : (∀ e ∈ elems, Covariant vars e.type) ∧ Covariant vars rest := by
      cases ht with
      | closed hclosed =>
        refine ⟨fun e he => .closed (hclosed.part ?_), .closed (hclosed.part ?_)⟩
        · exact List.mem_append_left _ (List.mem_map_of_mem he)
        · exact List.mem_append_right _ (by simp)
      | tuple he hr => exact ⟨he, hr rest rfl⟩
    split
    · rename_i e he
      exact hparts.1 e (List.mem_of_getElem? he)
    · exact hparts.2
  · exact ht

theorem covariant_typeAt (hps : ∀ p ∈ ps, Covariant vars p.type) (ht : typeAt ps i = some t) :
    Covariant vars t := by
  induction ps generalizing i with
  | nil => simp at ht
  | cons p ps ih =>
    cases hp : p.rest with
    | true =>
      rw [typeAt_rest hp] at ht
      exact Option.some.inj ht ▸ covariant_restType (hps p (by simp)) i
    | false =>
      cases i with
      | zero =>
        rw [typeAt_zero hp] at ht
        exact Option.some.inj ht ▸ hps p (by simp)
      | succ i =>
        rw [typeAt_succ hp] at ht
        exact ih (fun q hq => hps q (by simp [hq])) ht

/-- Replacing keeps the positions of an array. -/
theorem restType_replaced (subst : Subst) (elems : List (Elem Ty)) (rest : Ty) (i : Nat) :
    restType (h.replaced subst (.tuple elems (some rest))) i =
      h.replaced subst (restType (.tuple elems (some rest)) i) := by
  rw [Hierarchy.replaced_tuple]
  simp only [restType, Option.map_some, List.getElem?_map]
  cases elems[i]? <;> rfl

end Signature

/-! ## Bounds that grow -/

namespace Universe

variable {bounds : Bounds} {x : InUniverse Bounds} {Q R : Bounds → Prop} {vars : List Ty} {param arg t : Ty}

/-- The computation ends with such bounds, which are entries and include what was included before. -/
def Gathers (h : Hierarchy) (u : Universe) (bounds : Bounds) (x : InUniverse Bounds) (Q : Bounds → Prop) : Prop :=
  u.Yields h x fun v bounds' => (∀ b ∈ bounds', v.Keeps b.type) ∧ bounds.Below bounds' ∧ Q bounds'

theorem gathers_self (hb : ∀ b ∈ bounds, u.Keeps b.type) (hq : Q bounds) : u.Gathers h bounds (pure bounds) Q :=
  .pure fun _ _ huv => ⟨fun b hmem => huv.keeps (hb b hmem), .refl bounds, hq⟩

theorem Gathers.imp (hx : u.Gathers h bounds x Q) (hq : ∀ bounds', Q bounds' → R bounds') :
    u.Gathers h bounds x R :=
  Yields.imp hx fun _ _ _ _ ⟨hb, hle, hQ⟩ => ⟨hb, hle, hq _ hQ⟩

/-- One computation after the other; what the first one gathers is not lost. -/
theorem Gathers.bind {f : Bounds → InUniverse Bounds} (hx : u.Gathers h bounds x Q) (hQ : Upward Q)
    (hf : ∀ (v : Universe) (bounds : Bounds), v.Sound h → u.Grows h v → (∀ b ∈ bounds, v.Keeps b.type) →
      v.Gathers h bounds (f bounds) R) :
    u.Gathers h bounds (x >>= f) fun bounds' => Q bounds' ∧ R bounds' :=
  Yields.bind hx fun v bounds' hv huv ⟨hb, hle, hq⟩ => Yields.imp (hf v bounds' hv huv hb)
    fun _ _ _ _ ⟨hb', hle', hq'⟩ => ⟨hb', hle.trans hle', hQ _ _ hle' hq, hq'⟩

/-- A loop gathers what each of its steps does. -/
theorem gathers_each {α : Type} {xs : List α} {f : Bounds → α → InUniverse Bounds} {Q : α → Bounds → Prop}
    (hQ : ∀ x, Upward (Q x)) (hb : ∀ b ∈ bounds, u.Keeps b.type)
    (hf : ∀ x ∈ xs, ∀ (v : Universe) (bounds : Bounds), v.Sound h → u.Grows h v →
      (∀ b ∈ bounds, v.Keeps b.type) → v.Gathers h bounds (f bounds x) (Q x)) :
    u.Gathers h bounds (xs.foldlM f bounds) fun bounds' => ∀ x ∈ xs, Q x bounds' := by
  induction xs generalizing u bounds with
  | nil => exact gathers_self hb (by simp)
  | cons x xs ih =>
    rw [List.foldlM_cons]
    refine Yields.of_sound fun v hv huv => ?_
    have hfirst := hf x (by simp) v bounds hv huv fun b hmem => huv.keeps (hb b hmem)
    refine (hfirst.bind (hQ x) fun w bounds _ hvw hb => ih hb fun y hy w' bounds hw' hww' => ?_).imp
      fun bounds' hboth => List.forall_mem_cons.2 hboth
    exact hf y (by simp [hy]) w' bounds hw' ((huv.trans hvw).trans hww')

/-- Raising a bound includes the type. -/
theorem gathers_raise (hb : ∀ b ∈ bounds, u.Keeps b.type) (ht : u.Keeps t) :
    u.Gathers h bounds (bounds.raise param t) fun bounds' => bounds'.Includes param t := by
  have hadd {v : Universe} {s : Ty} (hb : ∀ b ∈ bounds, v.Keeps b.type) (hs : v.Keeps s) :
      ∀ b ∈ bounds.add param s, v.Keeps b.type := by
    intro b hmem
    rcases List.mem_append.1 hmem with hmem | hmem
    · exact hb b (List.mem_filter.1 hmem).1
    · exact List.mem_singleton.1 hmem ▸ hs
  rw [Bounds.raise]
  cases hget : bounds.get? param with
  | none =>
    refine Yields.pure fun v _ huv => ⟨hadd (fun b hmem => huv.keeps (hb b hmem)) (huv.keeps ht), ?_, ?_⟩
    · exact Subst.below_add (by simp [hget])
    · exact ⟨t, Subst.get?_add_self, .self t⟩
  | some prev =>
    refine Yields.of_sound fun v hv huv => ?_
    have hprev : v.Keeps prev := huv.keeps (keeps_get? hb hget)
    have hstands : List.Forall₂ v.Stands [prev, t] [prev, t] :=
      hv.stands_all (by simpa using ⟨hprev, huv.keeps ht⟩)
    refine (yields_union hstands).bind fun w joined hw hvw hjoined => ?_
    have hincludes {s y : Ty} (hs : s ∈ [prev, t]) (hkept : v.Keeps s) (hy : s.Includes y) : joined.Includes y :=
      (hy.union (hv.canonical hkept).flat hs).of_stands hw hjoined
    refine .pure fun w' _ hww' => ⟨?_, Subst.below_add fun s hs y hy => ?_, joined, Subst.get?_add_self, ?_⟩
    · exact hadd (fun b hmem => hww'.keeps (hvw.keeps (huv.keeps (hb b hmem)))) (hww'.keeps (hw.keeps_of_stands hjoined))
    · obtain rfl := Option.some.inj (hget.symm.trans hs)
      exact hincludes (by simp) hprev hy
    · exact hincludes (by simp) (huv.keeps ht) (.self t)

/-! ## Matching -/

/-- Matching an argument against the type feeds the bounds with its parts, in whichever universe. -/
def MatchesFed (h : Hierarchy) (vars : List Ty) (param : Ty) : Prop :=
  ∀ {u : Universe} {arg : Ty} {bounds : Bounds}, u.Keeps arg → Plain arg → (∀ b ∈ bounds, u.Keeps b.type) →
    u.Gathers h bounds (matchType vars param arg bounds) (FedBy h vars param arg)

theorem gathers_matchElems {elems as : List (Elem Ty)} {ra : Option Ty}
    (heach : ∀ e ∈ elems, MatchesFed h vars e.type) (ha : ∀ e ∈ as, u.Keeps e.type ∧ Plain e.type)
    (hr : ∀ t ∈ ra, u.Keeps t ∧ Plain t) (hb : ∀ b ∈ bounds, u.Keeps b.type) :
    u.Gathers h bounds (matchElems vars elems as ra bounds) fun bounds' => ∀ (i : Nat) (e : Elem Ty) (s : Ty),
      elems[i]? = some e → elemAt as ra i = some s → FedBy h vars e.type s bounds' := by
  induction elems generalizing u as bounds with
  | nil =>
    rw [matchElems]
    exact gathers_self hb (by simp)
  | cons e elems ih =>
    -- the first element is matched with a type, the others with the types after it
    have hrest {as' : List (Elem Ty)} (ha' : ∀ e ∈ as', u.Keeps e.type ∧ Plain e.type) {t : Ty}
        (ht : u.Keeps t ∧ Plain t) (hfirst : elemAt as ra 0 = some t)
        (hnext : ∀ i, elemAt as ra (i + 1) = elemAt as' ra i) :
        u.Gathers h bounds (matchType vars e.type t bounds >>= matchElems vars elems as' ra)
          fun bounds' => ∀ (i : Nat) (e' : Elem Ty) (s : Ty), (e :: elems)[i]? = some e' →
            elemAt as ra i = some s → FedBy h vars e'.type s bounds' := by
      refine ((heach e (by simp) ht.1 ht.2 hb).bind fedBy_upward fun v bounds _ huv hb =>
        ih (fun e he => heach e (by simp [he])) (fun x hx => ⟨huv.keeps (ha' x hx).1, (ha' x hx).2⟩)
          (fun x hx => ⟨huv.keeps (hr x hx).1, (hr x hx).2⟩) hb).imp ?_
      rintro bounds' ⟨hhead, htail⟩ (_ | i) e' s hat hs
      · obtain rfl := Option.some.inj hat
        obtain rfl := Option.some.inj (hfirst.symm.trans hs)
        exact hhead
      · exact htail i e' s hat (hnext i ▸ hs)
    cases as with
    | cons a as =>
      rw [matchElems]
      exact hrest (fun x hx => ha x (by simp [hx])) (ha a (by simp)) rfl fun _ => rfl
    | nil =>
      cases ra with
      | none =>
        rw [matchElems]
        exact gathers_self hb (by simp [elemAt])
      | some r =>
        rw [matchElems]
        exact hrest (by simp) (hr r rfl) rfl fun _ => rfl

section Tuples

variable {elems as : List (Elem Ty)} {ra : Option Ty} {rest : Ty}

theorem Sound.elems_plain (hu : u.Sound h) (ha : u.Keeps (.tuple as ra)) (hplain : Plain (.tuple as ra)) :
    ∀ e ∈ as, u.Keeps e.type ∧ Plain e.type := by
  intro e he
  have hpart : e.type ∈ (Ty.tuple as ra).parts := List.mem_append_left _ (List.mem_map_of_mem he)
  exact ⟨hu.part ha _ hpart, hplain.part hpart⟩

theorem Sound.rest_plain (hu : u.Sound h) (ha : u.Keeps (.tuple as ra)) (hplain : Plain (.tuple as ra)) :
    ∀ t ∈ ra, u.Keeps t ∧ Plain t := by
  intro t ht
  have hpart : t ∈ (Ty.tuple as ra).parts := List.mem_append_right _ (Option.mem_toList.2 ht)
  exact ⟨hu.part ha _ hpart, hplain.part hpart⟩

/-- A tuple is matched against one with rest elements: position by position, then what is left of it. -/
theorem gathers_matchRest (hu : u.Sound h) (heach : ∀ e ∈ elems, MatchesFed h vars e.type)
    (hrest : MatchesFed h vars rest) (ha : u.Keeps (.tuple as ra)) (hplain : Plain (.tuple as ra))
    (hb : ∀ b ∈ bounds, u.Keeps b.type) :
    u.Gathers h bounds
      (do
        let bounds ← matchElems vars elems as ra bounds
        let bounds ← (as.drop elems.length).foldlM (fun bounds e => matchType vars rest e.type bounds) bounds
        match ra with
        | some argRest => matchType vars rest argRest bounds
        | none => pure bounds)
      (FedElems h vars elems (some rest) (.tuple as ra)) := by
  have helems := hu.elems_plain ha hplain
  have hra := hu.rest_plain ha hplain
  have hfront := gathers_matchElems heach helems hra hb
  -- first the positions of both, then what is left of the argument against the rest
  refine (hfront.bind (R := fun bounds' => ∀ s ∈ (as.drop elems.length).map (·.type) ++ ra.toList,
    FedBy h vars rest s bounds') ?_ fun v bounds _ huv hb => ?_).imp fun bounds' ⟨hpos, hleft⟩ => ?_
  · exact fun _ _ hle hall i e s he hs => fedBy_upward _ _ hle (hall i e s he hs)
  · refine ((gathers_each (Q := fun e => FedBy h vars rest e.type) (fun _ => fedBy_upward) hb
      fun e he w bounds _ hvw hb => ?_).bind (R := fun bounds' => ∀ t ∈ ra, FedBy h vars rest t bounds') ?_
        fun w bounds _ hvw hb => ?_).imp fun bounds' ⟨hdropped, hlast⟩ s hs => ?_
    · have he := helems e (List.mem_of_mem_drop he)
      exact hrest (hvw.keeps (huv.keeps he.1)) he.2 hb
    · exact fun _ _ hle hall e he => fedBy_upward _ _ hle (hall e he)
    · cases ra with
      | none => exact gathers_self hb (by simp)
      | some t =>
        have ht := hra t rfl
        exact (hrest (hvw.keeps (huv.keeps ht.1)) ht.2 hb).imp fun _ hfed => by simpa using hfed
    · rcases List.mem_append.1 hs with hs | hs
      · obtain ⟨e, he, rfl⟩ := List.mem_map.1 hs
        exact hdropped e he
      · exact hlast s (Option.mem_toList.1 hs)
  · refine ⟨fun _ _ heq => ?_, fun _ _ heq r hr => ?_⟩ <;> cases heq
    · exact hpos
    · cases hr
      exact hleft

end Tuples

/-- The universe answers the property of a single argument as it stands there. -/
theorem Sound.eq_of_stands_property (hu : u.Sound h) (ha : u.Keeps arg) (hplain : Plain arg)
    (hno : arg.isUnion = false) {name : Text} {q q' : Property Ty} (hq : h.propertyOf arg name = some q)
    (hs : u.Stands q'.type q.type) : q'.type = q.type := by
  have hkey := hu.key_eq hs.lookup?
  rcases hplain.propertyOf hno hq with hpart | hnumber | ⟨l, hliteral⟩
  · exact (hu.keeps_of_stands hs).eq_of_key_eq (hu.part ha _ hpart) hkey
  · rw [hnumber] at hkey ⊢
    exact eq_of_key_eq_atom (by simp [atoms]) hkey
  · rw [hliteral] at hkey ⊢
    exact literal_eq_of_key_eq hkey

theorem gathers_matchProps {props : List (Property Ty)} (heach : ∀ p ∈ props, MatchesFed h vars p.type)
    (ha : u.Keeps arg) (hplain : Plain arg) (hno : arg.isUnion = false) (hb : ∀ b ∈ bounds, u.Keeps b.type) :
    u.Gathers h bounds (matchProps vars props arg bounds) fun bounds' => ∀ p ∈ props, ∀ q,
      h.propertyOf arg p.name = some q → FedBy h vars p.type q.type bounds' := by
  induction props generalizing u bounds with
  | nil =>
    rw [matchProps]
    exact gathers_self hb (by simp)
  | cons p props ih =>
    have hrest {v : Universe} (huv : u.Grows h v) {bounds : Bounds} (hb : ∀ b ∈ bounds, v.Keeps b.type) :
        v.Gathers h bounds (matchProps vars props arg bounds) fun bounds' => ∀ p ∈ props, ∀ q,
          h.propertyOf arg p.name = some q → FedBy h vars p.type q.type bounds' :=
      ih (fun p hp => heach p (by simp [hp])) (huv.keeps ha) hb
    rw [matchProps]
    refine Yields.of_sound fun v hv huv => ?_
    replace hb : ∀ b ∈ bounds, v.Keeps b.type := fun b hmem => huv.keeps (hb b hmem)
    refine (yields_propertyOf (hv.stands (huv.keeps ha)) p.name).bind fun w found hw hvw hfound => ?_
    replace hb : ∀ b ∈ bounds, w.Keeps b.type := fun b hmem => hvw.keeps (hb b hmem)
    have huw := huv.trans hvw
    -- a property that the argument lacks feeds nothing
    cases hq : h.propertyOf arg p.name with
    | none =>
      rw [hq] at hfound
      cases hfound
      refine (hrest huw hb).imp fun bounds' htail => List.forall_mem_cons.2 ⟨?_, htail⟩
      simp [hq]
    | some q =>
      rw [hq] at hfound
      cases hfound with
      | @some q' _ hmirrors =>
        have heq := hw.eq_of_stands_property (huw.keeps ha) hplain hno hq hmirrors.type
        have hkept := hw.keeps_of_stands hmirrors.type
        dsimp only
        rw [heq] at hkept ⊢
        refine ((heach p (by simp) hkept (hplain.of_propertyOf hno hq) hb).bind fedBy_upward
          fun _ _ _ hww' hb => hrest (huw.trans hww') hb).imp fun bounds' hboth => ?_
        refine List.forall_mem_cons.2 ⟨fun q'' hq'' => ?_, hboth.2⟩
        obtain rfl := Option.some.inj (hq.symm.trans hq'')
        exact hboth.1

/-- The parts of an argument are matched one after the other. -/
theorem gathers_eachPart (ha : u.Keeps arg) (hplain : Plain arg) (hb : ∀ b ∈ bounds, u.Keeps b.type)
    {f : Bounds → Ty → InUniverse Bounds} {Q : Ty → Bounds → Prop} (hQ : ∀ x, Upward (Q x))
    (hf : ∀ (v : Universe) (part : Ty) (bounds : Bounds), v.Sound h → part.isUnion = false → v.Keeps part →
      Plain part → (∀ b ∈ bounds, v.Keeps b.type) → v.Gathers h bounds (f bounds part) (Q part)) :
    u.Gathers h bounds ((matchedParts arg).foldlM f bounds) fun bounds' => ∀ part ∈ matchedParts arg, Q part bounds' := by
  refine Yields.of_sound fun v hv huv => ?_
  have hparts : ∀ part ∈ matchedParts arg, v.Keeps part := by
    intro part hp
    have ha := huv.keeps ha
    cases arg with
    | union ms => exact hv.part ha part hp
    | _ => exact List.mem_singleton.1 hp ▸ ha
  refine gathers_each hQ (fun b hmem => huv.keeps (hb b hmem)) fun part hp w bounds hw hvw hb => ?_
  obtain ⟨hpart, hno⟩ := hplain.matchedParts hp
  exact hf w part bounds hw hno (hvw.keeps (hparts part hp)) hpart hb

/-- A closed type is fed whatever the argument is, so only open ones have to be looked at. -/
theorem matchesFed_of_open (hopen : isClosed param ≠ true → MatchesFed h vars param) : MatchesFed h vars param := by
  intro u arg bounds ha hplain hb
  by_cases hclosed : Closed param
  · rw [matchType_of_closed hclosed]
    exact gathers_self hb (.closed hclosed)
  · exact hopen (fun hyes => hclosed (List.isEmpty_iff.1 hyes)) ha hplain hb

theorem matchesFed_tuple {elems : List (Elem Ty)} {rest : Option Ty} (ihe : ∀ e ∈ elems, MatchesFed h vars e.type)
    (ihr : ∀ t ∈ rest, MatchesFed h vars t) : MatchesFed h vars (.tuple elems rest) := by
  refine matchesFed_of_open fun hopen u arg bounds ha hplain hb => ?_
  have hfed {bounds : Bounds} (hall : ∀ part ∈ matchedParts arg, FedElems h vars elems rest part bounds) :
      FedBy h vars (.tuple elems rest) arg bounds :=
    .tuple (fun part hp => (hall part hp).elem) fun part hp => (hall part hp).rest
  -- parts of the argument that are no tuples are passed over
  cases rest with
  | none =>
    rw [matchType, if_neg hopen]
    refine (gathers_eachPart ha hplain hb (fun _ => fedElems_upward) ?_).imp fun _ => hfed
    intro v part bounds hv _ hkept hpart hb
    split
    · refine (gathers_matchElems ihe (hv.elems_plain hkept hpart) (hv.rest_plain hkept hpart) hb).imp ?_
      intro bounds' hall
      refine ⟨fun as ra heq => ?_, fun _ _ _ r hr => absurd hr (Option.not_mem_none r)⟩
      cases heq
      exact hall
    · rename_i hno
      exact gathers_self hb (.of_no_tuple hno)
  | some rest =>
    rw [matchType, if_neg hopen]
    refine (gathers_eachPart ha hplain hb (fun _ => fedElems_upward) ?_).imp fun _ => hfed
    intro v part bounds hv _ hkept hpart hb
    split
    · exact gathers_matchRest hv ihe (ihr rest rfl) hkept hpart hb
    · rename_i hno
      exact gathers_self hb (.of_no_tuple hno)

theorem matchesFed_object {tag : String} {props : List (Property Ty)}
    (ihp : ∀ p ∈ props, MatchesFed h vars p.type) : MatchesFed h vars (.object tag props) := by
  refine matchesFed_of_open fun hopen u arg bounds ha hplain hb => ?_
  rw [matchType, if_neg hopen]
  refine (gathers_eachPart ha hplain hb (Q := fun part bounds' => ∀ p ∈ props, ∀ q,
    h.propertyOf part p.name = some q → FedBy h vars p.type q.type bounds') ?_ ?_).imp fun bounds' hall => ?_
  · exact fun part bounds bounds' hle hall p hp q hq => fedBy_upward _ _ hle (hall p hp q hq)
  · exact fun v part bounds _ hno hkept hpart hb => gathers_matchProps ihp hkept hpart hno hb
  · exact .object hall

/-- **Matching feeds the bounds.** The induction is on the covariant type; the argument is taken apart along
with it. -/
theorem gathers_matchType (hcov : Covariant vars param) : MatchesFed h vars param := by
  induction hcov with
  | closed hclosed => exact matchesFed_of_open fun hopen => absurd (List.isEmpty_iff.2 hclosed) hopen
  | param hv =>
    intro u arg bounds ha _ hb
    rw [matchType, if_pos hv]
    exact (gathers_raise hb ha).imp fun _ hincluded => .param ⟨hv, hincluded⟩
  | tuple _ _ ihe ihr => exact matchesFed_tuple ihe ihr
  | object _ ihp => exact matchesFed_object ihp

/-! ## Bindings -/

variable {sig : Signature} {args explicit vs : List Ty} {i : Nat}

/-- Each argument feeds the bounds with its parts. -/
theorem gathers_inferFrom (hcov : ∀ j p, sig.paramType? j = some p → Covariant sig.typeParams p)
    (ha : ∀ a ∈ args, u.Keeps a ∧ Plain a) (hn : ∀ k < args.length, (sig.paramType? (i + k)).isSome = true)
    (hb : ∀ b ∈ bounds, u.Keeps b.type) :
    u.Gathers h bounds (sig.inferFrom i args bounds) fun bounds' => ∀ (k : Nat) (a p : Ty), args[k]? = some a →
      sig.paramType? (i + k) = some p → FedBy h sig.typeParams p a bounds' := by
  induction args generalizing u i bounds with
  | nil => exact gathers_self hb (by simp)
  | cons a args ih =>
    obtain ⟨param, hparam⟩ := Option.isSome_iff_exists.1 (hn 0 (by simp))
    rw [Nat.add_zero] at hparam
    have ha' := ha a (by simp)
    rw [inferFrom, hparam]
    refine ((gathers_matchType (hcov i param hparam) ha'.1 ha'.2 hb).bind fedBy_upward
      fun v bounds _ huv hb => ih (i := i + 1) (fun x hx => ?_) (fun k hk => ?_) hb).imp ?_
    · exact ⟨huv.keeps (ha x (by simp [hx])).1, (ha x (by simp [hx])).2⟩
    · rw [Nat.add_assoc, Nat.add_comm 1]
      exact hn (k + 1) (by simpa using hk)
    · rintro bounds' ⟨hfirst, hrest⟩ (_ | k) a' p hat hp
      · obtain rfl := Option.some.inj hat
        obtain rfl := Option.some.inj (hparam.symm.trans hp)
        exact hfirst
      · refine hrest k a' p hat ?_
        rwa [Nat.add_assoc, Nat.add_comm 1]

/-- Without a bound of its own, a type parameter is bound to what includes what its lower bound does. -/
theorem yields_bindParam_includes {v : Ty} (hfree : v.bound? = none) (hb : ∀ b ∈ bounds, u.Keeps b.type) :
    u.Yields h (sig.bindParam false bounds v) fun _ bound => ∀ lower x,
      bounds.get? v = some lower → lower.Includes x → bound.1.Includes x := by
  rw [bindParam.eq_def]
  cases hget : bounds.get? v with
  | none =>
    dsimp only
    split <;> exact .pure fun _ _ _ lower x hsome => absurd hsome (by simp)
  | some lower =>
    have hwiden : (widen v lower : InUniverse Ty) = TypeStore.union (lower.members.map Ty.widened) := by
      rw [widen, hfree]
      rfl
    dsimp only
    rw [if_neg (by simp), hwiden]
    refine .of_sound fun w hw huw => ?_
    have hlower := huw.keeps (keeps_get? hb hget)
    -- a widened literal is an atom, any other alternative an entry
    have hstands : List.Forall₂ w.Stands (lower.members.map Ty.widened) (lower.members.map Ty.widened) := by
      refine hw.stands_all fun t ht => ?_
      obtain ⟨m, hm, rfl⟩ := List.mem_map.1 ht
      have hm := hw.keeps_members hlower hm
      cases m with
      | literal l => exact hw.atom (base_mem_atoms l)
      | _ => exact hm
    refine (yields_union hstands).bind fun w' t _ _ ht => .pure fun w'' hw'' hgrows lower' x hsome hx => ?_
    obtain rfl := Option.some.inj hsome
    exact (hx.widened (hw.canonical hlower)).of_stands hw'' (ht.grows hgrows)

theorem isOneOf_nil (t : Ty) : isOneOf [] t = false := by
  unfold isOneOf
  split <;> rfl

/-- One of several type parameters is the first or one of the others. -/
theorem same_or_isOneOf {v t : Ty} (ht : isOneOf (v :: vs) t = true) : v.same t = true ∨ isOneOf vs t = true := by
  unfold isOneOf at ht ⊢
  split at ht
  · rwa [List.any_cons, Bool.or_eq_true] at ht
  · cases ht

/-- Without bounds of their own, type parameters are bound to types that include what the lower bounds do. -/
theorem yields_bindParams_includes (hfree : ∀ v ∈ vs, v.bound? = none) (hb : ∀ b ∈ bounds, u.Keeps b.type) :
    u.Yields h (sig.bindParams false bounds vs) fun _ bound => ∀ param x, isOneOf vs param = true →
      bounds.Includes param x → bound.1.Includes param x := by
  induction vs generalizing u with
  | nil =>
    refine .pure fun _ _ _ param x hone => ?_
    rw [isOneOf_nil] at hone
    cases hone
  | cons v vs ih =>
    rw [bindParams]
    refine (yields_bindParam_includes (hfree v (by simp)) hb).bind fun w first _ huw hfirst => ?_
    refine (ih (fun t ht => hfree t (by simp [ht])) fun b hmem => huw.keeps (hb b hmem)).bind
      fun _ rest _ _ hrest => .pure fun _ _ _ param x hone hincluded => ?_
    -- a binding that comes first hides later ones of the same parameter
    by_cases hsame : v.same param = true
    · obtain ⟨lower, hget, hx⟩ := hincluded
      refine ⟨first.1, by simp [Subst.get?, hsame], hfirst lower x ?_ hx⟩
      rw [Ty.same, beq_iff_eq] at hsame
      rw [Subst.get?_congr hsame, hget]
    · obtain ⟨t, hget, hx⟩ := hrest param x ((same_or_isOneOf hone).resolve_left hsame) hincluded
      exact ⟨t, by simpa [Subst.get?, hsame] using hget, hx⟩

/-! ## Calls without type arguments -/

/-- The types of an instance stand for the replaced types, position by position. -/
theorem Sound.stands_typeAt {subst : Subst} {ps qs : List (Param Ty)} (hu : u.Sound h) (hrests : ArrayRests ps)
    (hps : List.Forall₂ (u.ReplacedParam h subst) qs ps) (ht : typeAt ps i = some t) :
    ∃ s, typeAt qs i = some s ∧ u.Stands s (h.replaced subst t) := by
  induction hps generalizing i with
  | nil => simp at ht
  | @cons q p qs ps hqp _ ih =>
    cases hp : p.rest with
    | true =>
      obtain ⟨elems, rest, htype⟩ := hrests p (by simp) hp
      rw [typeAt_rest hp] at ht
      obtain rfl := Option.some.inj ht
      refine ⟨_, typeAt_rest (hqp.rest.trans hp) i, ?_⟩
      have hstands := hu.mirroring.restType_rel hqp.type i
      rwa [htype, restType_replaced, ← htype] at hstands
    | false =>
      have hq := hqp.rest.trans hp
      cases i with
      | zero =>
        rw [typeAt_zero hp] at ht
        obtain rfl := Option.some.inj ht
        exact ⟨_, typeAt_zero hq, hqp.type⟩
      | succ i =>
        rw [typeAt_succ hp] at ht
        rw [typeAt_succ hq]
        exact ih (fun p hp => hrests p (by simp [hp])) ht

/-- A tree is above what is below the type that it stands for. -/
theorem Sound.subtype_of_stands {a s : Ty} (hu : u.Sound h) (ha : u.Keeps a) (hs : u.Stands s t) :
    h.subtype a s = h.subtype a t :=
  Says.unique hu (says_subtype (hu.stands ha) (hu.stands (hu.keeps_of_stands hs))) (says_subtype (hu.stands ha) hs)

/-- Without type arguments, bindings come from the lower bounds that the arguments give. -/
theorem run_solve_nil (u : Universe) (sig : Signature) (args : List Ty) :
    ∃ sol, ((sig.solve args [] : InUniverse _).run u).1 = .ok sol ∧
      sol.subst = ((sig.bindParams false ((sig.infer args : InUniverse _).run u).1 sig.typeParams : InUniverse _).run
        ((sig.infer args : InUniverse _).run u).2).1.1 :=
  ⟨_, rfl, rfl⟩

/-- **Inferred bindings include what is matched with their parameters.** -/
theorem Sound.solve_fed (hu : u.Sound h) (hfree : ∀ v ∈ sig.typeParams, v.bound? = none)
    (hcov : ∀ p ∈ sig.params, Covariant sig.typeParams p.type) (ha : ∀ a ∈ args, u.Keeps a ∧ Plain a)
    (hn : sig.accepts args.length = true) :
    ∃ sol, ((sig.solve args [] : InUniverse _).run u).1 = .ok sol ∧ ∀ (i : Nat) (a p : Ty), args[i]? = some a →
      sig.paramType? i = some p → Fed h sol.subst.Includes p a := by
  obtain ⟨sol, hsol, hsubst⟩ := run_solve_nil u sig args
  obtain ⟨hv, huv, hb, -, hfed⟩ := gathers_inferFrom (fun j p hp => covariant_typeAt hcov hp) ha
    (fun k hk => (Nat.zero_add k).symm ▸ isSome_paramType? hn hk)
    (show ∀ b ∈ ([] : Bounds), u.Keeps b.type by simp) u hu (.refl h u)
  obtain ⟨-, -, hincludes⟩ :=
    (yields_bindParams_includes hfree hb : Yields h _ (sig.bindParams false _ _) _) _ hv (.refl h _)
  refine ⟨sol, hsol, fun i a p hat hp => (hfed i a p hat (by simpa using hp)).imp fun v x ⟨hone, hx⟩ => ?_⟩
  rw [hsubst]
  exact hincludes v x hone hx

variable {inst : Signature} {o : Option Solution}

/-- **A call that is accepted with type arguments is accepted without them**, if the type parameters have no
bounds and the parameter types are covariant. Arguments are without type parameters and intersections. -/
theorem History.attempt_inferred (hu : u.History) (hs : ∀ t ∈ sig.types, u.Keeps t)
    (hfree : ∀ v ∈ sig.typeParams, v.bound? = none)
    (hcov : ∀ p ∈ sig.params, Covariant sig.typeParams p.type) (hrests : ArrayRests sig.params)
    (ha : ∀ a ∈ args, u.Keeps a ∧ a.freeVars = [] ∧ Unmet a) (he : ∀ t ∈ explicit, u.Keeps t)
    (hfits : ((OverloadSet.attempt sig args explicit : InUniverse _).run u).1 = .fits inst o) :
    ∃ inst o, ((OverloadSet.attempt sig args [] : InUniverse _).run u).1 = .fits inst o := by
  obtain ⟨hsound, hproper⟩ := hu.sound
  have hkept (a) (hmem : a ∈ args) : u.Keeps a := (ha a hmem).1
  have hplain (a) (hmem : a ∈ args) : u.Keeps a ∧ Plain a :=
    ⟨hkept a hmem, hsound.plain (hkept a hmem) (ha a hmem).2.1 (ha a hmem).2.2⟩
  obtain ⟨hn, subst, htakes⟩ := (hsound.attempt_fits_iff hproper hs hkept he).1 ⟨o, hfits⟩
  cases htakes.binds with
  | plain _ hnone =>
    subst hnone
    exact ⟨_, o, hfits⟩
  | @generic sol hgeneric hsolve =>
    -- the given bindings and the inferred ones, both from the universe of the call
    obtain ⟨sol', hsolve', hfed⟩ := hsound.solve_fed hfree hcov hplain hn
    obtain ⟨hv, huv, hsol⟩ := yields_solve_spec hsound hproper hgeneric hs hkept he u hsound (.refl _ u)
    obtain ⟨hv', huv', hsol'⟩ :=
      yields_solve_spec hsound hproper hgeneric hs hkept (show ∀ t ∈ [], u.Keeps t by simp) u hsound (.refl _ u)
    replace hsol := hsol sol hsolve
    replace hsol' := hsol' sol' hsolve'
    refine ⟨sol'.signature, (hsound.attempt_fits_iff hproper hs hkept (by simp)).2
      ⟨hn, sol'.subst, .generic hgeneric hsolve', fun v hvars bound hbound => ?_, fun i a hat => ?_⟩⟩
    · simp [hfree v hvars] at hbound
    · have hmem := List.mem_of_getElem? hat
      obtain ⟨p, hp⟩ := Option.isSome_iff_exists.1 (isSome_paramType? hn (List.getElem?_eq_some_iff.1 hat).1)
      have hpkept : u.Keeps p := hsound.keeps_paramType? hs hp
      -- the wanted types stand for the parameter type with either bindings put in
      obtain ⟨wanted, hwanted, hle⟩ := htakes.arg i a hat
      obtain ⟨s, hs, hstands⟩ := hv.stands_typeAt hrests hsol.inst.params hp
      obtain ⟨s', hs', hstands'⟩ := hv'.stands_typeAt hrests hsol'.inst.params hp
      obtain rfl := Option.some.inj (hs.symm.trans hwanted)
      rw [hv.subtype_of_stands (huv.keeps (hkept a hmem)) hstands] at hle
      refine ⟨s', hs', ?_⟩
      rw [hv'.subtype_of_stands (huv'.keeps (hkept a hmem)) hstands']
      refine hv.subtype_replaced hsol.kept (fun name x hincluded hx => ?_) (huv.keeps hpkept)
        (covariant_typeAt hcov hp) (hplain a hmem).2 (hfed i a p hat hp) hle
      obtain ⟨t, hget, hx'⟩ := hincluded
      rw [Hierarchy.replaced_var, hget]
      exact Hierarchy.subtype_of_members hx.canonical (hv'.canonical (keeps_get? hsol'.kept hget)).flat hx'

/-- A string is accepted by the identity at `unknown`, so it is accepted without the type argument. -/
theorem identity_inferred : (holding parametric).History ∧
    (∃ inst o, ((OverloadSet.attempt identity [.string] [.unknown] : InUniverse _).run (holding parametric)).1 =
      .fits inst o) ∧
    ∃ inst o, ((OverloadSet.attempt identity [.string] [] : InUniverse _).run (holding parametric)).1 =
      .fits inst o := by
  have hkept {t : Ty} (ht : t ∈ parametric) : (holding parametric).Keeps t :=
    (lookup?_holding (by decide)).2 ⟨ht, rfl⟩
  have hstring := Plain.leaf (a := .string) (.inl (by simp [atoms]))
  have hunknown : ∃ inst o, ((OverloadSet.attempt identity [.string] [.unknown] : InUniverse _).run
      (holding parametric)).1 = .fits inst o := ⟨_, _, rfl⟩
  obtain ⟨inst, o, hfits⟩ := hunknown
  refine ⟨parametric_history, ⟨inst, o, hfits⟩, parametric_history.attempt_inferred (fun t ht => hkept ?_)
    (by simp [identity, Ty.bound?]) (fun p hp => ?_) (fun p hp hrest => ?_) (fun a ha => ?_) (fun t ht => hkept ?_) hfits⟩
  · simp only [identity, Signature.types, List.map_cons, List.map_nil, List.cons_append, List.nil_append,
      List.mem_cons, List.not_mem_nil, or_false, or_self] at ht
    simp [ht, parametric]
  · obtain rfl := List.mem_singleton.1 hp
    exact .param (by decide)
  · obtain rfl := List.mem_singleton.1 hp
    simp at hrest
  · obtain rfl := List.mem_singleton.1 ha
    exact ⟨hkept (by simp [parametric, atoms]), hstring.closed, hstring.unmet⟩
  · obtain rfl := List.mem_singleton.1 ht
    simp [parametric, atoms]

end Universe

/-! ## Two types of one key -/

namespace Session

open Universe

/-- The signature that takes three values of one type. -/
def triple : Signature where
  typeParams := [.var "T" none]
  params := ["x", "y", "z"].map fun name => { name, type := .var "T" none }
  ret := .undefined

/-- The entries that the disguised union is among, and a type parameter. -/
def tripleEntries : List Ty := collisionEntries ++ [.var "T" none]

theorem run_triple : (start 0).run (collision ++ [.typeVar "T" none]) =
    { store := holding tripleEntries
      answered := [.var "T" none, shapeB, shapeA, .union [.null, disguised], disguised] ++ Ty.atoms } := by
  have hintern : (holding collisionEntries).intern (.var "T" none) = (.var "T" none, holding tripleEntries) := by
    rw [intern_of_not_mem (by decide) (by decide), tripleEntries]
  have hsplit : (start 0).run (collision ++ [.typeVar "T" none]) =
      ((start 0).run collision).call (.typeVar "T" none) := List.foldl_append ..
  rw [hsplit, run_collision]
  show ({ store := ((holding collisionEntries).intern (.var "T" none)).2
          answered := [((holding collisionEntries).intern (.var "T" none)).1] ++ _ } : Session) = _
  rw [hintern]
  rfl

/-- The entries after the first two arguments were joined. -/
def joinedEntries : List Ty := tripleEntries ++ [.union [.null, shapeA]]

theorem run_join_null : (TypeStore.join .null shapeA : InUniverse Ty).run (holding tripleEntries) =
    (.union [.null, shapeA], holding joinedEntries) := by
  have hunion : (TypeStore.union [.null, shapeA] : InUniverse Ty).run (holding tripleEntries) =
      (holding tripleEntries).intern (.union [.null, shapeA]) :=
    run_union_holding (by decide) (fun value => by cases value <;> simp [tripleEntries, collisionEntries, disguisedEntries])
      rfl rfl (Ty.sortByKey_of_pairwise (by with_unfolding_all decide))
  rw [TypeStore.join, hunion, intern_of_not_mem (by decide) (by decide), joinedEntries]

theorem disguised_mem : Ty.union [.null, disguised] ∈ joinedEntries ∧
    ∀ value : Bool, Ty.literal (.bool value) ∈ joinedEntries := by
  refine ⟨?_, fun value => ?_⟩
  · simp [joinedEntries, tripleEntries, collisionEntries, disguisedEntries]
  · cases value <;> simp [joinedEntries, tripleEntries, collisionEntries, disguisedEntries]

theorem run_join_union : (TypeStore.join (.union [.null, shapeA]) shapeB : InUniverse Ty).run (holding joinedEntries) =
    (.union [.null, disguised], holding joinedEntries) := by
  have hkey : (Ty.union [.null, shapeA, shapeB]).key = (Ty.union [.null, disguised]).key := by decide
  have hunion : (TypeStore.union [.union [.null, shapeA], shapeB] : InUniverse Ty).run (holding joinedEntries) =
      (holding joinedEntries).intern (.union [.null, shapeA, shapeB]) :=
    run_union_holding (by decide) disguised_mem.2 rfl rfl sortByKey_shapes
  rw [TypeStore.join, hunion]
  exact intern_of_mem (by decide) disguised_mem.1 hkey

theorem run_widen_disguised : (widen (.var "T" none) (.union [.null, disguised]) : InUniverse Ty).run
    (holding joinedEntries) = (.union [.null, disguised], holding joinedEntries) := by
  have hunion : (TypeStore.union [.null, disguised] : InUniverse Ty).run (holding joinedEntries) =
      (holding joinedEntries).intern (.union [.null, disguised]) :=
    run_union_holding (by decide) disguised_mem.2 rfl rfl sortByKey_disguised
  exact hunion.trans (intern_of_mem (by decide) disguised_mem.1 rfl)

theorem infer_triple : (triple.infer [.null, shapeA, shapeB] : InUniverse Bounds).run (holding tripleEntries) =
    ([⟨.var "T" none, .union [.null, disguised]⟩], holding joinedEntries) := by
  have hmatch (arg : Ty) (bounds : Bounds) : (matchType triple.typeParams (.var "T" none) arg bounds : InUniverse Bounds) =
      bounds.raise (.var "T" none) arg := by rw [matchType, if_pos (by decide)]
  have hraise {prev arg joined : Ty} {u v : Universe} (hjoin : (TypeStore.join prev arg : InUniverse Ty).run u = (joined, v)) :
      (Bounds.raise [⟨.var "T" none, prev⟩] (.var "T" none) arg : InUniverse Bounds).run u =
        ([⟨.var "T" none, joined⟩], v) := by
    show ((TypeStore.join prev arg >>= fun joined => pure [⟨.var "T" none, joined⟩] : InUniverse Bounds).run u) = _
    rw [run_bind_of_run hjoin]
    rfl
  have hstep {i : Nat} (hi : triple.paramType? i = some (.var "T" none)) (arg : Ty) (args : List Ty) (bounds : Bounds) :
      (triple.inferFrom i (arg :: args) bounds : InUniverse Bounds) =
        bounds.raise (.var "T" none) arg >>= triple.inferFrom (i + 1) args := by
    rw [inferFrom, hi]
    dsimp only
    rw [hmatch]
  have hfirst : (Bounds.raise [] (.var "T" none) .null : InUniverse Bounds) = pure [⟨.var "T" none, .null⟩] := rfl
  rw [infer, hstep rfl, hfirst, pure_bind, hstep rfl, run_bind_of_run (hraise run_join_null), hstep rfl,
    run_bind_of_run (hraise run_join_union)]
  rfl

/-- The instance of the signature for a type. -/
def tripled (t : Ty) : Signature where
  params := ["x", "y", "z"].map fun name => { name, type := t }
  ret := .undefined

theorem solve_triple : ∃ sol : Solution, (triple.solve [.null, shapeA, shapeB] [] : InUniverse _).run
    (holding tripleEntries) = (.ok sol, holding joinedEntries) ∧
      sol.signature = tripled (.union [.null, disguised]) := by
  have hparam : (triple.bindParam false [⟨.var "T" none, .union [.null, disguised]⟩] (.var "T" none) :
      InUniverse _).run (holding joinedEntries) = ((.union [.null, disguised], false), holding joinedEntries) := by
    show ((widen (.var "T" none) (.union [.null, disguised]) >>= fun t => pure (t, false) : InUniverse _).run _) = _
    rw [run_bind_of_run run_widen_disguised]
    rfl
  have hbind : (triple.bindParams false [⟨.var "T" none, .union [.null, disguised]⟩] triple.typeParams :
      InUniverse _).run (holding joinedEntries) =
        (([⟨.var "T" none, .union [.null, disguised]⟩], []), holding joinedEntries) := by
    rw [show triple.typeParams = [.var "T" none] from rfl, bindParams, run_bind_of_run hparam]
    rfl
  rw [solve, if_neg (by simp)]
  dsimp only [List.isEmpty_nil]
  rw [if_pos rfl, Bool.not_true, run_bind_of_run infer_triple, run_bind_of_run hbind]
  exact ⟨_, rfl, rfl⟩

/-- **A call that needs its type argument**: the arguments are joined to the disguised union, which the first shape
is not below. -/
theorem collision_refused :
    (∀ t ∈ triple.types ++ [.null, shapeA, shapeB, .unknown],
      t ∈ ((start 0).run (collision ++ [.typeVar "T" none])).answered) ∧
    (∀ v ∈ triple.typeParams, v.bound? = none) ∧
    (∀ p ∈ triple.params, Covariant triple.typeParams p.type) ∧
    (∀ a ∈ [.null, shapeA, shapeB], a.freeVars = [] ∧ Unmet a) ∧
    (∃ inst o, ((OverloadSet.attempt triple [.null, shapeA, shapeB] [.unknown] : InUniverse _).run
      ((start 0).run (collision ++ [.typeVar "T" none])).store).1 = .fits inst o) ∧
    ∀ inst o, ((OverloadSet.attempt triple [.null, shapeA, shapeB] [] : InUniverse _).run
      ((start 0).run (collision ++ [.typeVar "T" none])).store).1 ≠ .fits inst o := by
  rw [run_triple]
  refine ⟨?_, by simp [triple, Ty.bound?], fun p hp => ?_, fun a ha => ?_, ⟨tripled .unknown, _, rfl⟩, ?_⟩
  · simp [triple, Signature.types, Ty.atoms]
  · obtain ⟨name, -, rfl⟩ := List.mem_map.1 hp
    exact .param (by decide)
  · have hshape {name : Text} {t : Ty} (ht : t ∈ Ty.atoms) : Closed (.object "" [{ name, type := t }]) ∧
        Unmet (.object "" [{ name, type := t }]) := by
      have hleaf := Plain.leaf (.inl ht)
      exact ⟨closed_object (by simpa using hleaf.closed), .intro rfl (by simpa [parts] using hleaf.unmet)⟩
    rcases (by simpa using ha : a = .null ∨ a = shapeA ∨ a = shapeB) with rfl | rfl | rfl
    · have hleaf := Plain.leaf (a := .null) (.inl (by simp [Ty.atoms]))
      exact ⟨hleaf.closed, hleaf.unmet⟩
    · exact hshape (by simp [Ty.atoms])
    · exact hshape (by simp [Ty.atoms])
  · obtain ⟨sol, hsolve, hsignature⟩ := solve_triple
    have hbad : ((OverloadSet.firstBadArg sol.signature 0 [.null, shapeA, shapeB] : InUniverse _).run
        (holding joinedEntries)).1 = some (1, .union [.null, disguised]) := by
      rw [hsignature]
      rfl
    rw [OverloadSet.attempt, if_neg (by decide), if_neg (by simp), if_pos (by decide), run_bind_of_run hsolve]
    rcases hrun : (OverloadSet.firstBadArg sol.signature 0 [.null, shapeA, shapeB] : InUniverse _).run
      (holding joinedEntries) with ⟨bad, v⟩
    rw [hrun] at hbad
    subst hbad
    show ∀ inst o, ((OverloadSet.firstBadArg sol.signature 0 [.null, shapeA, shapeB] >>= fun bad => _ :
      InUniverse Attempt).run _).1 ≠ _
    rw [run_bind_of_run hrun]
    intro inst o heq
    cases heq

end Session
end FlowTyping
