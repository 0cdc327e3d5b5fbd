import FlowTyping.Proofs.Guard.Cases
import FlowTyping.Proofs.Guard.Sides

/-!
# What a switch handles

The cases of a switch, asked in a universe, take the subject apart as they do without one, and so it can be
told from the answers of the universe what they handle and what is left.

* **`Universe.yields_splitCases`** — a switch in a universe, by the rules that it is made of.
* **`Universe.History.splitCases_sound`** — the parts consist of members of the subject and cover it, and what
  is left does not depend on the order of the cases.
* **`Universe.History.residual_never_iff`** — nothing is left exactly if each member is handled by one case
  alone. **`Universe.twofold_left`**: two cases that handle a member together leave it.
* **`Session.switched_lost`** — with property names that are no words, members can get lost.
-/

namespace FlowTyping

open Ty

/-! ## Switches in a universe -/

namespace Universe

open Guard

variable {h : Hierarchy} {u : Universe} {a b s t value value' : Ty} {prop : Text}

theorem yields_fieldOf (ha : u.Stands a s) (prop : Text) :
    u.Yields h (fieldOf a prop) fun v o => Option.Rel v.Stands o ((h.propertyOf s prop).map (held h)) := by
  unfold fieldOf
  refine (yields_propertyOf ha prop).bind fun v o hv _ ho => ?_
  generalize h.propertyOf s prop = found at ho
  cases ho with
  | none => exact .pure fun _ _ _ => .none
  | @some p q hpq =>
    have hundefined : v.Stands .undefined .undefined := stands_atom hv (by simp [atoms])
    dsimp only [Option.map]
    rw [held, ← hpq.optional]
    split
    · refine (yields_union (.cons hpq.type (.cons hundefined .nil))).bind fun w r _ _ hr => ?_
      exact .pure fun _ _ hw => .some (hr.grows hw)
    · exact .pure fun _ _ hw => .some (hpq.type.grows hw)

theorem yields_narrow_ofCase (ha : u.Stands a s) (hvalue : u.Stands value value') (preds : Predicates)
    (prop : Text) :
    u.YieldsSplit h ((ofCase (some prop) value).narrow preds none a)
      ((ofCase (some prop) value').narrow preds none s : Ideal h Split).run := by
  unfold narrow
  rw [Ideal.run_bind]
  exact (yields_splitDiscriminant ha hvalue prop).bind fun v p _ huv hpq => yields_withinInput (ha.grows huv) hpq

/-- **The cases of a switch take a type apart like the type that it stands for.** -/
theorem yields_splitCases (ha : u.Stands a s) {vs us : List Ty} (hvs : List.Forall₂ u.Stands vs us)
    (preds : Predicates) (prop : Text) :
    u.Yields h (splitCases preds (some prop) a vs) fun v c =>
      c.Mirrors v.Stands (splitCases preds (some prop) s us : Ideal h CaseSplit).run := by
  induction vs generalizing u us a s with
  | nil =>
    cases hvs
    exact .pure fun _ _ huv => ⟨.nil, ha.grows huv, rfl⟩
  | cons value vs ih =>
    obtain ⟨value', us, hvalue, hrest, rfl⟩ := List.forall₂_cons_left_iff.1 hvs
    rw [splitCases, splitCases, Ideal.run_bind, Ideal.run_bind]
    refine (yields_narrow_ofCase ha hvalue preds prop).bind fun v p _ huv hpq => ?_
    refine (ih hpq.no (stands_grow hrest huv)).bind fun w c _ hvw hc => .pure fun x _ hwx => ?_
    replace hc := hc.imp fun _ _ hst => Stands.grows hst hwx
    refine ⟨.cons ((hpq.yes.grows hvw).grows hwx) hc.cases, hc.residual, ?_⟩
    dsimp only [Ideal.run_pure]
    rw [hpq.degraded, hc.degraded]

/-! ## What is left and what is handled -/

/-- The entry that stands for a type whose members are entries has the same members. -/
theorem Sound.members_eq (hu : u.Sound h) (hst : u.Stands s t) (ht : ∀ m ∈ t.members, u.Keeps m) :
    s.members = t.members := by
  refine List.forall₂_eq_eq_eq ▸ forall₂_imp_of_mem (hu.mirroring.members_rel hst) fun x _ y hy hxy => ?_
  exact Option.some.inj (hxy.lookup?.symm.trans (ht y hy))

/-- Of two entries, one is within the other as to its members exactly if they are members there. -/
theorem Sound.membersWithin_iff (hu : u.Sound h) (hs : u.Keeps s) (ht : u.Keeps t) :
    s.membersWithin t = true ↔ ∀ x ∈ s.members, x ∈ t.members := by
  simp only [membersWithin, List.all_eq_true, List.any_eq_true, same_iff]
  refine forall₂_congr fun x hx => ⟨?_, fun hmem => ⟨x, hmem, rfl⟩⟩
  rintro ⟨y, hy, hk⟩
  exact Keeps.eq_of_key_eq (hu.keeps_members ht hy) (hu.keeps_members hs hx) hk ▸ hy

/-- The property of a member that tells lists single values, and the member is left by a case exactly if the
case does not have them all. -/
theorem Sound.fieldOf_some (hu : u.Sound h) (hs : u.Keeps s) (ht : Tells h prop s) :
    ∃ field, ((fieldOf s prop : InUniverse _).run u).1 = some field ∧
      ∀ value, u.Keeps value → (left h prop value s = false ↔ ∀ x ∈ field.members, x ∈ value.members) := by
  obtain ⟨p, hp, -⟩ := ht
  obtain ⟨hv, huv, hfield⟩ := yields_fieldOf (hu.stands hs) prop u hu (.refl h u)
  rw [hp] at hfield
  generalize ((fieldOf s prop : InUniverse _).run u).1 = o at hfield
  cases hfield with
  | @some field _ hstands =>
    refine ⟨field, rfl, fun value hvalue => ?_⟩
    replace hvalue := huv.keeps hvalue
    rw [← hv.membersWithin_iff (hv.keeps_of_stands hstands) hvalue]
    have hwithin : field.membersWithin value = (held h p).membersWithin value := by
      have hmembers := hv.mirroring.members_rel hstands
      have hself := hv.mirroring.members_rel (hv.stands hvalue)
      rw [membersWithin, membersWithin, Bool.eq_iff_iff, List.all_eq_true, List.all_eq_true]
      constructor
      · intro hall x hx
        obtain ⟨y, hy, hyx⟩ := exists_mem_left hmembers hx
        rw [← hv.mirroring.any_same_eq hself hyx]
        exact hall y hy
      · intro hall x hx
        obtain ⟨y, hy, hyx⟩ := exists_mem_right hmembers hx
        rw [hv.mirroring.any_same_eq hself hyx]
        exact hall y hy
    rw [hwithin]
    simp [left, hp]

/-- **The cases of a switch over entries part the subject, or one of them gives up.** -/
theorem Sound.run_splitCases (hu : u.Sound h) (hs : u.Keeps s) {values : List Ty}
    (hvalues : ∀ v ∈ values, u.Keeps v) (preds : Predicates) (prop : Text) :
    (Asked h prop s values ∧ Parted h prop s values
        ((splitCases preds (some prop) s values : InUniverse CaseSplit).run u).1) ∨
      ¬ Asked h prop s values ∧
        ((splitCases preds (some prop) s values : InUniverse CaseSplit).run u).1.degraded = true := by
  obtain ⟨hv, huv, hc⟩ := yields_splitCases (hu.stands hs) (hu.stands_all hvalues) preds prop u hu (.refl h u)
  generalize ((splitCases preds (some prop) s values : InUniverse CaseSplit).run u) = made at hv huv hc
  have hmembers {t t' : Ty} (ht : (made.2).Stands t t') (hsub : t'.members.Sublist s.members) :
      t.members = t'.members :=
    hv.members_eq ht fun m hm => huv.keeps (hu.keeps_members hs (hsub.subset hm))
  rw [hc.degraded]
  refine (Guard.run_splitCases (h := h) (hu.canonical hs) (hu.simplified hs) preds prop values).imp_left ?_
  rintro ⟨hasked, hparted⟩
  -- what the universe keeps for the parts has the same members
  have hresidual := hmembers hc.residual (by rw [hparted.residual]; exact List.filter_sublist)
  refine ⟨hasked, hc.degraded.trans hparted.degraded, hv.simplified (hv.keeps_of_stands hc.residual),
    hresidual.trans hparted.residual, fun t ht => ?_, fun m hm => ?_⟩
  · obtain ⟨t', ht', htt'⟩ := exists_mem_right hc.cases ht
    have hsub := hparted.cases t' ht'
    rwa [hmembers htt' hsub]
  · rw [hresidual]
    refine (hparted.covers m hm).imp_right ?_
    rintro ⟨t', ht', hm⟩
    obtain ⟨t, ht, htt'⟩ := exists_mem_left hc.cases ht'
    exact ⟨t, ht, by rwa [hmembers htt' (hparted.cases t' ht')]⟩

section History

variable {subject : Ty} {values : List Ty} {c : CaseSplit}

/-- **The cases of a switch over a property are sound**: unless one of them gives up, the parts of the cases
and what is left consist of members of the subject, which are all in one of them; if nothing is left, every
value that the property of a member can have is among the values of a case; and what is left does not
depend on the order of the cases and their repetition. -/
theorem History.splitCases_sound (hu : u.History) (hs : u.Keeps subject)
    (hvalues : ∀ v ∈ values, u.Keeps v) (preds : Predicates) (prop : Text)
    (hc : ((splitCases preds (some prop) subject values : InUniverse CaseSplit).run u).1 = c)
    (hd : c.degraded = false) :
    (∀ t ∈ c.residual :: c.cases, ∀ m ∈ t.members, m ∈ subject.members) ∧
      (∀ m ∈ subject.members, m ∈ c.residual.members ∨ ∃ t ∈ c.cases, m ∈ t.members) ∧
      (c.residual = .never → ∀ m ∈ subject.members, ∃ field,
        ((fieldOf m prop : InUniverse _).run u).1 = some field ∧
          ∀ x ∈ field.members, ∃ v ∈ values, x ∈ v.members) ∧
      ∀ values' : List Ty, (∀ v, v ∈ values' ↔ v ∈ values) →
        ((splitCases preds (some prop) subject values' : InUniverse CaseSplit).run u).1.residual =
          c.residual := by
  obtain ⟨hsound, -⟩ := hu.sound
  obtain ⟨hasked, hparted⟩ | ⟨-, hdegraded⟩ := hsound.run_splitCases hs hvalues preds prop
  · rw [hc] at hparted
    refine ⟨?_, hparted.covers, ?_, ?_⟩
    · intro t ht m hm
      rcases List.mem_cons.1 ht with rfl | ht
      · rw [hparted.residual] at hm
        exact (List.mem_filter.1 hm).1
      · exact (hparted.cases t ht).subset hm
    · -- each member went with some case, whose value the property then lies below
      intro hnever m hm
      obtain ⟨v, hv, hleft⟩ := hparted.residual_eq_never_iff.1 hnever m hm
      have htells := hasked.2 (List.ne_nil_of_mem hv) m hm
      obtain ⟨field, hfield, hwithin⟩ := hsound.fieldOf_some (hsound.keeps_members hs hm) htells
      have hall := (hwithin v (hvalues v hv)).1 hleft
      exact ⟨field, hfield, fun x hx => ⟨v, hv, hall x hx⟩⟩
    · intro values' hsame
      -- the other list asks of the same values, so none of its cases gives up, either
      have hasked' : Asked u.classes prop subject values' := by
        refine ⟨fun v hv => hasked.1 v ((hsame v).1 hv), fun hne => hasked.2 ?_⟩
        obtain ⟨v, hv⟩ := List.exists_mem_of_ne_nil _ hne
        exact List.ne_nil_of_mem ((hsame v).1 hv)
      have hvalues' : ∀ v ∈ values', u.Keeps v := fun v hv => hvalues v ((hsame v).1 hv)
      rcases hsound.run_splitCases hs hvalues' preds prop with ⟨-, hparted'⟩ | ⟨hno, -⟩
      · refine hparted'.simplified.eq_of_members_eq hparted.simplified ?_
        rw [hparted'.residual, hparted.residual]
        refine List.filter_congr fun m _ => ?_
        rw [Bool.eq_iff_iff, List.all_eq_true, List.all_eq_true]
        exact ⟨fun hall v hv => hall v ((hsame v).2 hv), fun hall v hv => hall v ((hsame v).1 hv)⟩
      · exact absurd hasked' hno
  · rw [hc, hd] at hdegraded
    simp at hdegraded

/-- **When nothing is left of a switch over a property**: unless a case gives up, exactly if for every member
of the subject one single case lists all values that the property can have there. -/
theorem History.residual_never_iff (hu : u.History) (hs : u.Keeps subject) (hvalues : ∀ v ∈ values, u.Keeps v)
    (hne : values ≠ []) (preds : Predicates) (prop : Text)
    (hc : ((splitCases preds (some prop) subject values : InUniverse CaseSplit).run u).1 = c)
    (hd : c.degraded = false) :
    c.residual = .never ↔ ∀ m ∈ subject.members, ∃ field,
      ((fieldOf m prop : InUniverse _).run u).1 = some field ∧
        ∃ v ∈ values, ∀ x ∈ field.members, x ∈ v.members := by
  obtain ⟨hsound, -⟩ := hu.sound
  obtain ⟨hasked, hparted⟩ | ⟨-, hdegraded⟩ := hsound.run_splitCases hs hvalues preds prop
  · rw [hc] at hparted
    rw [hparted.residual_eq_never_iff]
    refine forall₂_congr fun m hm => ?_
    obtain ⟨field, hfield, hwithin⟩ :=
      hsound.fieldOf_some (hsound.keeps_members hs hm) (hasked.2 hne m hm)
    rw [hfield]
    constructor
    · rintro ⟨v, hv, hleft⟩
      exact ⟨field, rfl, v, hv, (hwithin v (hvalues v hv)).1 hleft⟩
    · rintro ⟨field', hfield', v, hv, hall⟩
      obtain rfl := Option.some.inj hfield'
      exact ⟨v, hv, (hwithin v (hvalues v hv)).2 hall⟩
  · rw [hc, hd] at hdegraded
    simp at hdegraded

end History

/-! ## A member with two values -/

/-- A type with two values, each of which a case can ask for. -/
def either : Ty := .union [.null, .undefined]

/-- A shape whose tag has one of two values. -/
def twofold : Ty := .object "" [{ name := "k", type := either }]

/-- The entries after the shape was made. -/
def twofoldEntries : List Ty :=
  atoms ++ [.literal (.bool true)] ++ [.literal (.bool false)] ++ [either] ++ [twofold]

theorem twofold_history : (holding twofoldEntries).History := by
  have hsimplified : Ty.simplified [.null, .undefined] = [.null, .undefined] := rfl
  have hsorted : sortByKey [.null, .undefined] = [.null, .undefined] :=
    sortByKey_of_pairwise (by with_unfolding_all decide)
  have hunion : ((Call.union [.null, .undefined]).serve.run (.new 0)).2 =
      holding (atoms ++ [.literal (.bool true)] ++ [.literal (.bool false)] ++ [either]) := by
    show ((TypeStore.union [.null, .undefined] : InUniverse Ty).run (holding atoms)).2 = _
    rw [run_union_of_simplified rfl hsimplified, hsorted,
      intern_of_not_mem (by decide) (by decide), intern_of_not_mem (by decide) (by decide),
      intern_of_not_mem (by decide) (by decide), either]
  have hboth : (holding (atoms ++ [.literal (.bool true)] ++ [.literal (.bool false)] ++ [either])).History := by
    rw [← hunion]
    refine .call (.new 0) _ (fun t ht => lookup?_new.2 ⟨?_, rfl⟩) (by simp [Call.names])
    rcases (by simpa [Call.types] using ht : t = .null ∨ t = .undefined) with rfl | rfl <;> simp [atoms]
  exact history_object _ hboth (by decide) (by decide) rfl (by simp) (by decide)

theorem twofold_keeps {t : Ty} (ht : t ∈ twofoldEntries) : (holding twofoldEntries).Keeps t :=
  (lookup?_holding (by decide)).2 ⟨ht, rfl⟩

/-- Any cases that list single values part the shape. -/
theorem twofold_parted {values : List Ty}
    (hvalues : ∀ v ∈ values, v ∈ twofoldEntries ∧ v.allUnits = true) :
    Parted (holding twofoldEntries).classes "k" twofold values
      ((splitCases [] (some "k") twofold values : InUniverse CaseSplit).run (holding twofoldEntries)).1 := by
  have hsound := twofold_history.sound.1
  have hkept : (holding twofoldEntries).Keeps twofold := twofold_keeps (by simp [twofoldEntries])
  have hasked : Asked (holding twofoldEntries).classes "k" twofold values := by
    refine ⟨fun v hv => (hvalues v hv).2, fun _ m hm => ?_⟩
    obtain rfl := List.mem_singleton.1 hm
    exact ⟨{ name := "k", type := either }, Hierarchy.propertyOf_object.trans rfl, rfl⟩
  rcases hsound.run_splitCases hkept (fun v hv => twofold_keeps (hvalues v hv).1) [] "k" with
    ⟨-, hparted⟩ | ⟨hno, -⟩
  · exact hparted
  · exact absurd hasked hno

theorem either_asked : ∀ v ∈ [either], v ∈ twofoldEntries ∧ v.allUnits = true := by
  simp [twofoldEntries, either, allUnits, members, isUnit]

/-- Whether the shape goes on after a case depends on whether the case has both values. -/
theorem twofold_goes_on (value : Ty) :
    left (holding twofoldEntries).classes "k" value twofold = !either.membersWithin value := by
  simp only [left, twofold, Hierarchy.propertyOf_object]
  rfl

/-- One case with both values leaves nothing, and it lists whatever the tag can be. -/
theorem twofold_sound : (holding twofoldEntries).History ∧
    ((splitCases [] (some "k") twofold [either] : InUniverse CaseSplit).run (holding twofoldEntries)).1.residual =
      .never ∧
    ∃ field, ((fieldOf twofold "k" : InUniverse _).run (holding twofoldEntries)).1 = some field ∧
      ∀ x ∈ field.members, ∃ v ∈ [either], x ∈ v.members := by
  have hparted := twofold_parted either_asked
  have hnever := hparted.residual_eq_never_iff.2 fun m hm => by
    obtain rfl := List.mem_singleton.1 hm
    exact ⟨either, by simp, by rw [twofold_goes_on]; decide⟩
  exact ⟨twofold_history, hnever, (twofold_history.splitCases_sound (twofold_keeps (by simp [twofoldEntries]))
    (fun v hv => twofold_keeps (either_asked v hv).1) [] "k" rfl hparted.degraded).2.2.1 hnever _
    (List.mem_singleton.2 rfl)⟩

theorem twofold_handled : (holding twofoldEntries).History ∧
    ((splitCases [] (some "k") twofold [either] : InUniverse CaseSplit).run (holding twofoldEntries)).1.residual =
      .never := by
  refine ⟨twofold_history, (twofold_history.residual_never_iff (twofold_keeps (by simp [twofoldEntries]))
    (fun v hv => twofold_keeps (either_asked v hv).1) (by simp) [] "k" rfl
    (twofold_parted either_asked).degraded).2 ?_⟩
  intro m hm
  obtain rfl := List.mem_singleton.1 hm
  exact ⟨either, rfl, either, by simp⟩

/-- Two cases with one value each handle both values of the tag, and yet the shape is left. -/
theorem twofold_left :
    (∀ m ∈ twofold.members, ∃ field,
      ((fieldOf m "k" : InUniverse _).run (holding twofoldEntries)).1 = some field ∧
        ∀ x ∈ field.members, ∃ v ∈ [Ty.null, Ty.undefined], x ∈ v.members) ∧
    ((splitCases [] (some "k") twofold [.null, .undefined] : InUniverse CaseSplit).run
      (holding twofoldEntries)).1.degraded = false ∧
    ((splitCases [] (some "k") twofold [.null, .undefined] : InUniverse CaseSplit).run
      (holding twofoldEntries)).1.residual ≠ .never := by
  have hvalues : ∀ v ∈ [Ty.null, Ty.undefined], v ∈ twofoldEntries ∧ v.allUnits = true := by
    simp [twofoldEntries, atoms, allUnits, members, isUnit]
  have hparted := twofold_parted hvalues
  refine ⟨?_, hparted.degraded, fun hnever => ?_⟩
  · intro m hm
    obtain rfl := List.mem_singleton.1 hm
    exact ⟨either, rfl, by simp [either, members]⟩
  · obtain ⟨v, hv, hleft⟩ := hparted.residual_eq_never_iff.1 hnever twofold (List.mem_singleton.2 rfl)
    -- neither case has both values
    rw [twofold_goes_on] at hleft
    rcases (by simpa using hv : v = .null ∨ v = .undefined) with rfl | rfl <;> revert hleft <;> decide

/-! ## Names that are no words -/

/-- One round of the loop over a member that requires the property. -/
theorem run_splitDiscriminant_go_cons {u : Universe} {current value t met left : Ty} {prop : Text}
    {p : Property Ty} (hp : (TypeStore.propertyOf t prop : InUniverse _).run u = (some p, u))
    (hrequired : p.optional = false) (hunits : p.type.allUnits = true)
    (hmet : (TypeStore.meet p.type value : InUniverse _).run u = (met, u))
    (hleft : (without p.type value : InUniverse _).run u = (left, u)) (yes no ts : List Ty) :
    (splitDiscriminant.go current prop value yes no (t :: ts) : InUniverse Split).run u =
      (splitDiscriminant.go current prop value (if met.isNever then yes else yes ++ [t])
        (if left.isNever then no else no ++ [t]) ts : InUniverse Split).run u := by
  rw [splitDiscriminant.go, run_bind_of_run hp]
  simp only [hrequired, Bool.false_eq_true, if_false, pure_bind, hunits, Bool.not_true]
  rw [run_bind_of_run hmet, run_bind_of_run hleft]

end Universe

namespace Session

open Universe Guard

/-- A new shape becomes an entry and is answered. -/
theorem call_shape {ts answered : List Ty} {tag : String} {props : List (Property Ty)}
    (hsorted : TypeStore.sortProps props = props) (hts : (ts.map Ty.key).Nodup)
    (hnew : (Ty.object tag props).key ∉ ts.map Ty.key) :
    ({ store := holding ts, answered } : Session).call (.object tag props) =
      { store := holding (ts ++ [.object tag props]), answered := .object tag props :: answered } := by
  show ({ store := ((holding ts).intern (.object tag (TypeStore.sortProps props))).2
          answered := [((holding ts).intern (.object tag (TypeStore.sortProps props))).1] ++ answered } :
    Session) = _
  rw [hsorted, intern_of_not_mem hts hnew]
  rfl

/-- A shape with two properties, the first of which looks like the rest of one shape and the start of
another. -/
def hidden : Ty :=
  .object "" [{ name := "a:string;k:null;\x7d|obj<>\x7bb", type := .string }, { name := "k", type := .null }]

def shapeAK : Ty := .object "" [{ name := "a", type := .string }, { name := "k", type := .null }]

def shapeBK : Ty := .object "" [{ name := "b", type := .string }, { name := "k", type := .null }]

/-- The shape whose tag is always `t`. -/
def tagOnly (t : Ty) : Ty := .object "" [{ name := "k", type := t }]

def switched : Ty := .union [shapeAK, shapeBK, tagOnly .null, tagOnly .undefined]

/-- Makes the union of the hidden shape and one more, then a union of four shapes. -/
def concealing : List Call :=
  [.object "" [{ name := "a:string;k:null;\x7d|obj<>\x7bb", type := .string }, { name := "k", type := .null }],
    .object "" [{ name := "k", type := .null }], .union [hidden, tagOnly .null],
    .object "" [{ name := "a", type := .string }, { name := "k", type := .null }],
    .object "" [{ name := "b", type := .string }, { name := "k", type := .null }],
    .object "" [{ name := "k", type := .undefined }],
    .union [shapeAK, shapeBK, tagOnly .null, tagOnly .undefined]]

/-- The entries after the first union was made. -/
def hiddenEntries : List Ty :=
  Ty.atoms ++ [hidden] ++ [tagOnly .null] ++ [.literal (.bool true)] ++ [.literal (.bool false)] ++
    [.union [hidden, tagOnly .null]]

/-- The entries after all calls. -/
def concealedEntries : List Ty :=
  hiddenEntries ++ [shapeAK] ++ [shapeBK] ++ [tagOnly .undefined] ++ [switched]

theorem run_union_hidden :
    (TypeStore.union [hidden, tagOnly .null] : InUniverse Ty).run
      (holding (Ty.atoms ++ [hidden] ++ [tagOnly .null])) = (.union [hidden, tagOnly .null], holding hiddenEntries) := by
  have hsimplified : Ty.simplified [hidden, tagOnly .null] = [hidden, tagOnly .null] := rfl
  have hsorted : Ty.sortByKey [hidden, tagOnly .null] = [hidden, tagOnly .null] :=
    Ty.sortByKey_of_pairwise (by with_unfolding_all decide)
  rw [run_union_of_simplified rfl hsimplified, hsorted, intern_of_not_mem (by decide) (by decide),
    intern_of_not_mem (by decide) (by decide), intern_of_not_mem (by decide) (by decide), hiddenEntries]

theorem run_union_switched :
    (TypeStore.union [shapeAK, shapeBK, tagOnly .null, tagOnly .undefined] : InUniverse Ty).run
      (holding (hiddenEntries ++ [shapeAK] ++ [shapeBK] ++ [tagOnly .undefined])) =
        (switched, holding concealedEntries) := by
  rw [run_union_of_sorted (by decide) (by simp [hiddenEntries]) rfl rfl
    (by with_unfolding_all decide), intern_of_not_mem (by decide) (by decide)]
  rfl

theorem run_concealing : (start 0).run concealing =
    { store := holding concealedEntries
      answered := [switched, tagOnly .undefined, shapeBK, shapeAK, .union [hidden, tagOnly .null],
        tagOnly .null, hidden] ++ Ty.atoms } := by
  have hstart : start 0 = { store := holding Ty.atoms, answered := Ty.atoms } := rfl
  rw [hstart, concealing]
  simp only [run, List.foldl]
  rw [call_shape (by with_unfolding_all rfl) (by decide) (by decide), ← hidden,
    call_shape rfl (by decide) (by decide), ← tagOnly, call_union run_union_hidden,
    call_shape (by with_unfolding_all rfl) (by decide) (by decide), ← shapeAK,
    call_shape (by with_unfolding_all rfl) (by decide) (by decide), ← shapeBK,
    call_shape rfl (by decide) (by decide), ← tagOnly, call_union run_union_switched]
  rfl

/-- The case takes one shape and leaves the three others. -/
theorem run_splitDiscriminant_switched :
    (splitDiscriminant switched "k" .undefined : InUniverse Split).run (holding concealedEntries) =
      ({ yes := tagOnly .undefined, no := .union [hidden, tagOnly .null] }, holding concealedEntries) := by
  have hnodup : (concealedEntries.map Ty.key).Nodup := by decide
  have hbool (b : Bool) : (holding concealedEntries).intern (.literal (.bool b)) =
      (.literal (.bool b), holding concealedEntries) :=
    intern_of_mem hnodup (by cases b <;> simp [concealedEntries, hiddenEntries]) rfl
  have hwithout : (without .null .undefined : InUniverse Ty).run (holding concealedEntries) =
      (.null, holding concealedEntries) := by
    show (TypeStore.union [.null] : InUniverse Ty).run _ = _
    rw [run_union_of_one (t := .null) rfl rfl, hbool, hbool]
  have hleaves {t : Ty} (hp : (TypeStore.propertyOf t "k" : InUniverse _).run (holding concealedEntries) =
      (some { name := "k", type := .null }, holding concealedEntries)) (yes no ts : List Ty) :
      (splitDiscriminant.go switched "k" .undefined yes no (t :: ts) : InUniverse Split).run
        (holding concealedEntries) =
      (splitDiscriminant.go switched "k" .undefined yes (no ++ [t]) ts : InUniverse Split).run
        (holding concealedEntries) :=
    run_splitDiscriminant_go_cons hp rfl rfl rfl hwithout yes no ts
  have htakes (no : List Ty) :
      (splitDiscriminant.go switched "k" .undefined [] no [tagOnly .undefined] : InUniverse Split).run
        (holding concealedEntries) =
      (splitDiscriminant.go switched "k" .undefined [tagOnly .undefined] no [] : InUniverse Split).run
        (holding concealedEntries) := by
    have hall : (without .undefined .undefined : InUniverse Ty).run (holding concealedEntries) =
        (.never, holding concealedEntries) := by
      show (TypeStore.union [] : InUniverse Ty).run _ = _
      show (Ty.never, (((holding concealedEntries).intern _).2.intern _).2) = _
      rw [hbool, hbool]
    have hp : (TypeStore.propertyOf (tagOnly .undefined) "k" : InUniverse _).run (holding concealedEntries) =
        (some { name := "k", type := .undefined }, holding concealedEntries) := rfl
    exact run_splitDiscriminant_go_cons hp rfl rfl rfl hall [] no []
  have hyes : (TypeStore.union [tagOnly .undefined] : InUniverse Ty).run (holding concealedEntries) =
      (tagOnly .undefined, holding concealedEntries) := by
    rw [run_union_of_one (t := tagOnly .undefined) rfl rfl, hbool, hbool]
  -- the three shapes that are left have the key of a union that was made before
  have hno : (TypeStore.union [shapeAK, shapeBK, tagOnly .null] : InUniverse Ty).run
      (holding concealedEntries) = (.union [hidden, tagOnly .null], holding concealedEntries) := by
    rw [run_union_of_sorted hnodup (by simp [concealedEntries, hiddenEntries]) rfl rfl
      (by with_unfolding_all decide)]
    exact intern_of_mem hnodup (by simp [concealedEntries, hiddenEntries]) (by decide)
  show (splitDiscriminant.go switched "k" .undefined [] []
    [shapeAK, shapeBK, tagOnly .null, tagOnly .undefined] : InUniverse Split).run _ = _
  rw [hleaves rfl, hleaves rfl, hleaves rfl, htakes, splitDiscriminant.go, run_bind_of_run hyes]
  show ((TypeStore.union [shapeAK, shapeBK, tagOnly .null] : InUniverse Ty) >>= _).run _ = _
  rw [run_bind_of_run hno]
  rfl

/-- What the case leaves is no union of members of the subject, and two members are in none of the parts. -/
theorem switched_lost :
    (∀ t ∈ [switched, .undefined], t ∈ ((start 0).run concealing).answered) ∧
      ∃ c : CaseSplit, ((splitCases [] (some "k") switched [.undefined] : InUniverse CaseSplit).run
          ((start 0).run concealing).store).1 = c ∧ c.degraded = false ∧
        hidden ∈ c.residual.members ∧ hidden ∉ switched.members ∧
        shapeBK ∈ switched.members ∧ shapeBK ∉ c.residual.members ∧ ∀ t ∈ c.cases, shapeBK ∉ t.members := by
  rw [run_concealing]
  refine ⟨by simp [Ty.atoms], ⟨[tagOnly .undefined], .union [hidden, tagOnly .null], false⟩, ?_, rfl, ?_⟩
  · have hnarrow : ((ofCase (some "k") .undefined).narrow [] none switched : InUniverse Split).run
        (holding concealedEntries) =
        ({ yes := tagOnly .undefined, no := .union [hidden, tagOnly .null] }, holding concealedEntries) := by
      rw [narrow]
      show ((splitDiscriminant switched "k" .undefined : InUniverse Split) >>= _).run _ = _
      rw [run_bind_of_run run_splitDiscriminant_switched]
      rfl
    rw [splitCases, run_bind_of_run hnarrow]
    rfl
  · have hout {t : Ty} {ms : List Ty} (hk : t.key ∉ ms.map Ty.key) : t ∉ ms :=
      fun hm => hk (List.mem_map_of_mem hm)
    refine ⟨by simp [members], hout (by decide), by simp [switched, members], hout (by decide), ?_⟩
    intro t ht
    obtain rfl := List.mem_singleton.1 ht
    exact hout (by decide)

end Session
end FlowTyping
