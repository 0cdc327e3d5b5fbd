import FlowTyping.Proofs.Relation.Follow
import FlowTyping.Proofs.Store.Coherent

/-!
# The rules in a universe that holds anything

Each loop of the rules is followed in a coherent universe beside the same loop without one, on the same entries.
As long as the questions that it asks have the plain answers, so has the loop; and whatever they answer, only
entries come of it, which keeps the universe coherent.

* **`Rules.Mixed`** — lucid members that do not merge, since at most one is a shape.
* **`Rules.tracks_fuseAll`** — what is left of members when none combine any more.
-/

namespace FlowTyping

open Ty

namespace Universe

variable {u v : Universe} {t : Ty}

/-- An entry that may be a member of an intersection. -/
structure Piece (u : Universe) (t : Ty) : Prop where
  keeps : u.Keeps t
  member : t.isMember = true
  not_inter : t.isInter = false

theorem Piece.onward (ht : u.Piece t) (huv : u.Onward v) : v.Piece t := ⟨huv.keeps ht.keeps, ht.member, ht.not_inter⟩

theorem Piece.of_isObject (ht : u.Keeps t) (hobject : t.isObject = true) : u.Piece t := by
  cases t with
  | object _ _ => exact ⟨ht, rfl, rfl⟩
  | _ => simp [isObject] at hobject

end Universe

namespace Rules

open Universe

/-! ## Subtyping and disjointness -/

section Loops

variable {C K : Prop} {r : Rules InUniverse} {q : Rules (Ideal noClasses)} {u : Universe} {a b : Ty}

theorem tracks_propsSubtype {props : List (Property Ty)}
    (hprop : ∀ name, u.Tracks C K (r.propertyOf a name) (q.propertyOf a name) fun v found =>
      ∀ p ∈ found, v.Keeps p.type)
    (hsub : ∀ pb ∈ props, ∀ (v : Universe) (pa : Property Ty), u.Onward v → v.Keeps pa.type →
      (v.spent = false → C → (q.propertyOf a pb.name).run = some pa) →
        v.Decides C K (r.subtype pa.type pb.type) (q.subtype pa.type pb.type)) :
    u.Decides C K (propsSubtype r a props) (propsSubtype q a props) := by
  induction props with
  | nil => exact .pure (fun _ _ => rfl) fun _ _ _ => trivial
  | cons pb rest ih =>
    have hrest := ih fun pb hpb => hsub pb (by simp [hpb])
    have hno {v : Universe} : v.Decides C K (pure false) (pure false) := .pure (fun _ _ => rfl) fun _ _ _ => trivial
    rw [propsSubtype, propsSubtype]
    refine (hprop pb.name).bind fun v found _ huv hfound hsame => ?_
    cases found with
    | none =>
      dsimp only
      split
      · exact hrest.onward huv
      · exact hno
    | some pa =>
      dsimp only
      split
      · exact hno
      · split
        · exact hno
        · exact (hsub pb (by simp) v pa huv (hfound pa rfl) fun hspent hC => (hsame hspent hC).symm).cond
            (hrest.onward huv) hno

/-- A tag is only looked up in the hierarchy where there is one, and lucid types have none. -/
theorem tracks_objectSubtype {tag : String} {props : List (Property Ty)} (htag : C → tag = "")
    (hprops : u.Decides C K (propsSubtype r a props) (propsSubtype q a props)) :
    u.Decides C K (objectSubtype r a tag props) (objectSubtype q a tag props) := by
  have hno {D : Prop} {v : Universe} : v.Decides D K (pure false) (pure false) :=
    .pure (fun _ _ => rfl) fun _ _ _ => trivial
  have hbody : u.Decides C K
      (if tag.isEmpty then propsSubtype r a props
        else do if tagFits (← TypeStore.hierarchy) tag a then propsSubtype r a props else pure false)
      (if tag.isEmpty then propsSubtype q a props
        else do if tagFits (← TypeStore.hierarchy) tag a then propsSubtype q a props else pure false) := by
    split
    · exact hprops
    · rename_i hempty
      refine Tracks.weaken ?_ (fun _ hC => hempty (by rw [htag hC]; rfl)) fun _ => id
      refine (tracks_hierarchy _).bind fun v h _ huv _ _ => ?_
      split
      · exact (hprops.onward huv).effect
      · exact hno
  cases a with
  | null | undefined => exact hno
  | _ => exact hbody

theorem tracks_elemsSubtype {restA restB : Option Ty} {elemsA elemsB : List (Elem Ty)}
    (hsub : ∀ s ∈ elemsA.map (·.type) ++ restA.toList, ∀ t ∈ elemsB.map (·.type) ++ restB.toList,
      u.Decides C K (r.subtype s t) (q.subtype s t)) :
    u.Decides C K (elemsSubtype r restA restB elemsA elemsB) (elemsSubtype q restA restB elemsA elemsB) := by
  have hanswer (b : Bool) : u.Decides C K (pure b) (pure b) := .pure (fun _ _ => rfl) fun _ _ _ => trivial
  -- the left side runs out first or the right one, so the induction is on both
  induction elemsA generalizing elemsB with
  | nil =>
    induction elemsB with
    | nil =>
      rw [elemsSubtype.eq_def, elemsSubtype.eq_def q]
      dsimp only
      cases restA with
      | none => exact hanswer true
      | some ra =>
        cases restB with
        | none => exact hanswer false
        | some rb => exact hsub ra (by simp) rb (by simp)
    | cons eb bs ih =>
      have hrest := ih fun s hs t ht => hsub s hs t (by simp only [List.map_cons, List.cons_append]; exact .tail _ ht)
      rw [elemsSubtype.eq_def, elemsSubtype.eq_def q]
      dsimp only
      split
      · exact hanswer false
      · cases restA with
        | none => exact hrest
        | some ra => exact (hsub ra (by simp) eb.type (by simp)).cond hrest (hanswer false)
  | cons ea as ih =>
    have hlater {s : Ty} (hs : s ∈ as.map (·.type) ++ restA.toList) :
        s ∈ (ea :: as).map (·.type) ++ restA.toList := by
      rw [List.map_cons, List.cons_append]
      exact .tail _ hs
    cases elemsB with
    | nil =>
      have hrest := ih fun s hs t ht => hsub s (hlater hs) t ht
      rw [elemsSubtype.eq_def, elemsSubtype.eq_def q]
      dsimp only
      cases restB with
      | none => exact hanswer false
      | some rb => exact (hsub ea.type (by simp) rb (by simp)).cond hrest (hanswer false)
    | cons eb bs =>
      have hrest := @ih bs fun s hs t ht => hsub s (hlater hs) t (by
        rw [List.map_cons, List.cons_append]
        exact .tail _ ht)
      rw [elemsSubtype.eq_def, elemsSubtype.eq_def q]
      dsimp only
      split
      · exact hanswer false
      · exact (hsub ea.type (by simp) eb.type (by simp)).cond hrest (hanswer false)

theorem tracks_paramsSubtype {paramsA paramsB : List (Param Ty)}
    (hsub : ∀ pa ∈ paramsA, ∀ pb ∈ paramsB,
      u.Decides C K (r.subtype (argType pb) (argType pa)) (q.subtype (argType pb) (argType pa))) :
    u.Decides C K (paramsSubtype r paramsA paramsB) (paramsSubtype q paramsA paramsB) := by
  have hanswer (b : Bool) : u.Decides C K (pure b) (pure b) := .pure (fun _ _ => rfl) fun _ _ _ => trivial
  induction paramsA generalizing paramsB with
  | nil => exact hanswer true
  | cons pa as ih =>
    cases paramsB with
    | nil => exact hanswer true
    | cons pb bs =>
      rw [paramsSubtype, paramsSubtype]
      exact (hsub pa (by simp) pb (by simp)).cond
        (ih fun pa hpa pb hpb => hsub pa (by simp [hpa]) pb (by simp [hpb])) (hanswer false)

theorem tracks_functionSubtype {paramsA paramsB : List (Param Ty)} {retA retB : Ty}
    (hsub : ∀ pa ∈ paramsA, ∀ pb ∈ paramsB,
      u.Decides C K (r.subtype (argType pb) (argType pa)) (q.subtype (argType pb) (argType pa)))
    (hret : u.Decides C K (r.subtype retA retB) (q.subtype retA retB)) :
    u.Decides C K (functionSubtype r paramsA retA paramsB retB) (functionSubtype q paramsA retA paramsB retB) := by
  have hanswer (b : Bool) : u.Decides C K (pure b) (pure b) := .pure (fun _ _ => rfl) fun _ _ _ => trivial
  rw [functionSubtype, functionSubtype]
  split
  · exact hanswer false
  · refine (tracks_paramsSubtype hsub).cond ?_ (hanswer false)
    split
    · exact hanswer true
    · exact hret

theorem tracks_propsDisjoint {propsA propsB : List (Property Ty)}
    (hdis : ∀ pa ∈ propsA, ∀ pb ∈ propsB,
      u.Decides C K (r.disjoint pa.type pb.type) (q.disjoint pa.type pb.type)) :
    u.Decides C K (propsDisjoint r propsA propsB) (propsDisjoint q propsA propsB) := by
  have hno : u.Decides C K (pure false) (pure false) := .pure (fun _ _ => rfl) fun _ _ _ => trivial
  refine .anyM fun pa hpa => ?_
  cases hfind : findProp? propsB pa.name with
  | none => exact hno
  | some pb =>
    dsimp only
    split
    · exact hno
    · exact hdis pa hpa pb (findProp?_some hfind).1

theorem tracks_elemsDisjoint {elemsA elemsB : List (Elem Ty)}
    (hdis : ∀ ea ∈ elemsA, ∀ eb ∈ elemsB,
      u.Decides C K (r.disjoint ea.type eb.type) (q.disjoint ea.type eb.type)) :
    u.Decides C K (elemsDisjoint r elemsA elemsB) (elemsDisjoint q elemsA elemsB) := by
  have hanswer (b : Bool) : u.Decides C K (pure b) (pure b) := .pure (fun _ _ => rfl) fun _ _ _ => trivial
  induction elemsA generalizing elemsB with
  | nil => exact hanswer false
  | cons ea as ih =>
    cases elemsB with
    | nil => exact hanswer false
    | cons eb bs =>
      have hrest := @ih bs fun ea hea eb heb => hdis ea (by simp [hea]) eb (by simp [heb])
      rw [elemsDisjoint, elemsDisjoint]
      split
      · exact (hdis ea (by simp) eb (by simp)).cond (hanswer true) hrest
      · exact hrest

/-! ## Properties -/

theorem tracks_foundProps {name : Text} {ts : List Ty}
    (hprop : ∀ t ∈ ts, u.Tracks C K (r.propertyOf t name) (q.propertyOf t name) fun v found =>
      ∀ p ∈ found, v.Keeps p.type) :
    u.Tracks C K (foundProps r name ts) (foundProps q name ts) fun v ps => ∀ p ∈ ps, v.Keeps p.type := by
  induction ts generalizing u with
  | nil => exact .pure (fun _ _ => rfl) fun _ _ _ => by simp
  | cons t ts ih =>
    rw [foundProps, foundProps]
    refine (hprop t (by simp)).bind fun v found _ huv hfound _ => ?_
    have hrest := ih fun s hs => (hprop s (by simp [hs])).onward huv
    cases found with
    | none => exact hrest
    | some p =>
      refine hrest.bind fun w ps _ hvw hps _ => .pure (fun _ _ => rfl) fun x _ hwx => ?_
      refine List.forall_mem_cons.2 ⟨(hvw.trans hwx).keeps (hfound p rfl), fun q hq => hwx.keeps (hps q hq)⟩

theorem tracks_sharedProps {name : Text} {ts : List Ty}
    (hprop : ∀ t ∈ ts, u.Tracks C K (r.propertyOf t name) (q.propertyOf t name) fun v found =>
      ∀ p ∈ found, v.Keeps p.type) :
    u.Tracks C K (sharedProps r name ts) (sharedProps q name ts) fun v found =>
      ∀ ps ∈ found, ∀ p ∈ ps, v.Keeps p.type := by
  induction ts generalizing u with
  | nil => exact .pure (fun _ _ => rfl) fun _ _ _ => by simp
  | cons t ts ih =>
    rw [sharedProps, sharedProps]
    refine (hprop t (by simp)).bind fun v found _ huv hfound _ => ?_
    cases found with
    | none => exact .pure (fun _ _ => rfl) fun _ _ _ => by simp
    | some p =>
      refine (ih fun s hs => (hprop s (by simp [hs])).onward huv).bind fun w rest _ hvw hrest _ => ?_
      cases rest with
      | none => exact .pure (fun _ _ => rfl) fun _ _ _ => by simp
      | some ps =>
        refine .pure (fun _ _ => rfl) fun x _ hwx qs hqs => ?_
        obtain rfl := Option.some.inj hqs
        exact List.forall_mem_cons.2
          ⟨(hvw.trans hwx).keeps (hfound p rfl), fun q hq => hwx.keeps (hrest ps rfl q hq)⟩

/-- What shapes have in common is met one property at a time. Only entries come of it. -/
theorem tracks_mergedProps {propsA propsB : List (Property Ty)} (hA : ∀ pa ∈ propsA, u.Keeps pa.type)
    (hmeet : ∀ pa ∈ propsA, ∀ pb ∈ propsB, u.Tracks C K (r.intersect [pa.type, pb.type])
      (q.intersect [pa.type, pb.type]) Keeps) :
    u.Tracks C K (mergedProps r propsB propsA) (mergedProps q propsB propsA) fun v found =>
      ∀ ps ∈ found, ∀ p ∈ ps, v.Keeps p.type := by
  induction propsA generalizing u with
  | nil => exact .pure (fun _ _ => rfl) fun _ _ _ => by simp
  | cons pa rest ih =>
    have hnone {v : Universe} : v.Tracks C K (pure none) (pure none) fun v (found : Option (List (Property Ty))) =>
        ∀ ps ∈ found, ∀ p ∈ ps, v.Keeps p.type := .pure (fun _ _ => rfl) fun _ _ _ => by simp
    -- whatever goes on with the merged rest by putting the property before it
    have hcons {v : Universe} (huv : u.Onward v) (p : Property Ty) (hp : v.Keeps p.type)
        {f : Option (List (Property Ty)) → InUniverse (Option (List (Property Ty)))}
        {g : Option (List (Property Ty)) → Ideal noClasses (Option (List (Property Ty)))}
        (hf : f none = pure none ∧ ∀ ps, f (some ps) = pure (some (p :: ps)))
        (hg : g none = pure none ∧ ∀ ps, g (some ps) = pure (some (p :: ps))) :
        v.Tracks C K (mergedProps r propsB rest >>= f) (mergedProps q propsB rest >>= g) fun v found =>
          ∀ ps ∈ found, ∀ p ∈ ps, v.Keeps p.type := by
      refine (ih (fun p hp => huv.keeps (hA p (by simp [hp]))) fun p hp pb hpb =>
        (hmeet p (by simp [hp]) pb hpb).onward huv).bind fun w found _ hvw hfound _ => ?_
      cases found with
      | none =>
        rw [hf.1, hg.1]
        exact hnone
      | some ps =>
        rw [hf.2, hg.2]
        refine .pure (fun _ _ => rfl) fun x _ hwx qs hqs => ?_
        obtain rfl := Option.some.inj hqs
        exact List.forall_mem_cons.2 ⟨(hvw.trans hwx).keeps hp, fun q hq => hwx.keeps (hfound ps rfl q hq)⟩
    rw [mergedProps, mergedProps]
    cases hfind : findProp? propsB pa.name with
    | none => exact hcons (.refl u) pa (hA pa (by simp)) ⟨rfl, fun _ => rfl⟩ ⟨rfl, fun _ => rfl⟩
    | some pb =>
      refine (hmeet pa (by simp) pb (findProp?_some hfind).1).bind fun v met _ huv hmet _ => ?_
      let p : Property Ty :=
        { name := pa.name
          type := met
          optional := pa.optional && pb.optional
          readonly := pa.readonly && pb.readonly }
      dsimp only
      split
      · exact hnone
      · exact hcons huv p hmet ⟨rfl, fun _ => rfl⟩ ⟨rfl, fun _ => rfl⟩

end Loops

/-! ## Fusing -/

section Fusing

variable {r : Rules InUniverse} {u v w : Universe} {B : Ty → Prop} {a b t : Ty} {before rest members : List Ty}

/-- Two members are of the kind that does not merge. -/
def Unmerged (a b : Ty) : Prop := Lucid a ∧ Lucid b ∧ ¬ (a.isObject = true ∧ b.isObject = true)

/-- Lucid members, at most one of which is a shape. -/
structure Mixed (members : List Ty) : Prop where
  lucid : ∀ m ∈ members, Lucid m
  object : members.countP Ty.isObject ≤ 1

namespace Mixed

theorem perm {ms ns : List Ty} (hms : Mixed ms) (h : ms.Perm ns) : Mixed ns :=
  ⟨fun m hm => hms.lucid m (h.mem_iff.2 hm), h.countP_eq _ ▸ hms.object⟩

theorem tail (hms : Mixed (a :: members)) : Mixed members := by
  refine ⟨fun m hm => hms.lucid m (by simp [hm]), ?_⟩
  have := hms.object
  rw [List.countP_cons] at this
  omega

theorem unmerged (hms : Mixed (a :: b :: members)) : Unmerged a b := by
  refine ⟨hms.lucid a (by simp), hms.lucid b (by simp), fun ⟨ha, hb⟩ => ?_⟩
  have := hms.object
  simp only [List.countP_cons, ha, hb, if_true] at this
  omega

end Mixed

/-- What combining two entries comes to: one of them, unless both are shapes. Lucid entries stay side by side only
if nothing combines them. -/
structure Combined (a b : Ty) (v : Universe) (fusion : Fusion) : Prop where
  into : ∀ t, fusion = .into t →
    v.Keeps t ∧ (t = a ∨ t = b ∨ (a.isObject = true ∧ b.isObject = true) ∧ t.isObject = true)
  apart : fusion = .apart → v.spent = false → Lucid a → Lucid b → (combine noClasses.answers a b).run = .apart

/-- What one round of fusing comes to: unless shapes have merged, a member less. -/
structure Fused (members : List Ty) (v : Universe) (ms : List Ty) : Prop where
  piece : ∀ m ∈ ms, v.Piece m
  length : ms.length + 1 = members.length
  rest : Mixed members → ∃ m, members.Perm (m :: ms)

variable (hcombine : ∀ {v : Universe} {a b : Ty}, v.Piece a → v.Piece b →
  v.Tracks (Unmerged a b) (Unmerged a b ∧ B a ∧ B b) (combine r a b)
    (combine noClasses.answers a b) (Combined a b))

include hcombine

theorem tracks_fuseWith (ha : u.Piece a) (hbefore : ∀ m ∈ before, u.Piece m) (hrest : ∀ m ∈ rest, u.Piece m) :
    u.Tracks (Mixed (a :: (before ++ rest)))
      (Mixed (a :: (before ++ rest)) ∧ ∀ m ∈ a :: (before ++ rest), B m)
      (fuseWith r a before rest) (fuseWith noClasses.answers a before rest) fun v sweep =>
        (∀ ms, sweep = .fused ms → Fused (a :: (before ++ rest)) v ms) ∧
          (sweep = .stable → v.spent = false → Lucid a → ∀ b ∈ rest, Lucid b →
            (combine noClasses.answers a b).run = .apart) := by
  induction rest generalizing before u with
  | nil => exact .pure (fun _ _ => rfl) fun _ _ _ => by simp
  | cons b rest ih =>
    have hperm : (a :: (before ++ b :: rest)).Perm (a :: b :: (before ++ rest)) := List.perm_middle.cons a
    have hb := hrest b (by simp)
    rw [fuseWith, fuseWith]
    refine ((hcombine ha hb).weaken (fun _ h => (h.perm hperm).unmerged) fun _ h =>
      ⟨(h.1.perm hperm).unmerged, h.2 a (by simp), h.2 b (by simp)⟩).bind fun v fusion _ huv hfusion _ => ?_
    cases fusion with
    | apart =>
      have hlater := @ih v (before ++ [b]) (ha.onward huv)
        (List.forall_mem_append.2 ⟨fun m hm => (hbefore m hm).onward huv, by simpa using hb.onward huv⟩)
        fun m hm => (hrest m (by simp [hm])).onward huv
      simp only [List.append_assoc, List.singleton_append] at hlater
      refine hlater.imp fun w sweep _ hvw hsweep _ => ⟨hsweep.1, fun hstable hspent hla c hc hlc => ?_⟩
      rcases List.mem_cons.1 hc with rfl | hc
      · exact hfusion.apart rfl (hvw.unspent hspent) hla hlc
      · exact hsweep.2 hstable hspent hla c hc hlc
    | empty => exact .pure (fun _ _ => rfl) fun _ _ _ => by simp
    | into t =>
      obtain ⟨hkeeps, ht⟩ := hfusion.into t rfl
      refine .pure (fun _ _ => rfl) fun w _ hvw => ⟨fun ms hms => ?_, by simp⟩
      obtain rfl := Sweep.fused.inj hms
      -- a merged shape is no part of a mixed list, so one of the two members stands for both there
      refine ⟨?_, by simp only [List.length_cons, List.length_append, List.length_cons]; omega, fun hmixed => ?_⟩
      · have hpiece : w.Piece t := by
          rcases ht with rfl | rfl | ⟨-, hobject⟩
          · exact ha.onward (huv.trans hvw)
          · exact hb.onward (huv.trans hvw)
          · exact .of_isObject (hvw.keeps hkeeps) hobject
        refine List.forall_mem_cons.2 ⟨hpiece, List.forall_mem_append.2 ⟨fun m hm => ?_, fun m hm => ?_⟩⟩
        · exact (hbefore m hm).onward (huv.trans hvw)
        · exact (hrest m (by simp [hm])).onward (huv.trans hvw)
      · rcases ht with rfl | rfl | ⟨hobjects, -⟩
        · exact ⟨b, hperm.trans (.swap b t _)⟩
        · exact ⟨a, hperm⟩
        · exact absurd hobjects (hmixed.perm hperm).unmerged.2.2

theorem tracks_fuseFirst (hmembers : ∀ m ∈ members, u.Piece m) :
    u.Tracks (Mixed members) (Mixed members ∧ ∀ m ∈ members, B m)
      (fuseFirst r before members) (fuseFirst noClasses.answers before members) fun v sweep =>
        (∀ ms, sweep = .fused ms → ∃ ms', ms = before ++ ms' ∧ Fused members v ms') ∧
          (sweep = .stable → v.spent = false → (∀ m ∈ members, Lucid m) →
            members.Pairwise fun a b => (combine noClasses.answers a b).run = .apart) := by
  induction members generalizing before u with
  | nil => exact .pure (fun _ _ => rfl) fun _ _ _ => ⟨by simp, fun _ _ _ => .nil⟩
  | cons a rest ih =>
    rw [List.forall_mem_cons] at hmembers
    rw [fuseFirst, fuseFirst]
    refine (tracks_fuseWith hcombine hmembers.1 (List.forall_mem_nil u.Piece) hmembers.2).bind
      fun v sweep _ huv hsweep _ => ?_
    simp only [List.nil_append] at hsweep
    cases sweep with
    | stable =>
      have hlater := (@ih v (before ++ [a]) fun m hm => (hmembers.2 m hm).onward huv).weaken
        (C := Mixed (a :: rest)) (K := Mixed (a :: rest) ∧ ∀ m ∈ a :: rest, B m) (fun _ h => h.tail)
        fun _ h => ⟨h.1.tail, fun m hm => h.2 m (by simp [hm])⟩
      -- nothing combines with `a`, so whatever the rest comes to, `a` is put before it
      refine hlater.imp fun w sweep _ hvw hlast _ => ⟨fun ms hms => ?_, fun hstable hspent hlucid => ?_⟩
      · obtain ⟨ms', rfl, hfused⟩ := hlast.1 ms hms
        refine ⟨a :: ms', by simp, ?_, by simp [hfused.length], fun hmixed => ?_⟩
        · exact List.forall_mem_cons.2 ⟨hmembers.1.onward (huv.trans hvw), hfused.piece⟩
        · obtain ⟨m, hm⟩ := hfused.rest hmixed.tail
          exact ⟨m, (hm.cons a).trans (.swap m a _)⟩
      · rw [List.forall_mem_cons] at hlucid
        exact .cons (fun b hb => hsweep.2 rfl (hvw.unspent hspent) hlucid.1 b hb (hlucid.2 b hb))
          (hlast.2 hstable hspent hlucid.2)
    | empty => exact .pure (fun _ _ => rfl) fun _ _ _ => by simp
    | fused ms =>
      refine .pure (fun _ _ => rfl) fun w _ hvw => ⟨fun ms' hms => ?_, by simp⟩
      obtain rfl := Sweep.fused.inj hms
      obtain ⟨hpiece, hlength, hrest⟩ := hsweep.1 ms rfl
      exact ⟨ms, rfl, fun m hm => (hpiece m hm).onward hvw, hlength, hrest⟩

/-- **What is left of members when none combine any more**: entries that may be members, and no two lucid ones
among them combine. -/
theorem tracks_fuseAll {rounds : Nat} (hrounds : members.length ≤ rounds) (hmembers : ∀ m ∈ members, u.Piece m) :
    u.Tracks (Mixed members) (Mixed members ∧ ∀ m ∈ members, B m)
      (fuseAll r rounds members) (fuseAll noClasses.answers rounds members) fun v found =>
        ∀ ms ∈ found, (∀ m ∈ ms, v.Piece m) ∧ (v.spent = false → (∀ m ∈ ms, Lucid m) →
          ms.Pairwise fun a b => (combine noClasses.answers a b).run = .apart) := by
  induction rounds generalizing members u with
  | zero =>
    obtain rfl := List.length_eq_zero_iff.1 (Nat.le_zero.1 hrounds)
    refine .pure (fun _ _ => rfl) fun _ _ _ => ?_
    rintro ms ⟨⟩
    simp
  | succ rounds ih =>
    rw [fuseAll, fuseAll]
    refine (tracks_fuseFirst hcombine hmembers).bind fun v sweep _ huv hsweep _ => ?_
    cases sweep with
    | stable =>
      refine .pure (fun _ _ => rfl) fun w _ hvw => ?_
      rintro ms ⟨⟩
      exact ⟨fun m hm => (hmembers m hm).onward (huv.trans hvw), fun hspent => hsweep.2 rfl (hvw.unspent hspent)⟩
    | empty => exact .pure (fun _ _ => rfl) fun _ _ _ => by simp
    | fused ms =>
      obtain ⟨_, rfl, hpiece, hlength, hrest⟩ := hsweep.1 ms rfl
      -- a member was lost, and what is mixed or bounded stays so without it
      refine (ih (by omega) hpiece).weaken (fun _ h => ?_) fun _ h => ⟨?_, fun m hm => ?_⟩
      · obtain ⟨m, hm⟩ := hrest h
        exact (h.perm hm).tail
      · obtain ⟨m, hm⟩ := hrest h.1
        exact (h.1.perm hm).tail
      · obtain ⟨x, hx⟩ := hrest h.1
        exact h.2 m (hx.mem_iff.2 (List.mem_cons_of_mem _ hm))

end Fusing

/-- Members that stay side by side are kept as an intersection, the right one if it is one already. -/
theorem tracks_interOf {C K : Prop} {u : Universe} {members : List Ty} (hmembers : ∀ m ∈ members, u.Piece m)
    (hapart : u.spent = false → (∀ m ∈ members, Lucid m) →
      members.Pairwise fun a b => (combine noClasses.answers a b).run = .apart)
    (hsole : u.spent = false → C → Sole (interOf members : Ideal noClasses Ty).run ∨
      u.Keeps (interOf members : Ideal noClasses Ty).run) :
    u.Tracks C K (interOf members) (interOf members) Keeps := by
  rcases members with _ | ⟨m, _ | ⟨m', ms⟩⟩
  · exact tracks_atom (by simp [atoms])
  · exact .pure (fun _ _ => rfl) fun _ _ huv => huv.keeps (hmembers m (by simp)).keeps
  · refine (tracks_intern (t := .inter (sortByKey (m :: m' :: ms)))
      (fun s hs => (hmembers s (mem_sortByKey.1 hs)).keeps) (by simp [isInter]) (fun hspent ns heq hlucid => ?_)
      hsole).imp fun _ _ _ _ ht _ => ht.1
    obtain rfl := Ty.inter.inj heq
    have hpieces (x) (hx : x ∈ m :: m' :: ms) := (hmembers x hx)
    obtain ⟨hform, hsettled⟩ := settled_sortByKey (h := noClasses) (by simp)
      (fun x hx => ⟨(hpieces x hx).member, (hpieces x hx).not_inter⟩)
      (hapart hspent fun x hx => hlucid x (mem_sortByKey.2 hx))
    exact ⟨hform, hsettled⟩

end Rules
end FlowTyping
