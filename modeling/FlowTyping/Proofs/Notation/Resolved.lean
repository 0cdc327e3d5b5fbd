import FlowTyping.Proofs.Flow.Arising
import FlowTyping.Proofs.Notation.Levels
import FlowTyping.Proofs.Relation.Contravariant

/-!
# Prints name their types

What the print of an entry is read as is resolved part by part, and each part is an entry that is found again
under its key. So reading the print of an entry answers the entry itself. Nothing is asked of the other entries:
they may be of any texts, and stand under any keys.

* **`Ty.Writable.lucid`** — what can be written down is lucid.
* **`Universe.Finds`** — a computation of a reader ends with a value, not with an error.
* **`Reader.names_of_written`** — what may be read as an entry is resolved to it, if its parts are.
* **`Universe.Arises.readType_print`** — reading the print of an entry answers that entry.
-/

namespace FlowTyping

open Ty

/-- Identifiers are words. -/
theorem Notation.Body.isWord_of_isIdent {s : String} (hs : isIdent s = true) : Text.IsWord s := by
  have hascii : ∀ n < 128, isIdentPart (Char.ofNat n) = true →
      ∀ b ∈ String.utf8EncodeChar (Char.ofNat n), Text.isWordByte b = true := by decide +kernel
  have hpart (c : Char) (hc : isIdentPart c = true) : ∀ b ∈ String.utf8EncodeChar c, Text.isWordByte b = true := by
    have hlt : c.toNat < 128 := by
      have hle {d : Char} (h : c ≤ d) (hd : d.toNat < 128) : c.toNat < 128 :=
        Nat.lt_of_le_of_lt (UInt32.le_iff_toNat_le.1 (Char.le_def.1 h)) hd
      simp only [isIdentPart, isIdentStart, Bool.or_eq_true, Bool.and_eq_true, decide_eq_true_eq, beq_iff_eq] at hc
      rcases hc with (((⟨-, h⟩ | ⟨-, h⟩) | rfl) | rfl) | ⟨-, h⟩ <;> first | exact hle h (by decide) | decide
    rw [← c.ofNat_toNat] at hc ⊢
    exact hascii _ hlt hc
  obtain ⟨c, cs, hlist, hc, hcs⟩ := exists_of_isIdent hs
  intro b hb
  rw [Text.toList_ofString, hlist] at hb
  obtain ⟨d, hd, hbyte⟩ := List.mem_flatMap.1 hb
  rcases List.mem_cons.1 hd with rfl | hd
  · exact hpart d (by rw [isIdentPart, hc, Bool.true_or]) b hbyte
  · exact hpart d (hcs d hd) b hbyte

namespace Ty

variable {t : Ty}

/-- What can be written down is lucid: it has no class tags and no type parameters, and its names are words. -/
theorem Writable.lucid (ht : Writable t) : Lucid t := by
  induction t using parts_induction with
  | step t ih =>
    refine .intro ?_ fun s hs => ih s hs (ht.part hs)
    have hown := ht.own
    cases t with
    | object tag props =>
      obtain ⟨htag, hnames⟩ := hown
      refine ⟨htag, fun p hp => ?_⟩
      obtain ⟨s, hs, hident⟩ := hnames p hp
      exact hs ▸ Notation.Body.isWord_of_isIdent hident
    | var name bound => exact hown.elim
    | _ => trivial

/-- A type whose parts are atoms is writable if its own names are. -/
theorem writable_of_atoms (hown : t.OwnWritable) (hparts : ∀ s ∈ t.parts, s ∈ atoms) : Writable t := by
  refine .intro hown fun s hs => ?_
  have hatom := hparts s hs
  simp only [atoms, List.mem_cons, List.not_mem_nil, or_false] at hatom
  rcases hatom with rfl | rfl | rfl | rfl | rfl | rfl | rfl <;> exact .intro trivial (by simp [parts])

theorem eq_array_of_isArray (ht : t.isArray = true) : ∃ s, t = .tuple [] (some s) := by
  unfold Ty.isArray at ht
  split at ht
  · exact ⟨_, rfl⟩
  · exact absurd ht Bool.false_ne_true

end Ty

/-! ## Readers in a universe -/

namespace Universe

open Notation Notation.Reader

variable {u : Universe} {s t : Ty}

section Computations

variable {α β : Type} {Q : Universe → α → Prop} {R : Universe → β → Prop}

/-- The computation of a reader ends with such a value, not with an error. -/
def Finds (u : Universe) (x : Resolve InUniverse α) (Q : Universe → α → Prop) : Prop :=
  Regime.coherent.Yields u (ExceptT.run x) fun v r => ∃ a, r = .ok a ∧ Q v a

namespace Finds

theorem pure {a : α} (hq : ∀ v : Universe, Regime.coherent.Holds v → u.Onward v → Q v a) : u.Finds (pure a) Q :=
  Regime.Yields.pure fun v hv huv => ⟨a, rfl, hq v hv huv⟩

theorem bind {x : Resolve InUniverse α} {f : α → Resolve InUniverse β} (hx : u.Finds x Q)
    (hf : ∀ (v : Universe) (a : α), Regime.coherent.Holds v → u.Onward v → Q v a → v.Finds (f a) R) :
    u.Finds (x >>= f) R := by
  rw [Finds, ExceptT.run_bind]
  refine Regime.Yields.bind hx ?_
  rintro v _ hv huv ⟨a, rfl, ha⟩
  exact hf v a hv huv ha

/-- A computation of the universe raises no error. -/
theorem lift {x : InUniverse α} (hx : Regime.coherent.Yields u x Q) : u.Finds (liftM x) Q := by
  intro v hv huv
  obtain ⟨hw, hvw, ha⟩ := hx v hv huv
  exact ⟨hw, hvw, _, rfl, ha⟩

end Finds

end Computations

/-- An entry is answered for every tree with its key. -/
theorem yields_intern {R : Regime} (ht : u.Keeps t) (hk : s.key = t.key) :
    R.Yields u (TypeStore.intern s) fun _ r => r = t := by
  intro v hv huv
  have hrun : (TypeStore.intern s : InUniverse Ty).run v = v.intern s := rfl
  have hkept : v.table[s.key]? = some t := hk ▸ R.keeps huv ht
  rw [hrun, intern]
  simp only [hkept]
  exact ⟨hv, R.refl v, trivial⟩

/-- An array of an entry is answered as it is, whether or not it is an entry itself. -/
theorem yields_array (ht : u.Keeps t) :
    Regime.coherent.Yields u (TypeStore.array t) fun _ s => s = .tuple [] (some t) := by
  have hmade : u.Tracks False True (TypeStore.intern (.tuple [] (some t))) (TypeStore.intern (.tuple [] (some t)))
      fun v s => v.Keeps s ∧ s.key = (Ty.tuple [] (some t)).key :=
    tracks_intern (by simpa [parts] using ht) (fun _ => .nil) (by simp) (by simp)
  exact hmade.yields.imp fun v s hv huv hs => hv.1.eq_array (huv.keeps ht) hs.1.1 hs.1.2

end Universe

/-! ## What is found -/

namespace Notation.Reader

open Notation.Body Universe

variable {u : Universe} {r : Reader} {t : Ty} {x : TypeExpr}

/-- What is read as a writable entry is resolved to that entry. -/
def Names (r : Reader) (t : Ty) (x : TypeExpr) : Prop :=
  Writable t → ∀ {u : Universe}, Regime.coherent.Holds u → u.Keeps t → u.Finds (r.type x) fun _ s => s = t

theorem type_name (name : String) (offset : Nat) :
    (r.type (.name name offset) : Resolve InUniverse Ty) = r.named name offset := rfl

/-- The name of an atom means that atom. -/
theorem names_atom {name : String} (hname : atomNames.lookup name = some t) (offset : Nat) :
    Names r t (.name name offset) := by
  intro _ u _ _
  have hno (b : Bool) : atomNames.lookup (if b then "true" else "false") = none := by cases b <;> rfl
  have htrue : name ≠ "true" := by
    rintro rfl
    exact absurd ((hno true).symm.trans hname) (by simp)
  have hfalse : name ≠ "false" := by
    rintro rfl
    exact absurd ((hno false).symm.trans hname) (by simp)
  rw [type_name, named, if_neg htrue, if_neg hfalse, hname]
  exact .pure fun _ _ _ => rfl

/-- What is read as a literal names it. -/
theorem names_literal {l : Literal}
    (hx : (r.type x : Resolve InUniverse Ty) = liftM (TypeStore.literal l : InUniverse Ty)) :
    Names r (.literal l) x := by
  intro _ u _ ht
  rw [hx]
  exact .lift (yields_intern ht rfl)

theorem names_truth (b : Bool) (offset : Nat) :
    Names r (.literal (.bool b)) (.name (if b then "true" else "false") offset) := by
  refine names_literal ?_
  rw [type_name, named]
  cases b with
  | true => rw [if_pos (by rfl)]
  | false => rw [if_neg (by decide), if_pos (by rfl)]

theorem names_text (v : Text.Bytes) : Names r (.literal (.text v)) (.text v) := names_literal rfl

theorem names_number (n : Number) : Names r (.literal (.number n)) (.number n) := names_literal rfl

/-! ### Objects -/

theorem finds_props {ps : List (Property Ty)} {qs : List (Property TypeExpr)}
    (hps : List.Forall₂ (PropWritten (Names r)) ps qs) (hu : Regime.coherent.Holds u) (hw : ∀ p ∈ ps, Writable p.type)
    (hk : ∀ p ∈ ps, u.Keeps p.type) : u.Finds (r.props qs) fun _ found => found = ps := by
  induction hps generalizing u with
  | nil =>
    rw [props]
    exact .pure fun _ _ _ => rfl
  | @cons p q _ _ hp _ ih =>
    obtain ⟨name, x, optional, readonly⟩ := q
    obtain ⟨name', t, optional', readonly'⟩ := p
    obtain ⟨rfl, htype, rfl, rfl⟩ := hp
    rw [props]
    refine (htype (hw _ (by simp)) hu (hk _ (by simp))).bind ?_
    rintro v _ hv huv rfl
    refine (ih hv (fun p hp => hw p (by simp [hp])) fun p hp => huv.keeps (hk p (by simp [hp]))).bind ?_
    rintro w _ - - rfl
    exact .pure fun _ _ _ => rfl

theorem names_object {ps : List (Property Ty)} {qs : List (Property TypeExpr)}
    (hps : List.Forall₂ (PropWritten (Names r)) ps qs) : Names r (.object "" ps) (.object qs) := by
  intro hw u hu ht
  refine (finds_props hps hu (fun p hp => hw.part (List.mem_map_of_mem hp))
    fun p hp => hu.1.part ht _ (List.mem_map_of_mem hp)).bind ?_
  rintro v ps hv huv rfl
  -- the properties of an entry stand in order already
  have hsorted : TypeStore.sortProps ps = ps := TypeStore.sortProps_of_increasing (hu.1.orderly ht rfl)
  exact .lift (yields_intern (huv.keeps ht) (by rw [hsorted]))

/-! ### Tuples -/

theorem finds_array (ht : Names r t x) (hu : Regime.coherent.Holds u) (hw : Writable t) (hk : u.Keeps t) :
    u.Finds (r.type (.array x)) fun _ s => s = .tuple [] (some t) := by
  refine (ht hw hu hk).bind ?_
  rintro v t - huv rfl
  exact .lift (yields_array (huv.keeps hk))

theorem names_array (hs : Names r t x) : Names r (.tuple [] (some t)) (.array x) :=
  fun hw _ hu ht => finds_array hs hu (hw.part (by simp [parts])) (hu.1.part ht _ (by simp [parts]))

/-- The elements that are read join those before them; the rest is taken out of the array that is spread. -/
theorem finds_elems (done : List (Elem Ty)) {elems : List (Elem Ty)} {rest : Option Ty} {es : List (ElemExpr TypeExpr)}
    (hes : List.Forall₂ (SlotWritten (Names r)) (slots elems rest) es) (hu : Regime.coherent.Holds u)
    (hw : ∀ s ∈ (Ty.tuple elems rest).parts, Writable s) (hk : ∀ s ∈ (Ty.tuple elems rest).parts, u.Keeps s) :
    u.Finds (r.elems done none es) fun _ found => found = (done ++ elems, rest) := by
  induction elems generalizing u done es with
  | nil =>
    rw [List.append_nil]
    cases rest with
    | none =>
      obtain rfl : es = [] := by simpa [slots] using hes
      rw [Reader.elems]
      exact .pure fun _ _ _ => rfl
    | some t =>
      obtain ⟨_, _, hslot, hnil, rfl⟩ := List.forall₂_cons_left_iff.1
        (show List.Forall₂ _ [Sum.inr t] es from hes)
      cases hnil
      cases hslot with
      | @rest _ x ht offset =>
        rw [Reader.elems]
        simp only [Option.isSome_none, Bool.false_eq_true, if_false, if_true]
        refine (finds_array ht hu (hw t (by simp [parts])) (hk t (by simp [parts]))).bind ?_
        rintro v _ - - rfl
        rw [restElem, pure_bind, Reader.elems]
        exact .pure fun _ _ _ => rfl
  | cons e elems ih =>
    obtain ⟨_, es, hslot, htail, rfl⟩ := List.forall₂_cons_left_iff.1
      (show List.Forall₂ _ (Sum.inl e :: slots elems rest) es from hes)
    have hlater {s : Ty} (hs : s ∈ (Ty.tuple elems rest).parts) : s ∈ (Ty.tuple (e :: elems) rest).parts := by
      rw [parts, List.map_cons]
      exact List.mem_cons_of_mem _ hs
    cases hslot with
    | @elem _ x ht offset =>
      rw [Reader.elems]
      simp only [Option.isSome_none, Bool.false_eq_true, if_false]
      refine (ht (hw e.type (by simp [parts])) hu (hk e.type (by simp [parts]))).bind ?_
      rintro v _ hv huv rfl
      have hall := ih (done ++ [e]) htail hv (fun s hs => hw s (hlater hs))
        fun s hs => huv.keeps (hk s (hlater hs))
      rw [List.append_assoc] at hall
      exact hall

theorem names_tuple {elems : List (Elem Ty)} {rest : Option Ty} {es : List (ElemExpr TypeExpr)}
    (hes : List.Forall₂ (SlotWritten (Names r)) (slots elems rest) es) :
    Names r (.tuple elems rest) (.tuple es) := by
  intro hw u hu ht
  have horder : elems.Pairwise fun e f => e.optional = true → f.optional = true := hu.1.orderly ht rfl
  refine (finds_elems [] hes hu (fun _ => hw.part) (hu.1.part ht)).bind ?_
  rintro v _ - huv rfl
  -- no element of an entry is misplaced
  dsimp only [List.nil_append]
  rw [makeTuple, TypeStore.firstMisplaced_eq_none_iff.2 ⟨by simp, horder⟩]
  exact .lift (yields_intern (huv.keeps ht) rfl)

/-! ### Functions -/

/-- A parameter as it is written: whether a rest parameter is optional is not. -/
def written (p : Param Ty) : Param Ty := { p with optional := !p.rest && p.optional }

theorem keyParams_written (ps : List (Param Ty)) : keyParams (ps.map written) = keyParams ps := by
  rw [keyParams_eq_map, keyParams_eq_map, List.map_map]
  refine List.map_congr_left fun p _ => ?_
  cases hrest : p.rest <;> simp [written, paramText, hrest]

theorem finds_params {ps : List (Param Ty)} {qs : List (ParamExpr TypeExpr)} {afterRest : Bool}
    (hps : List.Forall₂ (ParamWritten (Names r)) ps qs) (hu : Regime.coherent.Holds u) (hw : ∀ p ∈ ps, Writable p.type)
    (hk : ∀ p ∈ ps, u.Keeps p.type) (harray : ∀ p ∈ ps, p.rest = true → p.type.isArray = true)
    (hlast : ps.Pairwise fun p _ => p.rest = false) (hafter : afterRest = true → ps = []) :
    u.Finds (r.params afterRest qs) fun _ found => found = ps.map written := by
  induction hps generalizing u afterRest with
  | nil =>
    rw [params]
    exact .pure fun _ _ _ => rfl
  | @cons p q ps qs hp _ ih =>
    obtain ⟨name, x, optional, rest, offset⟩ := q
    obtain ⟨hname, htype, hoptional, hrest⟩ := hp
    dsimp only at hname htype hoptional hrest
    subst hname hoptional hrest
    obtain ⟨hfirst, hlast⟩ := List.pairwise_cons.1 hlast
    obtain rfl : afterRest = false := by
      cases afterRest with
      | true => exact absurd (hafter rfl) (by simp)
      | false => rfl
    have hnone (hyes : p.rest = true) : ps = [] :=
      List.eq_nil_iff_forall_not_mem.2 fun q hq => by simp [hfirst q hq] at hyes
    rw [params]
    simp only [Bool.false_eq_true, if_false]
    refine (htype (hw _ (by simp)) hu (hk _ (by simp))).bind ?_
    rintro v s hv huv rfl
    have hlist : v.Finds (r.params p.rest qs >>= fun found => Pure.pure (written p :: found))
        fun _ found => found = (p :: ps).map written := by
      refine (ih hv (fun p hp => hw p (by simp [hp])) (fun p hp => huv.keeps (hk p (by simp [hp])))
        (fun p hp => harray p (by simp [hp])) hlast hnone).bind ?_
      rintro w _ - - rfl
      exact .pure fun _ _ _ => rfl
    -- of a rest parameter it is asked that its type is an array
    split
    · rename_i hyes
      obtain ⟨t, ht⟩ := eq_array_of_isArray (harray p (by simp) hyes)
      have hspread : (restElem offset p.type : Resolve InUniverse Ty) = Pure.pure t := by
        rw [ht]
        rfl
      rw [hspread, pure_bind]
      exact hlist
    · exact hlist

theorem names_function {ps : List (Param Ty)} {s : Ty} {qs : List (ParamExpr TypeExpr)}
    (hps : List.Forall₂ (ParamWritten (Names r)) ps qs) (hs : Names r s x) :
    Names r (.function ps s) (.function qs x) := by
  intro hw u hu ht
  obtain ⟨hparams, hlast⟩ := hw.own
  have hparam {p : Param Ty} (hp : p ∈ ps) : p.type ∈ (Ty.function ps s).parts :=
    List.mem_append_left _ (List.mem_map_of_mem hp)
  have hret : s ∈ (Ty.function ps s).parts := by simp [parts]
  refine (finds_params hps hu (fun p hp => hw.part (hparam hp)) (fun p hp => hu.1.part ht _ (hparam hp))
    (fun p hp => (hparams p hp).2) hlast (by simp)).bind ?_
  rintro v _ hv huv rfl
  refine (hs (hw.part hret) hv (huv.keeps (hu.1.part ht s hret))).bind ?_
  rintro w s - hvw rfl
  -- a key does not tell whether a rest parameter is optional
  refine .lift (yields_intern (hvw.keeps (huv.keeps ht)) ?_)
  rw [key, key, keyParams_written]

/-! ### Unions and intersections -/

theorem finds_types {ts : List Ty} {xs : List TypeExpr} (hts : List.Forall₂ (Names r) ts xs)
    (hu : Regime.coherent.Holds u) (hw : ∀ t ∈ ts, Writable t) (hk : ∀ t ∈ ts, u.Keeps t) : u.Finds (r.types xs) fun _ ss => ss = ts := by
  induction hts generalizing u with
  | nil =>
    rw [types]
    exact .pure fun _ _ _ => rfl
  | cons ht _ ih =>
    rw [types]
    refine (ht (hw _ (by simp)) hu (hk _ (by simp))).bind ?_
    rintro v _ hv huv rfl
    refine (ih hv (fun t ht => hw t (by simp [ht])) fun t ht => huv.keeps (hk t (by simp [ht]))).bind ?_
    rintro w _ - - rfl
    exact .pure fun _ _ _ => rfl

/-- Alternatives that are kept as a union simplify to that union. -/
theorem names_union {ms : List Ty} {xs : List TypeExpr} (hms : List.Forall₂ (Names r) ms xs) :
    Names r (.union ms) (.union xs) := by
  intro hw u hu ht
  have hsimplified : Simplified (.union ms) := fun ns heq => by
    cases heq
    exact hu.1.orderly ht rfl
  refine (finds_types hms hu (fun _ => hw.part) (hu.1.part ht)).bind ?_
  rintro v ms - huv rfl
  have hself : noClasses.union ms = .union ms := noClasses.union_members hsimplified
  have hmade : v.Tracks True True (TypeStore.union ms) (TypeStore.union ms) Keeps :=
    tracks_union (fun m hm => huv.keeps (hu.1.part ht m hm)) fun _ _ => .inr (hself ▸ huv.keeps ht)
  exact .lift (hmade.yields.imp fun _ s _ _ hs => (hs.2 trivial).trans hself)

/-- Parts that are kept as an intersection do not combine, whatever else is kept. -/
theorem names_inter {ms : List Ty} {xs : List TypeExpr} (hms : List.Forall₂ (Names r) ms xs) :
    Names r (.inter ms) (.inter xs) := by
  intro hw u hu ht
  refine (finds_types hms hu (fun _ => hw.part) (hu.1.part ht)).bind ?_
  rintro v ms ⟨hv, hspent⟩ huv rfl
  exact .lift (yields_intersect_members hv hspent (huv.keeps ht) hw.lucid)

/-- **What may be read as an entry is resolved to it**, if its parts are. -/
theorem names_of_written (hx : Written (Names r) t x) : Names r t x := by
  cases hx with
  | atom hname offset => exact names_atom hname offset
  | truth b offset => exact names_truth b offset
  | text v => exact names_text v
  | number n => exact names_number n
  | object hps => exact names_object hps
  | array hs => exact names_array hs
  | tuple _ hes => exact names_tuple hes
  | function hps hs => exact names_function hps hs
  | union hms => exact names_union hms
  | inter hms => exact names_inter hms

end Notation.Reader

/-! ## The round trip -/

namespace Universe

open Notation

variable {u : Universe} {t : Ty}

/-- **The print of an entry is read as that entry**, by any reader, if it can be written down. Nothing is asked of
the other entries. -/
theorem Arises.readType_print (hu : u.Arises) (ht : u.Keeps t) (hw : Writable t) (r : Reader) :
    ((r.readType t.render.toList : InUniverse _).run u).1 = .ok t := by
  have hholds := hu.coherent
  obtain ⟨x, hparse, hx⟩ := Body.parse_print (D := Reader.Names r) Reader.names_of_written hw
    (hholds.1.canonical hholds.2 ht hw.lucid)
  have hread : Regime.coherent.Yields u (r.readType t.render.toList) fun _ answer => answer = .ok t := by
    rw [Reader.readType, Reader.read, hparse]
    refine Regime.Yields.bind (hx hw hholds ht) ?_
    rintro v _ - - ⟨_, rfl, rfl⟩
    exact .pure fun _ _ _ => rfl
  exact (hread u hholds (.refl u)).2.2

theorem writable_texts : Writable (.function texts .undefined) := by
  refine .intro ⟨by simpa [texts, isArray] using (by decide : Body.isIdent "xs" = true), by simp [texts]⟩ ?_
  intro s hs
  rcases (by simpa [texts, parts] using hs : s = .tuple [] (some .string) ∨ s = .undefined) with rfl | rfl
  · exact writable_of_atoms trivial (by simp [parts, atoms])
  · exact writable_of_atoms trivial (by simp [parts])

/-- A shape whose property name is no word. -/
def header : Ty := .object "" [{ name := "content-type", type := .string }]

/-- The entries after the functions and that shape were made. -/
def headed : List Ty := takers ++ [header]

theorem headed_arises : (holding headed).Arises := by
  have hstring : ∀ t ∈ (Call.object "" [{ name := "content-type", type := .string }]).types,
      (holding takers).Keeps t := by
    simpa [Call.types] using takers_keeps (by simp [takers, atoms])
  have hcall := takers_history.arises.call _ hstring
  have hrun : ((Call.serve (.object "" [{ name := "content-type", type := .string }])).run (holding takers)).2 =
      ((holding takers).intern header).2 := rfl
  rwa [hrun, intern_of_not_mem (by decide) (by decide)] at hcall

/-- The function of any number of strings is read from its print, whatever else there is. -/
theorem texts_read : (Ty.function texts .undefined).render = "(...xs: string[]) => undefined" ∧
    (holding headed).Arises ∧ (holding headed).Keeps header ∧ ¬ Text.IsWord "content-type" ∧
      (holding headed).Keeps (.function texts .undefined) ∧ Writable (.function texts .undefined) ∧
        ((({} : Reader).readType (Ty.function texts .undefined).render.toList : InUniverse _).run
          (holding headed)).1 = .ok (.function texts .undefined) := by
  have hkeeps {t : Ty} (ht : t ∈ headed) : (holding headed).Keeps t := (lookup?_holding (by decide)).2 ⟨ht, rfl⟩
  have htexts := hkeeps (t := .function texts .undefined) (by simp [headed, takers])
  exact ⟨by decide, headed_arises, hkeeps (by simp [headed]), by decide, htexts, writable_texts,
    headed_arises.readType_print htexts writable_texts {}⟩

end Universe
end FlowTyping
