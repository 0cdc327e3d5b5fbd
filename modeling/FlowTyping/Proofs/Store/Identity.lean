import FlowTyping.Proofs.Number.Shortest
import FlowTyping.Proofs.Store.Represented
import FlowTyping.Proofs.Text.Decoding

/-!
# Keys tell types apart

A key leaves out the names of function parameters, and whether a rest parameter is optional. That is all it
leaves out: types whose other names are words have one key exactly if they are equal without these. So a
table that keeps one tree for a key never answers a different type.

* **`Ty.anonymous`** — a type without what its key leaves out.
* **`Ty.key_anonymous`** — it has the same key.
* **`Ty.key_eq_iff`** — and it is all that the key tells. The key is read back part by part
  (`Ty.mirrors_of_key_eq`); texts and numbers are read off their literals.
* **`Session.run_keys_tell`** — so for the types of every universe.
-/

namespace FlowTyping

namespace Ty

/-! ## What keys leave out -/

mutual
/-- The type without the names of its function parameters, and with rest parameters that are not optional. -/
def anonymous : Ty → Ty
  | .object tag props => .object tag (anonymousProps props)
  | .tuple elems none => .tuple (anonymousElems elems) none
  | .tuple elems (some rest) => .tuple (anonymousElems elems) (some rest.anonymous)
  | .function params ret => .function (anonymousParams params) ret.anonymous
  | .union ms => .union (anonymousAll ms)
  | .inter ms => .inter (anonymousAll ms)
  | .var name none => .var name none
  | .var name (some bound) => .var name (some bound.anonymous)
  | .literal value => .literal value
  | .never => .never
  | .unknown => .unknown
  | .null => .null
  | .undefined => .undefined
  | .boolean => .boolean
  | .number => .number
  | .string => .string

def anonymousProps : List (Property Ty) → List (Property Ty)
  | [] => []
  | ⟨name, t, optional, readonly⟩ :: ps => ⟨name, t.anonymous, optional, readonly⟩ :: anonymousProps ps

def anonymousElems : List (Elem Ty) → List (Elem Ty)
  | [] => []
  | ⟨t, optional⟩ :: es => ⟨t.anonymous, optional⟩ :: anonymousElems es

def anonymousParams : List (Param Ty) → List (Param Ty)
  | [] => []
  | ⟨_, t, optional, rest⟩ :: ps => ⟨"", t.anonymous, optional && !rest, rest⟩ :: anonymousParams ps

def anonymousAll : List Ty → List Ty
  | [] => []
  | t :: ts => t.anonymous :: anonymousAll ts
end

/-- A type has the outline of itself without what its key leaves out. -/
theorem mirrors_anonymous (t : Ty) : Mirrors (fun s s' => s' = s.anonymous) t t.anonymous := by
  have hall (ts : List Ty) : List.Forall₂ (fun s s' => s' = s.anonymous) ts (anonymousAll ts) := by
    induction ts with
    | nil => exact .nil
    | cons t ts ih => exact .cons rfl ih
  cases t with
  | literal value =>
    cases value with
    | text v => exact .text rfl
    | number n => exact .numeral rfl
    | bool b => exact .truth b
  | object tag props =>
    refine .object tag ?_
    induction props with
    | nil => exact .nil
    | cons p ps ih => exact .cons ⟨rfl, rfl, rfl, rfl⟩ ih
  | tuple elems rest =>
    have helems : List.Forall₂ (Elem.Mirrors fun s s' => s' = s.anonymous) elems (anonymousElems elems) := by
      induction elems with
      | nil => exact .nil
      | cons e es ih => exact .cons ⟨rfl, rfl⟩ ih
    cases rest with
    | none => exact .tuple helems .none
    | some rest => exact .tuple helems (.some rfl)
  | function params ret =>
    refine .function ?_ rfl
    induction params with
    | nil => exact .nil
    | cons p ps ih => exact .cons ⟨rfl, rfl, fun hr => by simp [hr]⟩ ih
  | union ms => exact .union (hall ms)
  | inter ms => exact .inter (hall ms)
  | var name bound =>
    cases bound with
    | none => exact .var name .none
    | some bound => exact .var name (.some rfl)
  | _ => exact .atom (by simp [atoms])

theorem key_anonymous (t : Ty) : t.anonymous.key = t.key := by
  induction t using parts_induction with
  | step t ih =>
    have hm : Mirrors SameKey t t.anonymous := by
      refine (mirrors_anonymous t).imp fun s hs s' _ hs' => ?_
      show s.key = s'.key
      rw [hs', ih s hs]
    exact (hm.key_eq fun _ _ hk => hk).symm

/-- Types with the same outline whose parts are equal but for what keys leave out are so, too. -/
theorem anonymous_eq_of_mirrors {a b : Ty}
    (hm : Mirrors (fun s t => s.anonymous = t.anonymous) a b) : a.anonymous = b.anonymous := by
  have hall {ms ns : List Ty} (h : List.Forall₂ (fun s t => s.anonymous = t.anonymous) ms ns) :
      anonymousAll ms = anonymousAll ns := by
    induction h with
    | nil => rfl
    | cons h _ ih => rw [anonymousAll, anonymousAll, h, ih]
  cases hm with
  | atom _ => rfl
  | text hv => rw [Text.decode_injective hv]
  | numeral hn => rw [Number.render_injective hn]
  | truth b => rfl
  | object tag hp =>
    rw [anonymous, anonymous]
    congr 1
    induction hp with
    | nil => rfl
    | cons h _ ih => rw [anonymousProps, anonymousProps, h.name, h.type, h.optional, h.readonly, ih]
  | tuple he hr =>
    have helems : ∀ {es fs : List (Elem Ty)},
        List.Forall₂ (Elem.Mirrors fun s t => s.anonymous = t.anonymous) es fs →
          anonymousElems es = anonymousElems fs := by
      intro es fs he
      induction he with
      | nil => rfl
      | cons h _ ih => rw [anonymousElems, anonymousElems, h.type, h.optional, ih]
    cases hr with
    | none => rw [anonymous, anonymous, helems he]
    | some hr => rw [anonymous, anonymous, helems he, hr]
  | function hp hr =>
    rw [anonymous, anonymous, hr]
    congr 1
    induction hp with
    | nil => rfl
    | @cons p q _ _ h _ ih =>
      rw [anonymousParams, anonymousParams, h.type, ← h.rest, ih]
      -- the option of a rest parameter is forgotten, so only the other parameters have to agree on it
      cases hrest : p.rest with
      | true => simp
      | false => rw [h.optional hrest]
  | union hm => rw [anonymous, anonymous, hall hm]
  | inter hm => rw [anonymous, anonymous, hall hm]
  | var name hb =>
    cases hb with
    | none => rfl
    | some h => rw [anonymous, anonymous, h]

/-- **Types whose names are words have one key exactly if they are equal but for the names of function
parameters and the option on rest parameters.** -/
theorem key_eq_iff {a b : Ty} (ha : Named a) (hb : Named b) : a.key = b.key ↔ a.anonymous = b.anonymous := by
  constructor
  · intro hk
    induction a using parts_induction generalizing b with
    | step a ih =>
      apply anonymous_eq_of_mirrors
      refine (mirrors_of_key_eq ha hb hk).imp fun s hs t ht hst => ?_
      exact ih s hs (ha.part hs) (hb.part ht) hst
  · intro h
    rw [← key_anonymous a, h, key_anonymous b]

end Ty

/-! ## Universes -/

open Ty Universe

/-- A type that a sound universe keeps under the key of another is that one, but for what keys leave out. -/
theorem Universe.Sound.intern_anonymous {h : Hierarchy} {u : Universe} {t : Ty} (hu : u.Sound h)
    (ht : Named t) : (u.intern t).1.anonymous = t.anonymous := by
  unfold Universe.intern
  cases hkept : u.table[t.key]? with
  | none => simp only [hkept]
  | some kept =>
    simp only [hkept]
    have hlookup : u.lookup? t.key = some kept := hkept
    have hkey := hu.key_eq hlookup
    have hkeeps : u.Keeps kept := by
      unfold Keeps
      rwa [hkey]
    exact (key_eq_iff (hu.named hkeeps) ht).1 hkey

namespace Session

/-- **Keys are canonical**: types whose property names, class tags and type parameters are words have one
key exactly if they are equal but for the names of function parameters and the option on rest parameters,
so a universe that such types were made in never answers another type for one of them. -/
theorem run_keys_tell (memory : Nat) (calls : List Call) (hcalls : (start memory).Proper calls)
    (a b : Ty) (ha : Named a) (hb : Named b) :
    (a.key = b.key ↔ a.anonymous = b.anonymous) ∧
      (((start memory).run calls).store.intern a).1.anonymous = a.anonymous := by
  obtain ⟨h, hu, -⟩ := run_sound (start_sound memory) hcalls
  exact ⟨key_eq_iff ha hb, hu.intern_anonymous ha⟩

/-- A function of one number. -/
def ofNumber (name : String) : Ty := .function [{ name, type := .number }] .string

theorem ofNumber_named (name : String) : Named (ofNumber name) := by
  refine .intro trivial fun s hs => .intro ?_ ?_
  · rcases (by simpa [ofNumber, parts] using hs : s = .number ∨ s = .string) with rfl | rfl <;> trivial
  · rcases (by simpa [ofNumber, parts] using hs : s = .number ∨ s = .string) with rfl | rfl <;>
      simp [parts]

/-- The name of a parameter makes no difference. -/
theorem ofNumber_keys_tell :
    (ofNumber "x").key = (ofNumber "y").key ∧
      (((start 0).run meeting).store.intern (ofNumber "x")).1.anonymous = (ofNumber "y").anonymous := by
  obtain ⟨hkey, hintern⟩ := run_keys_tell 0 meeting meeting_proper (ofNumber "x") (ofNumber "y")
    (ofNumber_named "x") (ofNumber_named "y")
  exact ⟨hkey.2 rfl, hintern⟩

end Session
end FlowTyping
