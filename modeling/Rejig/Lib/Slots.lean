import Mathlib.Logic.Relation
import Mathlib.Data.Option.Basic

/-!
# Keyed tables and permitted changes

`Slots κ E name` is a table that holds at most one entry under each name, and every entry under its
own name: the well-formedness condition is a field, so that a lookup never has to argue that it
found the entry it asked for.

A program that works on such a table changes it slot by slot.  `Evolves P t t'` says that every
slot went from its content in `t` to its content in `t'` by changes that `P` permits.  It is a
preorder, so what a whole program may do to a table follows from what its primitive operations do,
and a property of a slot that no permitted change destroys survives the program.
-/

open Relation

/-- A table with at most one entry per name, each under its own name. -/
structure Slots (κ E : Type) (name : E → κ) where
  /-- The entry under a name. -/
  find : κ → Option E
  /-- Every entry is stored under its own name. -/
  name_eq : ∀ {k : κ} {e : E}, find k = some e → name e = k

namespace Slots

variable {κ E : Type} {name : E → κ}

@[ext] theorem ext {t t' : Slots κ E name} (h : ∀ k, t.find k = t'.find k) : t = t' := by
  cases t
  cases t'
  congr
  exact funext h

/-- The table without entries. -/
def empty : Slots κ E name where
  find _ := none
  name_eq := by simp

@[simp] theorem find_empty (k : κ) : (empty : Slots κ E name).find k = none := rfl

variable [DecidableEq κ]

/-- Remove the entry under a name. -/
def erase (t : Slots κ E name) (k : κ) : Slots κ E name where
  find k' := if k' = k then none else t.find k'
  name_eq {k' e} h := by
    split at h
    · cases h
    · exact t.name_eq h

/-- Store an entry under its name, in place of the one that was there. -/
def put (t : Slots κ E name) (e : E) : Slots κ E name where
  find k := if k = name e then some e else t.find k
  name_eq {k e'} h := by
    split at h
    · cases h
      exact Eq.symm ‹_›
    · exact t.name_eq h

theorem find_erase (t : Slots κ E name) (k k' : κ) :
    (t.erase k).find k' = if k' = k then none else t.find k' := rfl

theorem find_put (t : Slots κ E name) (e : E) (k : κ) :
    (t.put e).find k = if k = name e then some e else t.find k := rfl

@[simp] theorem find_erase_self (t : Slots κ E name) (k : κ) : (t.erase k).find k = none := by
  simp [find_erase]

@[simp] theorem find_erase_of_ne (t : Slots κ E name) {k k' : κ} (h : k' ≠ k) :
    (t.erase k).find k' = t.find k' := by
  simp [find_erase, h]

@[simp] theorem find_put_self (t : Slots κ E name) (e : E) :
    (t.put e).find (name e) = some e := by
  simp [find_put]

@[simp] theorem find_put_of_ne (t : Slots κ E name) {e : E} {k : κ} (h : k ≠ name e) :
    (t.put e).find k = t.find k := by
  simp [find_put, h]

/-- Storing an entry does not depend on what was there. -/
theorem put_erase (t : Slots κ E name) (e : E) : (t.erase (name e)).put e = t.put e := by
  ext k : 1
  by_cases h : k = name e <;> simp [h]

/-- Remove those of the listed entries that satisfy `p`. -/
def prune (p : E → Bool) (t : Slots κ E name) (ks : List κ) : Slots κ E name where
  find k := (t.find k).filter fun e => !(ks.contains k && p e)
  name_eq h := t.name_eq (Option.filter_eq_some_iff.mp h).1

theorem find_prune (p : E → Bool) (t : Slots κ E name) (ks : List κ) (k : κ) :
    (t.prune p ks).find k = (t.find k).filter fun e => !(ks.contains k && p e) := rfl

@[simp] theorem prune_nil (p : E → Bool) (t : Slots κ E name) : t.prune p [] = t := by
  ext k
  simp [find_prune]

/-- Pruning keeps an entry or removes it. -/
theorem find_prune_eq_or (p : E → Bool) (t : Slots κ E name) (ks : List κ) (k : κ) :
    (t.prune p ks).find k = t.find k ∨
      ∃ e, t.find k = some e ∧ p e = true ∧ (t.prune p ks).find k = none := by
  rw [find_prune]
  cases hk : t.find k with
  | none => exact Or.inl rfl
  | some e =>
    cases hp : ks.contains k && p e with
    | false => exact Or.inl (by simp only [Option.filter_some, hp]; rfl)
    | true =>
      refine Or.inr ⟨e, rfl, ?_, by simp only [Option.filter_some, hp]; rfl⟩
      exact (Bool.and_eq_true_iff.mp hp).2

/-! ## Permitted changes -/

omit [DecidableEq κ]

/-- Every slot went from its content in `t` to its content in `t'` by changes `P` permits. -/
def Evolves (P : κ → Option E → Option E → Prop) (t t' : Slots κ E name) : Prop :=
  ∀ k, ReflTransGen (P k) (t.find k) (t'.find k)

namespace Evolves

variable {P Q : κ → Option E → Option E → Prop} {t t' t'' : Slots κ E name}

theorem refl (t : Slots κ E name) : Evolves P t t := fun _ => .refl

theorem trans (h : Evolves P t t') (h' : Evolves P t' t'') : Evolves P t t'' :=
  fun k => (h k).trans (h' k)

theorem mono (h : Evolves P t t') (hPQ : ∀ k o o', P k o o' → Q k o o') : Evolves Q t t' :=
  fun k => ReflTransGen.mono (hPQ k) _ _ (h k)

/-- A property of a slot that no permitted change destroys survives. -/
theorem invariant {I : Option E → Prop} {k : κ} (h : Evolves P t t')
    (hI : ∀ o o', P k o o' → I o → I o') (h₀ : I (t.find k)) : I (t'.find k) := by
  have hk := h k
  generalize t'.find k = o at hk
  induction hk with
  | refl => exact h₀
  | tail _ hstep ih => exact hI _ _ hstep ih

end Evolves

end Slots
