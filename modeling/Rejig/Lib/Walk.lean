import Mathlib.Data.List.Basic

/-!
# Walks over a table

A `Walk ε A` reads entries of a table, one after the other.  It keeps the positions that it has
used, and ends with an `A` or is stopped by an `ε`.  The positions count also when the walk is
stopped: a walk that reads past the end of the table and then gives up has still read there.

`Within n` says that all positions are below `n`, `Ends P` that the walk ends with a `P` unless it
is stopped, and `Avoids n e` that it is not stopped by `e` if all positions are below `n`.  They are
closed under the formers of walks, where the continuation counts only if it is reached.
-/

/-- A computation that uses entries of a table. -/
@[ext]
structure Walk (ε A : Type) where
  /-- The positions that were used. -/
  used : List Nat
  /-- How the walk ends. -/
  result : Except ε A

namespace Walk

variable {ε A B : Type} {n : Nat}

/-- The continuation of a bind is reached at the value of its first stage. -/
instance instMonad : Monad (Walk ε) where
  pure a := ⟨[], .ok a⟩
  bind x f := match x.result with
    | .error e => ⟨x.used, .error e⟩
    | .ok a => ⟨x.used ++ (f a).used, (f a).result⟩

/-- Stop the walk. -/
def stop (e : ε) : Walk ε A := ⟨[], .error e⟩

/-- Use one entry. -/
def use (i : Nat) (result : Except ε A) : Walk ε A := ⟨[i], result⟩

/-- Go on if the condition holds. -/
def guard (b : Bool) (e : ε) : Walk ε Unit := if b then pure () else stop e

/-- Take a walk if the condition holds, and a default otherwise. -/
def optional (b : Bool) (a : A) (x : Walk ε A) : Walk ε A := if b then x else pure a

theorem optional_true {a : A} {x : Walk ε A} : optional true a x = x := rfl

theorem pure_bind_eq (a : A) (f : A → Walk ε B) : (pure a >>= f) = f a := rfl

/-! ## How walks end -/

@[simp] theorem result_pure (a : A) : (pure a : Walk ε A).result = .ok a := rfl

@[simp] theorem result_stop (e : ε) : (stop e : Walk ε A).result = .error e := rfl

@[simp] theorem result_use (i : Nat) (r : Except ε A) : (use i r).result = r := rfl

@[simp] theorem result_guard_eq_ok (b : Bool) (e : ε) (u : Unit) : (guard b e).result = .ok u ↔
      b = true := by
  cases b <;> simp [guard]

@[simp] theorem result_optional_eq_ok (b : Bool) (a a' : A) (x : Walk ε A) :
    (optional b a x).result = .ok a' ↔ b = true ∧ x.result = .ok a' ∨ b = false ∧ a = a' := by
  cases b <;> simp [optional]

theorem result_bind_of_ok {x : Walk ε A} {f : A → Walk ε B} {a : A} (h : x.result = .ok a) :
    (x >>= f).result = (f a).result := by
  show (match x.result with
    | .error e => (⟨x.used, .error e⟩ : Walk ε B)
    | .ok a => ⟨x.used ++ (f a).used, (f a).result⟩).result = _
  rw [h]

theorem result_bind_of_error {x : Walk ε A} {f : A → Walk ε B} {e : ε} (h : x.result = .error e) :
    (x >>= f).result = .error e := by
  show (match x.result with
    | .error e => (⟨x.used, .error e⟩ : Walk ε B)
    | .ok a => ⟨x.used ++ (f a).used, (f a).result⟩).result = _
  rw [h]

theorem result_bind_eq_ok_iff {x : Walk ε A} {f : A → Walk ε B} {b : B} :
    (x >>= f).result = .ok b ↔ ∃ a, x.result = .ok a ∧ (f a).result = .ok b := by
  cases h : x.result with
  | error e => simp [result_bind_of_error h]
  | ok a => simp [result_bind_of_ok h]

/-- A walk that is not stopped ends with a `P`. -/
def Ends (P : A → Prop) (x : Walk ε A) : Prop := ∀ a, x.result = .ok a → P a

theorem Ends.mono {P Q : A → Prop} {x : Walk ε A} (h : x.Ends P)
    (hPQ : ∀ a, P a → Q a) : x.Ends Q :=
  fun a ha => hPQ a (h a ha)

@[simp] theorem ends_pure {P : A → Prop} {a : A} : (pure a : Walk ε A).Ends P ↔ P a := by
  simp [Ends]

@[simp] theorem ends_stop {P : A → Prop} {e : ε} : (stop e : Walk ε A).Ends P := nofun

@[simp] theorem ends_true {x : Walk ε A} : x.Ends fun _ => True := fun _ _ => trivial

theorem ends_bind {P : B → Prop} {x : Walk ε A} {f : A → Walk ε B} :
    (x >>= f).Ends P ↔ x.Ends fun a => (f a).Ends P := by
  simp only [Ends, result_bind_eq_ok_iff]
  constructor
  · intro h a ha b hb
    exact h b ⟨a, ha, hb⟩
  · rintro h b ⟨a, ha, hb⟩
    exact h a ha b hb

/-! ## What walks use -/

theorem used_bind_of_ok {x : Walk ε A} {f : A → Walk ε B} {a : A} (h : x.result = .ok a) :
    (x >>= f).used = x.used ++ (f a).used := by
  show (match x.result with
    | .error e => (⟨x.used, .error e⟩ : Walk ε B)
    | .ok a => ⟨x.used ++ (f a).used, (f a).result⟩).used = _
  rw [h]

theorem used_bind_of_error {x : Walk ε A} {f : A → Walk ε B} {e : ε} (h : x.result = .error e) :
    (x >>= f).used = x.used := by
  show (match x.result with
    | .error e => (⟨x.used, .error e⟩ : Walk ε B)
    | .ok a => ⟨x.used ++ (f a).used, (f a).result⟩).used = _
  rw [h]

/-- All positions that are used are below `n`. -/
def Within (n : Nat) (x : Walk ε A) : Prop := ∀ i ∈ x.used, i < n

theorem Within.mono {m : Nat} {x : Walk ε A} (h : x.Within n) (hle : n ≤ m) : x.Within m :=
  fun i hi => Nat.lt_of_lt_of_le (h i hi) hle

@[simp] theorem within_pure (a : A) : (pure a : Walk ε A).Within n := List.forall_mem_nil _

@[simp] theorem within_stop (e : ε) : (stop e : Walk ε A).Within n := List.forall_mem_nil _

@[simp] theorem within_use (i : Nat) (r : Except ε A) : (use i r).Within n ↔ i < n :=
  List.forall_mem_singleton

@[simp] theorem within_guard (b : Bool) (e : ε) : (guard b e).Within n := by
  cases b
  · exact within_stop e
  · exact within_pure ()

@[simp] theorem within_optional (b : Bool) (a : A) (x : Walk ε A) :
    (optional b a x).Within n ↔ (b = true → x.Within n) := by
  cases b <;> simp [optional]

theorem within_bind {x : Walk ε A} {f : A → Walk ε B} :
    (x >>= f).Within n ↔ x.Within n ∧ ∀ a, x.result = .ok a → (f a).Within n := by
  cases h : x.result with
  | error e =>
    rw [Within, used_bind_of_error h]
    exact ⟨fun hx => ⟨hx, nofun⟩, And.left⟩
  | ok a =>
    rw [Within, used_bind_of_ok h, List.forall_mem_append]
    constructor
    · rintro ⟨hx, hf⟩
      refine ⟨hx, ?_⟩
      rintro _ ⟨⟩
      exact hf
    · rintro ⟨hx, hf⟩
      exact ⟨hx, hf a rfl⟩

theorem within_guard_bind {b : Bool} {e : ε} {f : Unit → Walk ε A} :
    (guard b e >>= f).Within n ↔ (b = true → (f ()).Within n) := by
  cases b
  · exact iff_of_true (within_bind.mpr ⟨within_stop e, nofun⟩) nofun
  · rw [show guard true e = pure () from rfl, pure_bind_eq]
    exact ⟨fun h _ => h, fun h => h rfl⟩

/-- What is done with the value of a walk does not count. -/
theorem within_bind_pure {x : Walk ε A} {g : A → B} : (x >>= fun a => pure (g a)).Within n ↔
      x.Within n := by
  simp only [within_bind, within_pure, implies_true, and_true]

/-! ## What stops walks -/

/-- A walk that stays below `n` is not stopped by `e`. -/
def Avoids (n : Nat) (e : ε) (x : Walk ε A) : Prop := x.Within n → x.result ≠ .error e

section

variable {e e' : ε}

@[simp] theorem avoids_pure (a : A) : (pure a : Walk ε A).Avoids n e := fun _ => nofun

theorem avoids_stop (h : e' ≠ e) : (stop e' : Walk ε A).Avoids n e := fun _ heq =>
      h (Except.error.inj heq)

theorem avoids_guard (b : Bool) (h : e' ≠ e) : (guard b e').Avoids n e := by
  cases b
  · exact avoids_stop h
  · exact avoids_pure ()

theorem avoids_optional (b : Bool) (a : A) {x : Walk ε A} (h : x.Avoids n e) :
    (optional b a x).Avoids n e := by
  cases b
  · exact avoids_pure a
  · exact h

theorem avoids_bind_iff {x : Walk ε A} {f : A → Walk ε B} (hx : x.Avoids n e) :
    (x >>= f).Avoids n e ↔ (x.Within n → ∀ a, x.result = .ok a → (f a).Avoids n e) := by
  simp only [Avoids, within_bind]
  cases h : x.result with
  | error e' =>
    rw [result_bind_of_error h]
    refine iff_of_true ?_ (fun _ _ ha => nomatch ha)
    rintro ⟨hwithin, -⟩ heq
    exact hx hwithin (by rw [h, Except.error.inj heq])
  | ok a => simp [result_bind_of_ok h]

theorem avoids_bind {x : Walk ε A} {f : A → Walk ε B} (hx : x.Avoids n e)
    (hf : ∀ a, (f a).Avoids n e) :
    (x >>= f).Avoids n e := (avoids_bind_iff hx).mpr fun _ a _ => hf a

end

end Walk
