import Mathlib.Logic.Basic
import Mathlib.Data.Option.Basic

/-!
# Stateful programs that may fault

`Prog ρ σ A` is a program that reads a fixed environment `ρ`, passes a state `σ` along and either
returns an `A` with the state it leaves, or *faults*.  A fault is an execution whose meaning the
source language does not define (a null pointer dereferenced, a read past the end of a buffer); it
is the value `none`, and it is final: nothing that follows a fault is executed.

Three ways of reasoning about programs are set up here.

* `wlp m Q c s`: if `m` returns from `s`, what it returns satisfies `Q`.  It is the weakest liberal
  precondition, with one rule per program former.
* `wp m Q c s`: `m` does return from `s`, and what it returns satisfies `Q`.
* `Keeps I c m`: every execution of `m` from a state with the invariant `I` leaves a state with `I`.
  This is closed under every program former, so a program keeps `I` as soon as its primitive
  operations do.
-/

universe u

/-- A program over the environment `ρ` and the state `σ` returning an `A`, or faulting. -/
def Prog (ρ σ : Type) (A : Type u) : Type u := ρ → σ → Option (A × σ)

namespace Prog

variable {ρ σ : Type} {A B : Type}

/-- Execute a program. -/
def run (m : Prog ρ σ A) (c : ρ) (s : σ) : Option (A × σ) := m c s

instance instMonad : Monad (Prog ρ σ) where
  pure a := fun _ s => some (a, s)
  bind m k := fun c s => (m c s).bind fun r => k r.1 c r.2

/-- The program that faults. -/
def fault : Prog ρ σ A := fun _ _ => none

/-- The environment. -/
def ask : Prog ρ σ ρ := fun c s => some (c, s)

/-- The current state. -/
def get : Prog ρ σ σ := fun _ s => some (s, s)

/-- Apply a function to the state. -/
def modify (f : σ → σ) : Prog ρ σ Unit := fun _ s => some ((), f s)

/-- Execute `m` if the condition holds. -/
def when (b : Bool) (m : Prog ρ σ Unit) : Prog ρ σ Unit := if b then m else pure ()

/-- Execute `f` on the value of a pointer that may be null. -/
def whenSome (o : Option A) (f : A → Prog ρ σ Unit) : Prog ρ σ Unit :=
  match o with
  | none => pure ()
  | some a => f a

/-- Dereference a pointer that must not be null. -/
def deref (o : Option A) : Prog ρ σ A :=
  match o with
  | none => fault
  | some a => pure a

/-- Execute `f` on every entry of a list, in order. -/
def forEach (f : A → Prog ρ σ Unit) : List A → Prog ρ σ Unit
  | [] => pure ()
  | a :: l => do f a; forEach f l

/-! ## Execution -/

section Run

variable (c : ρ) (s : σ)

@[simp] theorem run_pure (a : A) : run (pure a : Prog ρ σ A) c s = some (a, s) := rfl

@[simp] theorem run_bind (m : Prog ρ σ A) (k : A → Prog ρ σ B) :
    run (m >>= k) c s = (run m c s).bind fun r => run (k r.1) c r.2 := rfl

@[simp] theorem run_fault : run (fault : Prog ρ σ A) c s = none := rfl

@[simp] theorem run_ask : run (ask : Prog ρ σ ρ) c s = some (c, s) := rfl

@[simp] theorem run_get : run (get : Prog ρ σ σ) c s = some (s, s) := rfl

@[simp] theorem run_modify (f : σ → σ) :
    run (modify f : Prog ρ σ Unit) c s = some ((), f s) := rfl

@[simp] theorem when_true (m : Prog ρ σ Unit) : when true m = m := rfl

@[simp] theorem when_false (m : Prog ρ σ Unit) : when false m = pure () := rfl

@[simp] theorem whenSome_none (f : A → Prog ρ σ Unit) : whenSome none f = pure () := rfl

@[simp] theorem whenSome_some (a : A) (f : A → Prog ρ σ Unit) : whenSome (some a) f = f a := rfl

@[simp] theorem deref_none : (deref none : Prog ρ σ A) = fault := rfl

@[simp] theorem deref_some (a : A) : (deref (some a) : Prog ρ σ A) = pure a := rfl

@[simp] theorem forEach_nil (f : A → Prog ρ σ Unit) : forEach f [] = pure () := rfl

@[simp] theorem forEach_cons (f : A → Prog ρ σ Unit) (a : A) (l : List A) :
    forEach f (a :: l) = (do f a; forEach f l) := rfl

end Run

/-! ## Weakest liberal preconditions -/

/-- If `m` returns from `s`, what it returns satisfies `Q`. -/
def wlp (m : Prog ρ σ A) (Q : A → σ → Prop) (c : ρ) (s : σ) : Prop :=
  ∀ a s', run m c s = some (a, s') → Q a s'

section Wlp

variable {c : ρ} {s : σ} {m : Prog ρ σ A} {Q Q' : A → σ → Prop}

theorem wlp.mono (h : wlp m Q c s) (hQ : ∀ a s', Q a s' → Q' a s') : wlp m Q' c s :=
  fun a s' hm => hQ a s' (h a s' hm)

theorem wlp.and (h : wlp m Q c s) (h' : wlp m Q' c s) : wlp m (fun a s' => Q a s' ∧ Q' a s') c s :=
  fun a s' hm => ⟨h a s' hm, h' a s' hm⟩

@[simp] theorem wlp_pure {a : A} : wlp (pure a) Q c s ↔ Q a s := by
  simp [wlp]

@[simp] theorem wlp_bind {k : A → Prog ρ σ B} {Q : B → σ → Prop} :
    wlp (m >>= k) Q c s ↔ wlp m (fun a s' => wlp (k a) Q c s') c s := by
  constructor
  · intro h a s₁ hm b s₂ hk
    exact h b s₂ (by simp [hm, hk])
  · intro h b s₂ hb
    obtain ⟨⟨a, s₁⟩, hm, hk⟩ := Option.bind_eq_some_iff.mp hb
    exact h a s₁ hm b s₂ hk

theorem wlp.pure {a : A} (h : Q a s) : wlp (Pure.pure a) Q c s := wlp_pure.mpr h

theorem wlp.bind {k : A → Prog ρ σ B} {Q : B → σ → Prop}
    (h : wlp m (fun a s' => wlp (k a) Q c s') c s) :
    wlp (m >>= k) Q c s := wlp_bind.mpr h

@[simp] theorem wlp_fault : wlp (fault : Prog ρ σ A) Q c s := by
  simp [wlp]

@[simp] theorem wlp_ask {Q : ρ → σ → Prop} : wlp ask Q c s ↔ Q c s := by
  simp [wlp]

@[simp] theorem wlp_get {Q : σ → σ → Prop} : wlp get Q c s ↔ Q s s := by
  simp [wlp]

@[simp] theorem wlp_modify {f : σ → σ} {Q : Unit → σ → Prop} :
    wlp (modify f) Q c s ↔ Q () (f s) := by
  constructor
  · exact fun h => h () (f s) rfl
  · rintro h a s' hm
    cases hm
    exact h

@[simp] theorem wlp_when {b : Bool} {m : Prog ρ σ Unit} {Q : Unit → σ → Prop} :
    wlp (when b m) Q c s ↔ (b = true → wlp m Q c s) ∧ (b = false → Q () s) := by
  cases b <;> simp

@[simp] theorem wlp_whenSome {o : Option A} {f : A → Prog ρ σ Unit} {Q : Unit → σ → Prop} :
    wlp (whenSome o f) Q c s ↔ (o = none → Q () s) ∧ ∀ a, o = some a → wlp (f a) Q c s := by
  cases o <;> simp

@[simp] theorem wlp_deref {o : Option A} : wlp (deref o) Q c s ↔ ∀ a, o = some a → Q a s := by
  cases o <;> simp

/-- A pointer that is null when something failed. -/
@[simp] theorem wlp_deref_ite {b : Bool} {a : A} :
    wlp (deref (if b then some a else none)) Q c s ↔ (b = true → Q a s) := by
  cases b <;> simp

/-- The loop rule: an invariant that every pass keeps holds after the loop. -/
theorem wlp_forEach {f : A → Prog ρ σ Unit} {I : σ → Prop} {l : List A}
    (hstep : ∀ a ∈ l, ∀ s, I s → wlp (f a) (fun _ => I) c s) (hs : I s) :
    wlp (forEach f l) (fun _ => I) c s := by
  induction l generalizing s with
  | nil => simpa using hs
  | cons a l ih =>
    rw [forEach_cons, wlp_bind]
    refine (hstep a (by simp) s hs).mono fun _ s' hs' => ?_
    exact ih (fun b hb => hstep b (by simp [hb])) hs'

/-- A loop seen from one of its entries: the passes of the others keep to `R`, so that the loop is
the one pass of the entry between two states that `R` relates to the ends. -/
theorem wlp_forEach_split {f : A → Prog ρ σ Unit} {R : σ → σ → Prop} {l : List A} {a : A}
    (hrefl : ∀ s, R s s) (htrans : ∀ s s' s'', R s s' → R s' s'' → R s s'') (hnodup : l.Nodup)
    (hother : ∀ b ∈ l, b ≠ a → ∀ s, wlp (f b) (fun _ s' => R s s') c s) :
    wlp (forEach f l) (fun _ s' => (a ∉ l → R s s') ∧
      (a ∈ l → ∃ s₁ s₂, R s s₁ ∧ run (f a) c s₁ = some ((), s₂) ∧ R s₂ s')) c s := by
  induction l generalizing s with
  | nil => simpa using hrefl s
  | cons b l ih =>
    obtain ⟨hb, hl⟩ := List.nodup_cons.mp hnodup
    rw [forEach_cons, wlp_bind]
    intro u s₁ hrun s' v hloop
    obtain ⟨hout, hin⟩ := ih hl (fun b' hb' => hother b' (List.mem_cons_of_mem _ hb')) s' v hloop
    by_cases hab : b = a
    · subst hab
      exact ⟨fun h => absurd List.mem_cons_self h, fun _ => ⟨s, s₁, hrefl s, hrun, hout hb⟩⟩
    · have hR : R s s₁ := hother b List.mem_cons_self hab s u s₁ hrun
      refine ⟨fun h => htrans _ _ _ hR (hout fun hmem => h (List.mem_cons_of_mem _ hmem)),
        fun h => ?_⟩
      obtain ⟨t₁, t₂, h₁, hpass, h₂⟩ := hin ((List.mem_cons.mp h).resolve_left (Ne.symm hab))
      exact ⟨t₁, t₂, htrans _ _ _ hR h₁, hpass, h₂⟩

end Wlp

/-! ## Executions that return -/

/-- `m` returns from `s`, and what it returns satisfies `Q`. -/
def wp (m : Prog ρ σ A) (Q : A → σ → Prop) (c : ρ) (s : σ) : Prop :=
  ∃ a s', run m c s = some (a, s') ∧ Q a s'

/-- The rules for `wlp` that are equivalences are rules for `wp`. -/
theorem wp_iff_not_wlp {m : Prog ρ σ A} {Q : A → σ → Prop} {c : ρ} {s : σ} :
    wp m Q c s ↔ ¬ wlp m (fun a s' => ¬ Q a s') c s := by
  constructor
  · rintro ⟨a, s', hrun, hQ⟩ h
    exact h a s' hrun hQ
  · intro h
    by_contra hne
    exact h fun a s' hrun hQ => hne ⟨a, s', hrun, hQ⟩

section Wp

variable {c : ρ} {s : σ} {m : Prog ρ σ A} {Q Q' : A → σ → Prop}

/-- What every execution satisfies is satisfied by the one that returns. -/
theorem wp.and_wlp (h : wp m Q c s) (h' : wlp m Q' c s) :
    wp m (fun a s' => Q a s' ∧ Q' a s') c s := by
  obtain ⟨a, s', hrun, hQ⟩ := h
  exact ⟨a, s', hrun, hQ, h' a s' hrun⟩

theorem wp.mono (h : wp m Q c s) (hQ : ∀ a s', Q a s' → Q' a s') : wp m Q' c s := by
  obtain ⟨a, s', hrun, hQ'⟩ := h
  exact ⟨a, s', hrun, hQ a s' hQ'⟩

theorem wp_pure {a : A} : wp (pure a) Q c s ↔ Q a s := by
  rw [wp_iff_not_wlp, wlp_pure, not_not]

theorem wp_bind {k : A → Prog ρ σ B} {Q : B → σ → Prop} :
    wp (m >>= k) Q c s ↔ wp m (fun a s' => wp (k a) Q c s') c s := by
  simp only [wp_iff_not_wlp, wlp_bind, not_not]

end Wp

/-! ## Programs that keep an invariant -/

/-- Every execution of `m` from a state with `I` leaves a state with `I`. -/
def Keeps (I : σ → Prop) (c : ρ) (m : Prog ρ σ A) : Prop :=
  ∀ s, I s → wlp m (fun _ => I) c s

namespace Keeps

variable {I : σ → Prop} {c : ρ} {m : Prog ρ σ A}

theorem fault : Keeps I c (fault : Prog ρ σ A) := fun _ _ => wlp_fault

theorem pure (a : A) : Keeps I c (pure a : Prog ρ σ A) := fun _ hs => wlp_pure.mpr hs

theorem ask : Keeps I c (ask : Prog ρ σ ρ) := fun _ hs => wlp_ask.mpr hs

theorem get : Keeps I c (get : Prog ρ σ σ) := fun _ hs => wlp_get.mpr hs

theorem deref (o : Option A) : Keeps I c (deref o : Prog ρ σ A) := by
  cases o with
  | none => exact fault
  | some a => exact pure a

theorem when {b : Bool} {m : Prog ρ σ Unit} (h : b = true → Keeps I c m) :
    Keeps I c (when b m) := by
  cases b with
  | false => exact pure ()
  | true => exact h rfl

theorem whenSome {o : Option A} {f : A → Prog ρ σ Unit}
    (h : ∀ a, o = some a → Keeps I c (f a)) : Keeps I c (whenSome o f) := by
  cases o with
  | none => exact pure ()
  | some a => exact h a rfl

theorem bind {k : A → Prog ρ σ B} (hm : Keeps I c m) (hk : ∀ a, Keeps I c (k a)) :
    Keeps I c (m >>= k) := by
  intro s hs
  rw [wlp_bind]
  exact (hm s hs).mono fun a s₁ h₁ => hk a s₁ h₁

/-- The rest of a program may use what is known of the result so far. -/
theorem bind_of {k : A → Prog ρ σ B} {P : A → Prop}
    (hm : ∀ s, I s → wlp m (fun a s' => I s' ∧ P a) c s) (hk : ∀ a, P a → Keeps I c (k a)) :
    Keeps I c (m >>= k) := by
  intro s hs
  rw [wlp_bind]
  exact (hm s hs).mono fun a s₁ h₁ => hk a h₁.2 s₁ h₁.1

theorem deref_bind {o : Option A} {k : A → Prog ρ σ B} (hk : ∀ a, o = some a → Keeps I c (k a)) :
    Keeps I c (Prog.deref o >>= k) :=
  bind_of (fun _ hs => wlp_deref.mpr fun _ ha => ⟨hs, ha⟩) hk

theorem forEach {f : A → Prog ρ σ Unit} {l : List A} (h : ∀ a ∈ l, Keeps I c (f a)) :
    Keeps I c (forEach f l) :=
  fun _ hs => wlp_forEach h hs

end Keeps

end Prog
