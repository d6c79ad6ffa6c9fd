import Mathlib.Data.List.Basic

/-!
# Labelled transition systems

A system is a set of initial states and a labelled step relation.  A run keeps its whole history:
the list of the transitions taken, the newest one first, each with the state before and the state
after it.  Properties of histories (something was granted, and since then nothing voided it) are
then statements about that list, and `System.Run.invariant` is the one induction they all use.

`Simulation` is forward simulation with stuttering: a step of the concrete system is answered by
the abstract one with a step, or with none where the label is not observed.
-/

/-- A labelled transition system. -/
structure System (S L : Type) where
  /-- The states a run may start in. -/
  Init : S → Prop
  /-- The steps. -/
  Step : S → L → S → Prop

/-- One step of a run, with the states around it. -/
structure Transition (S L : Type) where
  /-- The state before the step. -/
  pre : S
  /-- What the step did. -/
  label : L
  /-- The state after the step. -/
  post : S

namespace System

variable {S L T M : Type}

/-- The runs of a system: the transitions taken, newest first, and the state reached. -/
inductive Run (A : System S L) : List (Transition S L) → S → Prop
  | init {s : S} : A.Init s → Run A [] s
  | step {h : List (Transition S L)} {s s' : S} {l : L} :
      Run A h s → A.Step s l s' → Run A (⟨s, l, s'⟩ :: h) s'

/-- A state some run reaches. -/
def Reachable (A : System S L) (s : S) : Prop := ∃ h, A.Run h s

namespace Run

variable {A : System S L} {h : List (Transition S L)} {s : S}

/-- The invariant rule: what holds at the start and is kept by every step holds along every run.
The invariant may speak about the history. -/
theorem invariant {I : List (Transition S L) → S → Prop} (h₀ : ∀ s, A.Init s → I [] s)
    (hstep : ∀ h s l s', A.Run h s → I h s → A.Step s l s' → I (⟨s, l, s'⟩ :: h) s')
    (hr : A.Run h s) : I h s := by
  induction hr with
  | init hs => exact h₀ _ hs
  | step hr hs ih => exact hstep _ _ _ _ hr ih hs

/-- Every suffix of a history is the history of the state its next transition starts in. -/
theorem of_suffix {t : Transition S L} {newer older : List (Transition S L)}
    (hr : A.Run (newer ++ t :: older) s) : A.Run older t.pre ∧ A.Step t.pre t.label t.post := by
  induction newer generalizing s with
  | nil =>
    cases hr with
    | step hr hs => exact ⟨hr, hs⟩
  | cons t' newer ih =>
    cases hr with
    | step hr _ => exact ih hr

/-- What holds after a step and after all steps since then holds before each of these, and now. -/
theorem since {Q : S → Prop} {t : Transition S L} {newer older : List (Transition S L)}
    (hr : A.Run (newer ++ t :: older) s) (ht : Q t.post) (hstay : ∀ t' ∈ newer, Q t'.post) :
    Q s ∧ ∀ t' ∈ newer, Q t'.pre := by
  induction newer generalizing s with
  | nil =>
    cases hr with
    | step _ _ => exact ⟨ht, by simp⟩
  | cons t' newer ih =>
    cases hr with
    | step hr _ =>
      obtain ⟨hpost, hnewer⟩ := List.forall_mem_cons.mp hstay
      obtain ⟨hpre, hall⟩ := ih hr hnewer
      exact ⟨hpost, List.forall_mem_cons.mpr ⟨hpre, hall⟩⟩

end Run

/-- The system with only those transitions that have a property. -/
def restrict (A : System S L) (P : Transition S L → Prop) : System S L where
  Init := A.Init
  Step s l s' := A.Step s l s' ∧ P ⟨s, l, s'⟩

/-- The runs of a restricted system are the runs whose transitions all have the property. -/
theorem run_restrict_iff {A : System S L} {P : Transition S L → Prop}
    {h : List (Transition S L)} {s : S} :
    (A.restrict P).Run h s ↔ A.Run h s ∧ ∀ t ∈ h, P t := by
  constructor
  · intro hr
    induction hr with
    | init hs => exact ⟨.init hs, by simp⟩
    | step _ hs ih => exact ⟨.step ih.1 hs.1, List.forall_mem_cons.mpr ⟨hs.2, ih.2⟩⟩
  · rintro ⟨hr, hP⟩
    induction hr with
    | init hs => exact .init hs
    | step _ hs ih =>
      obtain ⟨ht, hP⟩ := List.forall_mem_cons.mp hP
      exact .step (ih hP) ⟨hs, ht⟩

/-- The system of a step function. -/
def ofNext (init : S) (next : S → L → Option S) : System S L where
  Init s := s = init
  Step s l s' := next s l = some s'

instance instDecidableExistsCons {A : Type*} {P : A → List A → Prop} [∀ a l, Decidable (P a l)]
    (l : List A) :
    Decidable (∃ a l', l = a :: l' ∧ P a l') :=
  decidable_of_iff (l.head?.any fun a => decide (P a l.tail)) (by
    cases l with
    | nil => simp
    | cons a l => exact (decide_eq_true_iff (p := P a l)).trans (by simp))

/-- Take the steps of a step function one after the other, after a history. -/
def follow (next : S → L → Option S) : List L → List (Transition S L) × S →
      Option (List (Transition S L) × S)
  | [], r => some r
  | l :: ls, (h, s) => (next s l).bind fun s' => follow next ls (⟨s, l, s'⟩ :: h, s')

theorem run_of_follow {init : S} {next : S → L → Option S} {ls : List L}
    {h h' : List (Transition S L)} {s s' : S} (hr : (ofNext init next).Run h s)
    (hf : follow next ls (h, s) = some (h', s')) : (ofNext init next).Run h' s' := by
  induction ls generalizing h s with
  | nil =>
    cases hf
    exact hr
  | cons l ls ih =>
    obtain ⟨s₁, hnext, hf⟩ := Option.bind_eq_some_iff.mp hf
    exact ih (.step hr hnext) hf

/-- Labels can be followed from the start, and lead to a run with what can be decided of its end. -/
theorem exists_follow (init : S) (next : S → L → Option S) (ls : List L)
    {P : List (Transition S L) → S → Prop} [∀ h s, Decidable (P h s)]
    (h : ((follow next ls ([], init)).any fun r => decide (P r.1 r.2)) = true) :
    ∃ h s, (ofNext init next).Run h s ∧ P h s := by
  obtain ⟨r, hf, hP⟩ := (Option.any_eq_true _ _).mp h
  exact ⟨r.1, r.2, run_of_follow (.init rfl) hf, of_decide_eq_true hP⟩

/-- Forward simulation: `R` relates the initial states, and every step of `A` is answered by `B`
with the step that `obs` makes of its label, or by no step where `obs` hides it. -/
structure Simulation (A : System S L) (B : System T M) (obs : L → Option M)
    (R : S → T → Prop) : Prop where
  init : ∀ s, A.Init s → ∃ t, B.Init t ∧ R s t
  step : ∀ s l s' t, A.Reachable s → A.Step s l s' → R s t →
    ∃ t', R s' t' ∧ match obs l with
      | none => t' = t
      | some m => B.Step t m t'

/-- The system takes the step that is observed, or none if nothing is. -/
def Answers (B : System T M) (t : T) : Option M → T → Prop
  | none, t' => t' = t
  | some m, t' => B.Step t m t'

theorem Simulation.of_answers {A : System S L} {B : System T M} {obs : L → Option M}
    {R : S → T → Prop} (hinit : ∀ s, A.Init s → ∃ t, B.Init t ∧ R s t)
    (hstep : ∀ s l s' t, A.Reachable s → A.Step s l s' → R s t →
      ∃ t', R s' t' ∧ B.Answers t (obs l) t') :
    Simulation A B obs R where
  init := hinit
  step s l s' t hs hl hR := by
    obtain ⟨t', hR', hanswer⟩ := hstep s l s' t hs hl hR
    refine ⟨t', hR', ?_⟩
    cases hobs : obs l <;> rw [hobs] at hanswer <;> exact hanswer

/-- The observable labels of a history, newest first. -/
def observed (obs : L → Option M) (h : List (Transition S L)) : List M :=
  h.filterMap fun t => obs t.label

/-- The run of the abstract system that answers a run of the concrete one: it observes the same
labels, and its last state is related. -/
theorem Simulation.run {A : System S L} {B : System T M} {obs : L → Option M}
    {R : S → T → Prop} (sim : Simulation A B obs R) {h : List (Transition S L)} {s : S}
    (hr : A.Run h s) :
    ∃ h' t, B.Run h' t ∧ R s t ∧ h'.map Transition.label = observed obs h := by
  induction hr with
  | init hs =>
    obtain ⟨t, ht, hR⟩ := sim.init _ hs
    exact ⟨[], t, .init ht, hR, rfl⟩
  | @step h s s' l hr hs ih =>
    obtain ⟨h', t, hB, hR, hobs⟩ := ih
    obtain ⟨t', hR', hm⟩ := sim.step s l s' t ⟨h, hr⟩ hs hR
    cases hl : obs l with
    | none =>
      rw [hl] at hm
      cases hm
      exact ⟨h', t, hB, hR', by simpa [observed, hl] using hobs⟩
    | some m =>
      rw [hl] at hm
      exact ⟨⟨t, m, t'⟩ :: h', t', .step hB hm, hR', by simpa [observed, hl] using hobs⟩

/-- What the abstract system does for one step of a run of the concrete one, after a run that
answers the steps before it. -/
theorem Simulation.at_step {A : System S L} {B : System T M} {obs : L → Option M} {R : S → T → Prop}
    (sim : Simulation A B obs R) {a : Transition S L} {newer older : List (Transition S L)} {s : S}
    (hr : A.Run (newer ++ a :: older) s) :
    ∃ h' t t', B.Run h' t ∧ h'.map Transition.label = observed obs older ∧ R a.pre t ∧ R a.post t' ∧
      match obs a.label with
      | none => t' = t
      | some m => B.Step t m t' := by
  obtain ⟨hr, hs⟩ := hr.of_suffix
  obtain ⟨h', t, hB, hR, hobs⟩ := sim.run hr
  obtain ⟨t', hR', hstep⟩ := sim.step _ _ _ t ⟨older, hr⟩ hs hR
  exact ⟨h', t, t', hB, hobs, hR, hR', hstep⟩

end System
