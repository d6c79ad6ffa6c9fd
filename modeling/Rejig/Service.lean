import Rejig.Ascii
import Rejig.Lib.Transition

/-!
# The running server

`service c` is the transition system of a server with the settings `c` and any number of
connections. A connection is idle, or it has sent the line of a command with a body and the server
waits for the body.  One step is the work that the server does without letting another connection
in: the handler of a line, or `asc_complete_nread` for a body.  Between such steps time passes, the
memory situation changes (`memory` fixes the next answers of the allocator) and connections hang up.

A handler whose execution is not defined has no step: a run ends where the behaviour of the source
is no longer determined.
-/

namespace Rejig

open Option Function Bool

variable {c : Settings} {w w' : World} {h h' : History} {is : List Input}

/-- A server and its connections. -/
structure World where
  server : Server
  /-- The requests that wait for their bodies, with the line they came from. -/
  conns : Nat → Option (Request × Pending)

/-- What happens in one step. -/
inductive Event where
  /-- A request line is handled. -/
  | line (conn : Nat) (req : Request) (outcome : Outcome)
  /-- The body of a request arrives and the request is completed. -/
  | body (conn : Nat) (req : Request) (p : Pending) (body : Bytes) (reply : Reply)
  /-- Time passes. -/
  | tick (seconds : Nat)
  /-- The answers of the allocator change. -/
  | memory (heap : List HeapAnswer)
  /-- A connection is closed; an item that waits for its body is dropped. -/
  | hangup (conn : Nat)
deriving DecidableEq, Repr

namespace Outcome

/-- What a connection waits for after a line. -/
def waiting (req : Request) : Outcome → Option (Request × Pending)
  | reply _ => none
  | nread p => some (req, p)

end Outcome

namespace World

/-- A server that has just started. -/
def start : World := ⟨.start, fun _ => none⟩

/-- The steps of a server. -/
inductive Step (c : Settings) : World → Event → World → Prop
  | line {w : World} {conn : Nat} {req : Request} {outcome : Outcome} {s : Server} :
      w.conns conn = none → Prog.run (ascDispatch req) c w.server = some (outcome, s) →
      Step c w (.line conn req outcome) ⟨s, update w.conns conn (outcome.waiting req)⟩
  | body {w : World} {conn : Nat} {req : Request} {p : Pending} {body : Bytes} {reply : Reply}
      {s : Server} :
      w.conns conn = some (req, p) → body.length = p.vlen + 2 →
      Prog.run (ascCompleteNread p body) c w.server = some (reply, s) →
      Step c w (.body conn req p body reply) ⟨s, update w.conns conn none⟩
  | tick {w : World} (seconds : Nat) :
      Step c w (.tick seconds) { w with server.now := w.server.now + seconds }
  | memory {w : World} (heap : List HeapAnswer) :
      Step c w (.memory heap) { w with server.heap := heap }
  | hangup {w : World} (conn : Nat) :
      Step c w (.hangup conn) { w with conns := update w.conns conn none }

end World

/-- The transition system of a server. -/
def service (c : Settings) : System World Event where
  Init w := w = .start
  Step := World.Step c

/-! ## Executing a schedule -/

/-- What clients and the environment choose in one step; the server determines the rest. -/
inductive Input where
  | line (conn : Nat) (req : Request)
  | body (conn : Nat) (body : Bytes)
  | tick (seconds : Nat)
  | memory (heap : List HeapAnswer)
  | hangup (conn : Nat)
deriving DecidableEq

/-- Execute one step, if it is possible and its execution is defined. -/
def World.next (c : Settings) (w : World) : Input → Option (Event × World)
  | .line conn req =>
    match w.conns conn with
    | some _ => none
    | none => (Prog.run (ascDispatch req) c w.server).map fun (outcome, s) =>
        (.line conn req outcome, ⟨s, update w.conns conn (outcome.waiting req)⟩)
  | .body conn body =>
    match w.conns conn with
    | none => none
    | some (req, p) =>
      if body.length = p.vlen + 2 then
        (Prog.run (ascCompleteNread p body) c w.server).map fun (reply, s) =>
          (.body conn req p body reply, ⟨s, update w.conns conn none⟩)
      else none
  | .tick seconds => some (.tick seconds, { w with server.now := w.server.now + seconds })
  | .memory heap => some (.memory heap, { w with server.heap := heap })
  | .hangup conn => some (.hangup conn, { w with conns := update w.conns conn none })

theorem World.step_of_next {i : Input} {e : Event} (h : w.next c i = some (e, w')) :
    World.Step c w e w' := by
  cases i with
  | line conn req =>
    cases hw : w.conns conn with
    | some _ => simp [next, hw] at h
    | none =>
      simp only [next, hw, map_eq_some_iff, Prod.mk.injEq] at h
      obtain ⟨⟨outcome, s⟩, hrun, rfl, rfl⟩ := h
      exact .line hw hrun
  | body conn body =>
    cases hw : w.conns conn with
    | none => simp [next, hw] at h
    | some rp =>
      obtain ⟨req, p⟩ := rp
      simp only [next, hw, ite_none_right_eq_some, map_eq_some_iff, Prod.mk.injEq] at h
      obtain ⟨hlen, ⟨reply, s⟩, hrun, rfl, rfl⟩ := h
      exact .body hw hlen hrun
  | tick seconds =>
    obtain ⟨rfl, rfl⟩ := Prod.mk.inj (some.inj h)
    exact .tick seconds
  | memory heap =>
    obtain ⟨rfl, rfl⟩ := Prod.mk.inj (some.inj h)
    exact .memory heap
  | hangup conn =>
    obtain ⟨rfl, rfl⟩ := Prod.mk.inj (some.inj h)
    exact .hangup conn

/-- One step of a run of the server. -/
abbrev Moment := Transition World Event

/-- The steps of a run, the newest first. -/
abbrev History := List Moment

/-- A run whose steps all have a property. -/
structure RunOf (c : Settings) (P : Moment → Prop) (h : History) (w : World) : Prop where
  run : (service c).Run h w
  steps : ∀ m ∈ h, P m

/-- Execute a schedule after a history. -/
def play (c : Settings) : List Input → History × World → Option (History × World)
  | [], r => some r
  | i :: is, (h, w) => (w.next c i).bind fun (e, w') => play c is (⟨w, e, w'⟩ :: h, w')

/-- What a schedule leads to is the end of a run. -/
theorem run_of_play (hr : (service c).Run h w) (hp : play c is (h, w) = some (h', w')) :
    (service c).Run h' w' := by
  induction is generalizing h w with
  | nil =>
    cases hp
    exact hr
  | cons i is ih =>
    obtain ⟨⟨e, w₁⟩, hnext, hplay⟩ := bind_eq_some_iff.mp hp
    exact ih (.step hr (World.step_of_next hnext)) hplay

/-- What came before a schedule is kept. -/
theorem play_append {h₀ : History} (hp : play c is (h₀, w) = some (h', w')) :
    play c is (h₀ ++ h, w) = some (h' ++ h, w') := by
  induction is generalizing h₀ w with
  | nil =>
    cases hp
    rfl
  | cons i is ih =>
    obtain ⟨⟨e, w₁⟩, hnext, hplay⟩ := bind_eq_some_iff.mp hp
    exact bind_eq_some_iff.mpr ⟨(e, w₁), hnext, ih hplay⟩

/-- A schedule can be executed, and what it leads to passes a test. -/
theorem exists_play (c : Settings) (is : List Input) (w : World) (P : History → World → Bool)
    (h : ((play c is ([], w)).any fun r => P r.1 r.2) = true) :
    ∃ h' w', play c is ([], w) = some (h', w') ∧ P h' w' = true := by
  cases hp : play c is ([], w) with
  | none =>
    rw [hp] at h
    cases h
  | some r =>
    rw [hp] at h
    exact ⟨r.1, r.2, rfl, h⟩

/-! ## Closed runs -/

/-- The runs `R` are those of schedules whose steps pass a test. -/
def Playable (c : Settings) (R : History → World → Prop) (test : Moment → Bool) : Prop :=
  ∀ is h w, play c is ([], .start) = some (h, w) → h.all test = true → R h w

theorem playable_run (c : Settings) : Playable c (service c).Run fun _ => true :=
  fun _ _ _ hplay _ => run_of_play (.init rfl) hplay

instance instDecidableExistsSome {α : Type} {P : α → Prop} [DecidablePred P] (o : Option α) :
    Decidable (∃ a, o = some a ∧ P a) :=
  decidable_of_iff (o.any fun a => decide (P a)) (by simp [any_eq_true])

namespace Playable

variable {R : History → World → Prop} {test : Moment → Bool}

variable (hR : Playable c R test)

include hR

/-- A schedule that can be executed leads to a run with what can be decided of its end. -/
theorem exists_run {P : History → World → Prop} [∀ h w, Decidable (P h w)] (is : List Input)
    (h : ((play c is ([], .start)).any fun r => r.1.all test && decide (P r.1 r.2)) = true) :
    ∃ h w, R h w ∧ P h w := by
  obtain ⟨⟨h, w⟩, hplay, htest⟩ := (any_eq_true _ _).mp h
  obtain ⟨hall, htest⟩ := and_eq_true_iff.mp htest
  exact ⟨h, w, hR is h w hplay hall, of_decide_eq_true htest⟩

/-- The same with the last step of the run. -/
theorem exists_run₁ {P : History → Moment → World → Prop} [∀ h m w, Decidable (P h m w)]
    (is : List Input) (h : ((play c is ([], .start)).any fun r : History × World =>
      r.1.all test && decide (∃ m h, r.1 = m :: h ∧ P h m r.2)) = true) :
    ∃ h m w, R (m :: h) w ∧ P h m w := by
  obtain ⟨_, w, hr, m, h, rfl, hP⟩ :=
    hR.exists_run (P := fun l w => ∃ m h, l = m :: h ∧ P h m w) is h
  exact ⟨h, m, w, hr, hP⟩

/-- The same with the last two steps, the older one first. -/
theorem exists_run₂ {P : History → Moment → Moment → World → Prop}
    [∀ h m m' w, Decidable (P h m m' w)] (is : List Input)
    (h : ((play c is ([], .start)).any fun r : History × World => r.1.all test &&
      decide (∃ m' l, r.1 = m' :: l ∧ ∃ m h, l = m :: h ∧ P h m m' r.2)) = true) :
    ∃ h m m' w, R (m' :: m :: h) w ∧ P h m m' w := by
  obtain ⟨_, m', w, hr, m, h, rfl, hP⟩ :=
    hR.exists_run₁ (P := fun l m' w => ∃ m h, l = m :: h ∧ P h m m' w) is h
  exact ⟨h, m, m', w, hr, hP⟩

/-- The same with the last three steps. -/
theorem exists_run₃ {P : History → Moment → Moment → Moment → World → Prop}
    [∀ h m₁ m₂ m₃ w, Decidable (P h m₁ m₂ m₃ w)] (is : List Input)
    (h : ((play c is ([], .start)).any fun r : History × World => r.1.all test &&
      decide (∃ m₃ l, r.1 = m₃ :: l ∧
      ∃ m₂ l', l = m₂ :: l' ∧ ∃ m₁ h, l' = m₁ :: h ∧ P h m₁ m₂ m₃ r.2)) = true) :
    ∃ h m₁ m₂ m₃ w, R (m₃ :: m₂ :: m₁ :: h) w ∧ P h m₁ m₂ m₃ w := by
  obtain ⟨_, m₂, m₃, w, hr, m₁, h, rfl, hP⟩ :=
    hR.exists_run₂ (P := fun l m₂ m₃ w => ∃ m₁ h, l = m₁ :: h ∧ P h m₁ m₂ m₃ w) is h
  exact ⟨h, m₁, m₂, m₃, w, hr, hP⟩

end Playable

end Rejig
