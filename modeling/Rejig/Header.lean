import Rejig.Service
import Rejig.Exec

/-!
# Request lines

What can be read off a request line without executing it (the configuration number it carries, the
keys and identifiers it names, the item it allocates for a body), and that the handlers act
accordingly: a line with a wrong configuration number changes nothing, and a connection waits for a
body only after a line that passed its tests.
-/

namespace Rejig

open Prog

variable {req : Request} {Q : Outcome → Server → Prop} {completion : Completion} {key : Bytes}
  {s' : Server} {vlen : Nat}

namespace Request

/-- The configuration number that a request carries. -/
def config : Request → Option Int
  | get _ cfg _ | update _ cfg .. | arithmetic _ cfg .. | delete cfg .. | unlease cfg ..
  | qareg cfg .. | dar cfg .. | qaread cfg .. | sar cfg .. | swap cfg .. | iqDelta _ cfg ..
  | iqConcat _ cfg .. | commit cfg .. | iqget cfg .. | iset cfg .. | oqDelta _ cfg .. => some cfg
  | _ => none

/-- The request passes the test of its configuration number, if it carries one. -/
def Accepted (req : Request) (server : Int) : Prop :=
  ∀ cfg, req.config = some cfg → cfg = -1 ∨ cfg = server

/-- The keys that a request names. -/
def keys : Request → List Bytes
  | get _ _ keys | delete _ _ keys => keys
  | update _ _ _ key .. | arithmetic _ _ key _ | unlease _ key _ | qareg _ key _
  | qaread _ key .. | sar _ key .. | swap _ _ key .. | iqDelta _ _ key .. | iqConcat _ _ key ..
  | iqget _ key _ | iset _ key .. | ciget _ key _ | oqread _ key | oqswap _ key
      .. | oqwrite _ key ..
  | oqDelta _ _ _ key _ | oqConcat _ _ key _ | oqreg _ key => [key]
  | _ => []

/-- The transactions and sessions that a request names, as the server takes them: a command with a
body keeps its identifier with one byte for the length. -/
def ids : Request → List Bytes
  | qareg _ _ tid | dar _ tid | qaread _ _ _ _ tid | iqDelta _ _ _ _ tid | commit _ _ tid _
  | release tid | iset _ _ _ tid => [tid]
  | ciget sid .. | oqread sid _ | oqDelta _ _ sid .. | oqreg sid _ | dcommit sid | coUnlease sid
  | validate sid => [sid]
  | iqConcat _ _ _ _ id | oqswap id .. | oqwrite id .. | oqConcat _ id .. => [u8Name id]
  | _ => []

/-- The names under which a request may file the record of its transaction or session: the
identifier, as far as it fits its length byte.  For an increment it is the text of the amount. -/
def records : Request → List Bytes
  | qareg _ _ tid | qaread _ _ _ _ tid | iqConcat _ _ _ _ tid => [u8Name tid]
  | iqDelta _ _ _ delta _ => [u8Name delta]
  | ciget sid .. | oqread sid _ | oqwrite sid .. | oqDelta _ _ sid .. | oqConcat _ sid ..
  | oqreg sid _ => [u8Name sid]
  | _ => []

/-- The key for which a request asks for the value, or an I lease to compute it. -/
def misses : Request → Option Bytes
  | iqget _ key _ | iset _ key .. => some key
  | _ => none

/-- The transaction that a request ends, taking it off the lists of invalidate leases. -/
def finishes : Request → Option Bytes
  | commit _ _ tid _ | dar _ tid => some tid
  | _ => none

/-- What a connection waits for after a line that is handled in the state `s`. -/
def pending (c : Settings) (s : Server) : Request → Option Pending
  | update cmd _ frag key flags exptime vlen =>
    let it := s.fresh key flags (reltime c.processStarted s.now exptime)
      (fragConfig frag s.configurationNumber)
    some ⟨.store cmd, { it with cas := if c.useCas then (Completion.store cmd).casId else 0 }, vlen⟩
  | sar _ key flags exptime vlen leaseToken =>
    some ⟨.sar leaseToken, s.fresh key flags (reltime c.processStarted s.now exptime) (-1), vlen⟩
  | swap _ frag key flags exptime vlen leaseToken =>
    some ⟨.swap leaseToken, s.fresh key flags (reltime c.processStarted s.now exptime)
      (fragConfig frag s.configurationNumber), vlen⟩
  | iqConcat append _ key vlen tid =>
    some ⟨.iqConcat append (u8Name tid), s.fresh key 0 0 (-1), vlen⟩
  | oqswap sid key flags exptime vlen =>
    some ⟨.oqswap (u8Name sid), s.fresh key flags (reltime c.processStarted s.now exptime) (-1),
      vlen⟩
  | oqwrite sid key flags exptime vlen =>
    some ⟨.oqwrite (u8Name sid), s.fresh key flags (reltime c.processStarted s.now exptime) (-1),
      vlen⟩
  | oqConcat append sid key vlen => some ⟨.oqConcat append (u8Name sid), s.fresh key 0 0 (-1), vlen⟩
  | _ => none

end Request

/-- The line of a request passed the tests of its handler and left the connection waiting. -/
structure Prepared (c : Settings) (s : Server) (req : Request) (p : Pending) : Prop where
  pending : req.pending c s = some p
  accepted : req.Accepted s.configurationNumber
  short : ∀ key ∈ req.keys, key.length ≤ keyMaxLen

/-- The answers to a line that does not pass the tests of its configuration number and its names. -/
def Reply.refusals : List Reply := [.clientError, .crash, .silent]

section Handlers

variable {c : Settings} {s : Server}

/-- The two ways in which the test of the configuration number ends. -/
theorem wlp_ascCheckConfig {cfg : Int} {handler : Int → ServerM Outcome}
    (hreply : ∀ r ∈ Reply.refusals, Q (.reply r) s)
    (h : (cfg = -1 ∨ cfg = s.configurationNumber) → wlp (handler s.configurationNumber) Q c s) :
    wlp (ascCheckConfig cfg handler) Q c s := by
  rw [ascCheckConfig, wlp_bind, wlp_get]
  dsimp only
  split
  · exact .pure (hreply _ (by simp [Reply.refusals]))
  split
  · exact .pure (hreply _ (by simp [Reply.refusals]))
  · next hcfg _ =>
    refine h ?_
    by_cases h1 : cfg = -1
    · exact .inl h1
    · exact .inr (by simpa [h1] using hcfg)

theorem wlp_ascCheckLength {max : Nat} {name : Bytes} {handler : ServerM Outcome}
    (hreply : ∀ r ∈ Reply.refusals, Q (.reply r) s) (h : name.length ≤ max → wlp handler Q c s) :
    wlp (ascCheckLength max name handler) Q c s := by
  rw [ascCheckLength]
  split
  · exact .pure (hreply _ (by simp [Reply.refusals]))
  · next hlen => exact h (Nat.le_of_not_lt hlen)

/-- A line that carries a wrong configuration number changes nothing. -/
theorem wlp_ascDispatch_of_not_accepted (h : ¬ req.Accepted s.configurationNumber) :
    wlp (ascDispatch req) (fun _ s' => s' = s) c s := by
  have hconfig : ∀ {cfg : Int} {handler : Int → ServerM Outcome}, req.config = some cfg →
      wlp (ascCheckConfig cfg handler) (fun _ s' => s' = s) c s := by
    refine fun {cfg handler} hcfg => wlp_ascCheckConfig (fun _ _ => rfl) fun hok => absurd ?_ h
    intro cfg' hcfg'
    rw [hcfg] at hcfg'
    cases hcfg'
    exact hok
  cases req with
  | update | swap | iqConcat | commit =>
    simp only [ascDispatch, ascProcessUpdate, ascProcessSwap, ascProcessIqConcat, ascProcessCommit]
    exact wlp_ascCheckLength (fun _ _ => rfl) fun _ => hconfig rfl
  | get | arithmetic | delete | unlease | qareg | dar | qaread | sar | iqDelta | iqget | iset
  | oqDelta =>
    simp only [ascDispatch, ascProcessRead, ascProcessArithmetic, ascProcessDelete,
      ascProcessUnlease, ascProcessQareg, ascProcessDar, ascProcessQaread, ascProcessSar,
      ascProcessIqDelta, ascProcessIqget, ascProcessOqDelta]
    exact hconfig rfl
  | _ => exact absurd (fun cfg hcfg => by cases hcfg) h

/-- The outcome is a reply, or a request that is prepared for its body. -/
def Outcome.Prepared (c : Settings) (s : Server) (req : Request) (out : Outcome) : Prop :=
  ∀ p, out = .nread p → Rejig.Prepared c s req p

theorem Outcome.prepared_reply (r : Reply) : (Outcome.reply r).Prepared c s req :=
  fun p h => by cases h

/-- A handler that turns the result of an operation into a reply. -/
theorem prepared_reply {A : Type} {op : ServerM A} {reply : A → ServerM Outcome}
    (hreply : ∀ a, ∃ r, reply a = pure (.reply r)) :
    wlp (op >>= reply) (fun out _ => out.Prepared c s req) c s' := by
  rw [wlp_bind]
  intro a s'' _
  obtain ⟨r, hr⟩ := hreply a
  rw [hr]
  exact .pure (Outcome.prepared_reply r)

theorem prepared_ascAllocBody {flags : Nat} {exptime configNum : Int} {dropsValue : Bool}
    (hp : Prepared c s req ⟨completion,
      { s.fresh key flags (reltime c.processStarted s.now exptime) configNum with
        cas := if c.useCas then completion.casId else 0 }, vlen⟩) :
    wlp (ascAllocBody key flags exptime vlen configNum dropsValue completion)
      (fun out _ => out.Prepared c s req) c s := by
  rw [ascAllocBody, wlp_bind, wlp_itemSlabid]
  split
  · exact .pure (Outcome.prepared_reply _)
  rw [wlp_bind, wlp_timeReltime, wlp_bind, wlp_itemAllocConfig]
  intro _
  cases s.room with
  | true =>
    rw [if_pos rfl, wlp_bind, wlp_ask, wlp_pure]
    rintro p ⟨⟩
    exact hp
  | false =>
    simp only [Bool.false_eq_true, if_false]
    exact .bind (fun _ s' _ => .pure (Outcome.prepared_reply _))

theorem prepared_ascAllocConcat (hp : Prepared c s req ⟨completion, s.fresh key 0 0 (-1), vlen⟩) :
    wlp (ascAllocConcat key vlen completion) (fun out _ => out.Prepared c s req) c s := by
  rw [ascAllocConcat, wlp_bind, wlp_itemAlloc]
  intro _
  cases s.room with
  | true =>
    rw [if_pos rfl, wlp_pure]
    rintro p ⟨⟩
    exact hp
  | false => exact .pure (Outcome.prepared_reply _)

theorem prepared_ascDeleteKeys {deleteLease : Bool} (keys : List Bytes) (res : Option StoreResult) :
    wlp (ascDeleteKeys deleteLease res keys) (fun out _ => out.Prepared c s req) c s' := by
  induction keys generalizing s' res with
  | nil =>
    refine prepared_reply fun r => ?_
    cases r <;> exact ⟨_, rfl⟩
  | cons key keys ih =>
    rw [ascDeleteKeys]
    split
    · exact .pure (Outcome.prepared_reply _)
    · exact .bind (fun r s'' _ => ih (some r))

/-- A refusal leaves nothing waiting. -/
theorem prepared_refusal : ∀ r ∈ Reply.refusals, (Outcome.reply r).Prepared c s req :=
  fun r _ => Outcome.prepared_reply r

/-! ### Lines with a body -/

section Bodies

variable {cfg frag exptime : Int} {flags : Nat} {leaseToken : UInt64} {tid sid : Bytes}
  {append : Bool}

theorem prepared_ascProcessUpdate {cmd : Update} :
    wlp (ascProcessUpdate cmd cfg frag key flags exptime vlen) (fun out _ =>
        out.Prepared c s (.update cmd cfg frag key flags exptime vlen)) c s := by
  refine wlp_ascCheckLength prepared_refusal fun hk =>
    wlp_ascCheckConfig prepared_refusal fun hcfg => ?_
  refine prepared_ascAllocBody ⟨rfl, ?_, by simpa [Request.keys] using hk⟩
  rintro _ ⟨⟩
  exact hcfg

theorem prepared_ascProcessSar : wlp (ascProcessSar cfg key flags exptime vlen leaseToken)
    (fun out _ => out.Prepared c s (.sar cfg key flags exptime vlen leaseToken)) c s := by
  refine wlp_ascCheckConfig prepared_refusal fun hcfg =>
    wlp_ascCheckLength prepared_refusal fun hk => ?_
  refine prepared_ascAllocBody ⟨by simp [Request.pending, Completion.casId, Server.fresh], ?_,
    by simpa [Request.keys] using hk⟩
  rintro _ ⟨⟩
  exact hcfg

theorem prepared_ascProcessSwap : wlp (ascProcessSwap cfg frag key flags exptime vlen leaseToken)
    (fun out _ => out.Prepared c s (.swap cfg frag key flags exptime vlen leaseToken)) c s := by
  refine wlp_ascCheckLength prepared_refusal fun hk =>
    wlp_ascCheckConfig prepared_refusal fun hcfg => ?_
  refine prepared_ascAllocBody ⟨by simp [Request.pending, Completion.casId, Server.fresh], ?_,
    by simpa [Request.keys] using hk⟩
  rintro _ ⟨⟩
  exact hcfg

theorem prepared_ascProcessIqConcat : wlp (ascProcessIqConcat append cfg key vlen tid)
    (fun out _ => out.Prepared c s (.iqConcat append cfg key vlen tid)) c s := by
  refine wlp_ascCheckLength prepared_refusal fun hk =>
    wlp_ascCheckConfig prepared_refusal fun hcfg => ?_
  refine prepared_ascAllocConcat ⟨rfl, ?_, by simpa [Request.keys] using hk⟩
  rintro _ ⟨⟩
  exact hcfg

/-- `oqswap` and `oqwrite` carry no configuration number. -/
theorem prepared_ascProcessOqwrite (hp : req.pending c s = some ⟨completion,
      { s.fresh key flags (reltime c.processStarted s.now exptime) (-1) with
        cas := if c.useCas then completion.casId else 0 }, vlen⟩)
    (hcfg : req.config = none) (hkeys : req.keys = [key]) :
    wlp (ascProcessOqwrite key flags exptime vlen completion) (fun out _ =>
      out.Prepared c s req) c s := by
  refine wlp_ascCheckLength prepared_refusal fun hk =>
    prepared_ascAllocBody ⟨hp, ?_, by simpa [hkeys] using hk⟩
  rintro _ hsome
  rw [hcfg] at hsome
  cases hsome

theorem prepared_ascProcessOqConcat : wlp (ascProcessOqConcat append sid key vlen)
    (fun out _ => out.Prepared c s (.oqConcat append sid key vlen)) c s := by
  refine wlp_ascCheckLength prepared_refusal fun hk => prepared_ascAllocConcat ⟨rfl, ?_, ?_⟩
  · rintro _ ⟨⟩
  · simpa [Request.keys] using hk

end Bodies

/-! ### Lines that are answered -/

theorem prepared_ascProcessCiget {sid : Bytes} {leaseToken : UInt64} :
    wlp (ascProcessCiget sid key leaseToken) (fun out _ => out.Prepared c s req) c s := by
  refine wlp_ascCheckLength prepared_refusal fun _ => ?_
  rw [wlp_bind]
  intro res s' _
  split
  · split
    · exact prepared_reply fun _ => ⟨_, rfl⟩
    · split <;> exact .pure (Outcome.prepared_reply _)
  all_goals exact .pure (Outcome.prepared_reply _)

theorem prepared_ascProcessOqDelta {incr : Bool} {cfg : Int} {sid delta : Bytes} :
    wlp (ascProcessOqDelta incr cfg sid key delta) (fun out _ => out.Prepared c s req) c s := by
  refine wlp_ascCheckConfig prepared_refusal fun _ =>
    wlp_ascCheckLength prepared_refusal fun _ => ?_
  split
  · exact .pure (Outcome.prepared_reply _)
  · rw [wlp_bind]
    intro r s' _
    split
    · exact prepared_reply fun _ => ⟨_, rfl⟩
    all_goals exact .pure (Outcome.prepared_reply _)

theorem prepared_ascProcessArithmetic {incr : Bool} {cfg : Int} {delta : Bytes} :
    wlp (ascProcessArithmetic incr cfg key delta) (fun out _ => out.Prepared c s req) c s := by
  refine wlp_ascCheckConfig prepared_refusal fun _ =>
    wlp_ascCheckLength prepared_refusal fun _ => ?_
  split
  · exact .pure (Outcome.prepared_reply _)
  · refine prepared_reply fun r => ?_
    cases r <;> exact ⟨_, rfl⟩

theorem prepared_ascProcessIqDelta {incr : Bool} {cfg : Int} {delta : Bytes} :
    wlp (ascProcessIqDelta incr cfg key delta) (fun out _ => out.Prepared c s req) c s := by
  refine wlp_ascCheckConfig prepared_refusal fun _ =>
    wlp_ascCheckLength prepared_refusal fun _ => ?_
  split
  · exact .pure (Outcome.prepared_reply _)
  · exact prepared_reply fun _ => ⟨_, rfl⟩

theorem prepared_ascProcessIqget {cfg : Int} {leaseToken : UInt64} {tid : Bytes} {markP : Bool} :
    wlp (ascProcessIqget cfg key leaseToken tid markP) (fun out _ => out.Prepared c s req) c s :=
  wlp_ascCheckConfig prepared_refusal fun _ => wlp_ascCheckLength prepared_refusal fun _ =>
    prepared_reply fun _ => ⟨_, rfl⟩

/-- A connection waits for a body only after a line that passed its tests. -/
theorem prepared_ascDispatch (req : Request) :
    wlp (ascDispatch req) (fun out _ => out.Prepared c s req) c s := by
  cases req with
  | update => exact prepared_ascProcessUpdate
  | sar => exact prepared_ascProcessSar
  | swap => exact prepared_ascProcessSwap
  | iqConcat => exact prepared_ascProcessIqConcat
  | oqswap | oqwrite =>
    exact prepared_ascProcessOqwrite
      (by simp [Request.pending, Completion.casId, Server.fresh]) rfl rfl
  | oqConcat => exact prepared_ascProcessOqConcat
  | get =>
    rw [ascDispatch, ascProcessRead]
    refine wlp_ascCheckConfig prepared_refusal fun _ => prepared_reply fun r => ?_
    cases r <;> exact ⟨_, rfl⟩
  | arithmetic => exact prepared_ascProcessArithmetic
  | delete cfg deleteLease keys =>
    rw [ascDispatch, ascProcessDelete]
    exact wlp_ascCheckConfig prepared_refusal fun _ => prepared_ascDeleteKeys keys none
  | unlease | qaread =>
    simp only [ascDispatch, ascProcessUnlease, ascProcessQaread]
    exact wlp_ascCheckConfig prepared_refusal fun _ => wlp_ascCheckLength prepared_refusal fun _ =>
      prepared_reply fun _ => ⟨_, rfl⟩
  | qareg =>
    rw [ascDispatch, ascProcessQareg]
    exact wlp_ascCheckConfig prepared_refusal fun _ => wlp_ascCheckLength prepared_refusal fun _ =>
      wlp_ascCheckLength prepared_refusal fun _ => prepared_reply fun _ => ⟨_, rfl⟩
  | dar =>
    rw [ascDispatch, ascProcessDar]
    refine wlp_ascCheckConfig prepared_refusal fun _ => wlp_ascCheckLength prepared_refusal fun _ =>
      prepared_reply fun r => ?_
    cases r <;> exact ⟨_, rfl⟩
  | iqDelta => exact prepared_ascProcessIqDelta
  | commit =>
    rw [ascDispatch, ascProcessCommit]
    refine wlp_ascCheckLength prepared_refusal fun _ => wlp_ascCheckConfig prepared_refusal fun _ =>
      prepared_reply fun r => ?_
    cases r <;> exact ⟨_, rfl⟩
  | release =>
    rw [ascDispatch, ascProcessRelease]
    refine wlp_ascCheckLength prepared_refusal fun _ => prepared_reply fun r => ?_
    cases r <;> exact ⟨_, rfl⟩
  | iqget | iset => exact prepared_ascProcessIqget
  | updateConfiguration => exact prepared_reply fun _ => ⟨_, rfl⟩
  | flushall =>
    rw [ascDispatch, ascProcessFlushall, wlp_bind, wlp_timeReltime, wlp_bind, wlp_modify]
    exact prepared_reply fun _ => ⟨_, rfl⟩
  | ciget => exact prepared_ascProcessCiget
  | oqread =>
    refine wlp_ascCheckLength prepared_refusal fun _ => prepared_reply fun r => ?_
    split <;> exact ⟨_, rfl⟩
  | oqDelta => exact prepared_ascProcessOqDelta
  | oqreg =>
    exact wlp_ascCheckLength prepared_refusal fun _ => wlp_ascCheckLength prepared_refusal fun _ =>
      prepared_reply fun _ => ⟨_, rfl⟩
  | dcommit | coUnlease =>
    exact wlp_ascCheckLength prepared_refusal fun _ => prepared_reply fun _ => ⟨_, rfl⟩
  | validate =>
    refine prepared_reply fun r => ?_
    cases r <;> exact ⟨_, rfl⟩

end Handlers

end Rejig
