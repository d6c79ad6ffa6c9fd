import Rejig.SessionRefines

/-!
# Sessions of the running server

A step of the server that works on a session request is one operation of `Rejig.Session`, or it
changes nothing that the operations see: a line that is refused, a line that waits for its body, a
body with a wrong end.  `Event.call` reads the operation off the step.
-/

namespace Rejig

open Prog Session Option List

variable {req : Request} {c : Settings} {s : Server} {t : Clock} {v : Sight} {conn vlen : Nat}
  {N : Naming} {a : State} {completion : Completion} {keys : List Bytes} {op : Op} {r : CoResult}
  {sid : Bytes}

/-- The result of a session operation that a reply stands for.  `counlease` has no answer for a
session that was aborted, and `oqappend` says `OK_NOVALUE` then. -/
def Reply.result : Reply → Option CoResult
  | .ok | .stored | .novalue | .number _ | .value _ | .lvalue .. => some .ok
  | .abort | .okNovalue | .serverError => some .abort
  | .notFound => some .notFound
  | .invalid => some .invalid
  | .retry => some .retry
  | _ => none

/-- The session operation behind a request line, and its session. -/
def Request.call : Request → Option (Bytes × Op)
  | .ciget sid key leaseToken => some (sid, .ciget key leaseToken)
  | .oqread sid key => some (sid, .oqread key)
  | .oqDelta incr _ sid key delta =>
    (mcStrtoull delta).map fun delta => (sid, .oqDelta incr key delta)
  | .oqreg sid key => some (sid, .oqreg key)
  | .dcommit sid => some (sid, .dcommit)
  | .coUnlease sid => some (sid, .coUnlease)
  | .validate sid => some (sid, .validate)
  | _ => none

/-- The session operation behind a body, and its session. -/
def Pending.call (p : Pending) (body : Bytes) : Option (Bytes × Op) :=
  match p.completion with
  | .oqswap sid => some (sid, .oqswap (p.filled body))
  | .oqwrite sid => some (sid, .oqwrite (p.filled body))
  | .oqConcat append sid => some (sid, .oqConcat append p.item.key (body.take p.vlen))
  | _ => none

/-- The session operation that a step performs, its session and its result. -/
def Event.call : Event → Option (Bytes × Op × CoResult)
  | line _ req (.reply reply) =>
    reply.result.bind fun r => req.call.map fun (sid, op) => (sid, op, r)
  | body _ _ p data reply =>
    reply.result.bind fun r => (p.call data).map fun (sid, op) => (sid, op, r)
  | _ => none

/-- The requests on behalf of a session. -/
def Request.isCo : Request → Bool
  | .ciget .. | .oqread .. | .oqswap .. | .oqwrite .. | .oqDelta .. | .oqConcat .. | .oqreg
      .. | .dcommit _
  | .coUnlease _ | .validate _ => true
  | _ => false

/-- A request of a session with the names of the naming. -/
structure Request.Co (N : Naming) (req : Request) : Prop where
  isCo : req.isCo = true
  keys : ∀ key ∈ req.keys, N.isKey key
  ids : ∀ sid ∈ req.ids, N.Sid sid

/-- An operation with the names of the naming has been executed. -/
structure Executes (c : Settings) (N : Naming) (t : Clock) (v : Sight) (a : State) (sid : Bytes)
    (op : Op) (r : CoResult) (s : Server) : Prop where
  owner : N.Sid sid
  named : op.Named N
  refines : Refines c N t v a sid op r s

theorem executes_exec (op : Op) (hs : Serves c N t s v a) (hsid : N.Sid sid) (hop : op.Named N) :
    wlp (op.exec sid) (Executes c N t v a sid op) c s :=
  (refines_exec op hs hsid hop).mono fun _ _ h => ⟨hsid, hop, h⟩

/-- What a step does to the sessions: nothing, or its operation. -/
def Moves (c : Settings) (N : Naming) (t : Clock) (v : Sight) (a : State)
    (call : Option (Bytes × Op × CoResult)) (s : Server) : Prop :=
  call.elim (∃ v', Serves c N t s v' a) fun (sid, op, r) => Executes c N t v a sid op r s

theorem Executes.mem_results (h : Executes c N t v a sid op r s) : r ∈ op.results := by
  obtain ⟨_, _, _, hstep⟩ := h.refines
  exact hstep.mem_results

/-- What follows an operation is looked at for each of its results. -/
theorem Serves.exec_bind {A : Type} {Q : A → Server → Prop} {f : CoResult → ServerM A} (op : Op)
    (hs : Serves c N t s v a) (hsid : N.Sid sid) (hop : op.Named N)
    (h : op.results.Forall fun r => ∀ s', Executes c N t v a sid op r s' → wlp (f r) Q c s') :
    wlp (op.exec sid >>= f) Q c s :=
  .bind ((executes_exec op hs hsid hop).mono fun r s' hres =>
    List.forall_iff_forall_mem.mp h r hres.mem_results s' hres)

section Handlers

variable {key : Bytes}

/-- A line that is refused. -/
theorem Serves.moves_refused (hs : Serves c N t s v a) (conn : Nat) (req : Request) :
    ∀ r ∈ Reply.refusals, Moves c N t v a (Event.call (.line conn req (.reply r))) s := by
  intro r hr
  have hnone : r.result = none := by
    simp only [Reply.refusals, mem_cons, not_mem_nil, or_false] at hr
    rcases hr with rfl | rfl | rfl <;> rfl
  rw [Event.call, hnone, bind_none]
  exact ⟨v, hs⟩

/-- A reply to an operation. -/
theorem moves_reply {reply : Reply} (hcall : req.call = some (sid, op))
    (hreply : reply.result = some r) (h : Executes c N t v a sid op r s) :
    Moves c N t v a (Event.call (.line conn req (.reply reply))) s := by
  rw [Event.call, hreply, bind_some, hcall, map_some]
  exact h

section

variable (hs : Serves c N t s v a)

include hs

/-- Allocating an item for a body changes nothing that is seen. -/
theorem Serves.allocBody {flags : Nat} {exptime configNum : Int} {dropsValue : Bool}
    (hreq : req.call = none) :
    wlp (ascAllocBody key flags exptime vlen configNum dropsValue completion) (fun out =>
        Moves c N t v a (Event.call (.line conn req out))) c s := by
  have hnone : ∀ out, Event.call (.line conn req out) = none := by
    intro out
    cases out with
    | nread p => rfl
    | reply r =>
      rw [Event.call, hreq]
      cases r.result <;> rfl
  rw [ascAllocBody, wlp_bind, wlp_itemSlabid]
  split
  · refine .pure ?_
    rw [hnone]
    exact ⟨v, hs⟩
  rw [wlp_bind, wlp_timeReltime, wlp_bind, wlp_itemAllocConfig]
  intro _
  rw [if_pos (Server.room_of_heap_nil _ hs.sees.heap)]
  dsimp only
  rw [wlp_bind, wlp_ask, wlp_pure, hnone]
  exact ⟨_, hs.sees.allocate, hs.repr.alloc⟩

theorem Serves.allocConcat :
    wlp (ascAllocConcat key vlen completion) (fun out =>
        Moves c N t v a (Event.call (.line conn req out))) c s := by
  rw [ascAllocConcat, wlp_bind]
  exact wlp_itemAlloc_sight hs.sees fun s' it _ _ _ _ hs' => .pure ⟨_, hs', hs.repr.alloc⟩

/-- A line of a session request. -/
theorem Serves.moves_ascDispatch (hreq : req.Co N) (conn : Nat) :
    wlp (ascDispatch req) (fun out => Moves c N t v a (Event.call (.line conn req out))) c s := by
  have hrefused := hs.moves_refused conn req
  have hlength : ∀ {max : Nat} {name : Bytes} {handler : ServerM Outcome},
      (name.length ≤ max → wlp handler (fun out =>
        Moves c N t v a (Event.call (.line conn req out))) c s) →
      wlp (ascCheckLength max name handler) (fun out =>
        Moves c N t v a (Event.call (.line conn req out))) c s :=
    wlp_ascCheckLength hrefused
  have hconfig : ∀ {cfg : Int} {handler : Int → ServerM Outcome},
      wlp (handler s.configurationNumber) (fun out =>
        Moves c N t v a (Event.call (.line conn req out))) c s →
      wlp (ascCheckConfig cfg handler) (fun out =>
        Moves c N t v a (Event.call (.line conn req out))) c s :=
    fun h => wlp_ascCheckConfig hrefused fun _ => h
  cases req with
  | ciget sid key leaseToken =>
    refine hlength fun hlen => ?_
    have hexec := executes_exec (.ciget key leaseToken) hs (hreq.ids sid mem_cons_self)
      ⟨hreq.keys key mem_cons_self, hlen⟩
    rw [Op.exec, wlp_bind] at hexec
    refine .bind (hexec.mono fun res s' hres => ?_)
    rw [wlp_pure] at hres
    cases hst : res.status with
    | ok =>
      rw [hst] at hres
      dsimp only
      split
      · rw [wlp_bind, wlp_deref]
        exact fun it _ => .pure (moves_reply rfl rfl hres)
      · cases res.item with
        | none => exact .pure (moves_reply rfl rfl hres)
        | some it => exact .pure (moves_reply rfl rfl hres)
    | retry | abort | invalid =>
      rw [hst] at hres
      exact .pure (moves_reply rfl rfl hres)
    | notFound | novalue =>
      rw [hst] at hres
      exact absurd hres.mem_results (by simp [Op.results])
  | oqread sid key =>
    refine hlength fun hlen => ?_
    have hexec := executes_exec (.oqread key) hs (hreq.ids sid mem_cons_self)
      ⟨hreq.keys key mem_cons_self, hlen⟩
    rw [Op.exec, wlp_bind] at hexec
    refine .bind (hexec.mono ?_)
    rintro ⟨r, it⟩ s' hres
    rw [wlp_pure] at hres
    cases r with
    | ok => cases it <;> exact .pure (moves_reply rfl rfl hres)
    | abort => exact .pure (moves_reply rfl rfl hres)
    | invalid | notFound | retry | novalue => exact absurd hres.mem_results (by simp [Op.results])
  | oqswap sid key flags exptime vlen =>
    rw [ascDispatch, ascProcessOqwrite]
    exact hlength fun _ => hs.allocBody rfl
  | oqwrite sid key flags exptime vlen =>
    rw [ascDispatch, ascProcessOqwrite]
    exact hlength fun _ => hs.allocBody rfl
  | oqConcat append sid key vlen =>
    exact hlength fun _ => hs.allocConcat
  | oqDelta incr cfg sid key delta =>
    rw [ascDispatch, ascProcessOqDelta]
    refine hconfig (hlength fun hlen => ?_)
    cases hdelta : mcStrtoull delta with
    | none => exact .pure (hrefused _ (by simp [Reply.refusals]))
    | some d =>
      have hcall : (Request.oqDelta incr cfg sid key delta).call = some (sid,
        .oqDelta incr key d) := by
        rw [Request.call, hdelta, map_some]
      have hexec := executes_exec (.oqDelta incr key d) hs (hreq.ids sid mem_cons_self)
        ⟨hreq.keys key mem_cons_self, hlen⟩
      dsimp only
      rw [wlp_bind, itemOqincrOqdecr, wlp_bind]
      refine wlp.mono hexec fun r s' hres => ?_
      rw [wlp_bind]
      obtain ⟨hsid, hop, v', a', hs', hstep⟩ := hres
      refine hs'.get fun s'' hs'' => ?_
      have hres : Executes c N t v a sid (.oqDelta incr key d) r s'' :=
        ⟨hsid, hop, v', a', hs'', hstep⟩
      cases r with
      | ok =>
        cases v'.find (versionKey key) with
        | none => exact .pure (.pure (moves_reply hcall rfl hres))
        | some pv =>
          refine .pure ?_
          dsimp only
          rw [wlp_bind, wlp_deref]
          exact fun val _ => .pure (moves_reply hcall rfl hres)
      | abort => exact .pure (.pure (moves_reply hcall rfl hres))
      | invalid | notFound | retry | novalue => exact absurd hres.mem_results (by simp [Op.results])
  | oqreg sid key =>
    refine hlength fun _ => hlength fun hlen => ?_
    refine hs.exec_bind (.oqreg key) (hreq.ids sid mem_cons_self)
      ⟨hreq.keys key mem_cons_self, hlen⟩
      ⟨?_, ?_⟩ <;> exact fun _ hres => .pure (moves_reply rfl rfl hres)
  | dcommit sid =>
    refine hlength fun _ => hs.exec_bind .dcommit (hreq.ids sid mem_cons_self) trivial
      ⟨?_, ?_, ?_⟩ <;> exact fun _ hres => .pure (moves_reply rfl rfl hres)
  | coUnlease sid =>
    refine hlength fun _ => hs.exec_bind .coUnlease (hreq.ids sid mem_cons_self) trivial
      ⟨?_, ?_, ?_⟩ <;> exact fun _ hres => .pure (moves_reply rfl rfl hres)
  | validate sid =>
    rw [ascDispatch, ascProcessValidate]
    refine hs.exec_bind .validate (hreq.ids sid mem_cons_self) trivial ⟨?_, ?_⟩ <;>
      exact fun _ hres => .pure (moves_reply rfl rfl hres)
  | _ => exact absurd hreq.isCo Bool.false_ne_true

/-- A body of a session request. -/
theorem Serves.moves_ascCompleteNread {s₀ : Server} {p : Pending} {data : Bytes}
    (hp : Prepared c s₀ req p) (hreq : req.Co N) (conn : Nat) :
    wlp (ascCompleteNread p data) (fun reply =>
        Moves c N t v a (Event.call (.body conn req p data reply))) c s := by
  have hkey : N.Key p.item.key := ⟨hreq.keys _ hp.key_mem, hp.short_key⟩
  have hmoves : ∀ {sid : Bytes} {op : Op} {r : CoResult} {reply : Reply} {s' : Server}, p.call
    data = some (sid, op) →
      reply.result = some r → Executes c N t v a sid op r s' →
      Moves c N t v a (Event.call (.body conn req p data reply)) s' := by
    intro sid op r reply s' hcall hreply h
    rw [Event.call, hreply, bind_some, hcall, map_some]
    exact h
  rw [ascCompleteNread]
  split
  · exact .pure ⟨v, hs⟩
  obtain ⟨hpending, -, -⟩ := hp
  cases req with
  | oqswap sid key flags exptime vlen =>
    have hcall : p.call data = some (u8Name sid, .oqswap (p.filled data)) := by
      cases hpending
      rfl
    have hcompletion : p.completion = .oqswap (u8Name sid) := by
      cases hpending
      rfl
    rw [hcompletion, ascComplete]
    refine hs.exec_bind (.oqswap (p.filled data)) (hreq.ids _ mem_cons_self) hkey ⟨?_, ?_, ?_⟩ <;>
      exact fun _ hres => .pure (hmoves hcall rfl hres)
  | oqwrite sid key flags exptime vlen =>
    have hcall : p.call data = some (u8Name sid, .oqwrite (p.filled data)) := by
      cases hpending
      rfl
    have hcompletion : p.completion = .oqwrite (u8Name sid) := by
      cases hpending
      rfl
    rw [hcompletion, ascComplete]
    refine hs.exec_bind (.oqwrite (p.filled data)) (hreq.ids _ mem_cons_self) hkey ⟨?_, ?_, ?_⟩ <;>
      exact fun _ hres => .pure (hmoves hcall rfl hres)
  | oqConcat append sid key vlen =>
    have hcall : p.call data = some (u8Name sid,
      .oqConcat append p.item.key (data.take p.vlen)) := by
      cases hpending
      rfl
    have hcompletion : p.completion = .oqConcat append (u8Name sid) := by
      cases hpending
      rfl
    rw [hcompletion, ascComplete]
    refine hs.exec_bind (.oqConcat append p.item.key (data.take p.vlen))
      (hreq.ids _ mem_cons_self) hkey
      ⟨?_, ?_⟩ <;> exact fun _ hres => .pure (hmoves hcall rfl hres)
  | ciget | oqread | oqDelta | oqreg | dcommit | coUnlease | validate => cases hpending
  | _ => exact absurd hreq.isCo Bool.false_ne_true

end

end Handlers

/-! ## Runs -/

/-- A delete of keys. -/
def Request.Deletes (N : Naming) (req : Request) : Prop :=
  ∃ cfg deleteLease keys, req = .delete cfg deleteLease keys ∧ ∀ key ∈ keys, N.isKey key

/-- A step that serves a session, deletes keys or lets time pass, with enough memory. -/
structure Moment.CoDelete (N : Naming) (m : Moment) : Prop where
  request : ∀ req, m.label.request = some req → req.Co N ∨ req.Deletes N
  memory : ∀ heap, m.label = .memory heap → heap = []

/-- Such a step that deletes nothing and lets nothing expire. -/
structure Moment.Co (N : Naming) (m : Moment) : Prop extends Moment.CoDelete N m where
  serves : ∀ req, m.label.request = some req → req.Co N
  tick : ∀ seconds, m.label = .tick seconds → m.post.server.live = m.pre.server.live

/-- A run that serves sessions, with deletes and with expiry, without lack of memory. -/
abbrev CoDeleteRun (c : Settings) (N : Naming) := RunOf c (Moment.CoDelete N)

/-- A run that serves sessions, without deletes and without expiry. -/
abbrev CoRun (c : Settings) (N : Naming) := RunOf c (Moment.Co N)

/-- Leases live for thirty days at most, so that what is created is not taken for an absolute
time. -/
def Settings.Relative (c : Settings) : Prop :=
  (leaseLifetime c.leaseTokenExpiry : Int) ≤ timeMaxdelta

instance instDecidableRelative (c : Settings) : Decidable c.Relative :=
  inferInstanceAs (Decidable ((leaseLifetime c.leaseTokenExpiry : Int) ≤ timeMaxdelta))

theorem Settings.Relative.now_lt_leaseExpiry (h : c.Relative) (s : Server) :
    s.now < s.leaseExpiry c := by
  have hlife : 2 ≤ leaseLifetime c.leaseTokenExpiry := by
    simp only [leaseLifetime]
    omega
  rw [Relative] at h
  simp only [Server.leaseExpiry, reltime, relTime]
  rw [if_neg (by omega), if_neg (by omega), if_pos (by omega)]
  omega

/-- The time of a state of a server that was never flushed. -/
def Settings.Relative.clock {c : Settings} (h : c.Relative) (s : Server) : Clock where
  now := s.now
  expiry := s.leaseExpiry c
  oldestLive := 0
  ahead := h.now_lt_leaseExpiry s
  unflushed := .inl rfl

/-- No sessions, and nothing on any key. -/
def Session.State.empty : State := ⟨fun _ => none, fun _ => ⟨none, none, none, none⟩⟩

/-- The sessions of a state of a run. -/
structure Serving (c : Settings) (N : Naming) (s : Server) (a : State) : Prop where
  unflushed : s.oldestLive = 0
  serves : ∃ t v, Serves c N t s v a

section Runs

variable {h : History} {w w' : World} {e : Event}

theorem serving_start (hc : c.Relative) : Serving c N World.start.server .empty := by
  have hlive : Server.start.live = fun _ => none := by
    funext n
    rfl
  refine ⟨rfl, hc.clock .start, ⟨fun _ => none, Server.start.nextAddr⟩,
    ⟨hlive, rfl, rfl, rfl, rfl, rfl⟩, ?_⟩
  exact
    { sess := fun _ _ => .none
      cell := fun k _ => ⟨.none, rfl, rfl, rfl, nofun,
        fun it h => by rcases h with h | h <;> cases h⟩
      addr_inj := fun _ _ _ _ _ _ h => nomatch h
      addr_lt := fun _ _ _ h => nomatch h }

/-- The readers of a key that a write of a session does not abort. -/
def Server.spared (s : Server) (sid key r : Bytes) : Bool :=
  r = sid || (s.live (coLeaseKey key)).any fun it => takenFor sid it.data r

/-- What a step does to the sessions of a run: its operation, or `L` if it has none. -/
def Served (c : Settings) (N : Naming) (L : State → State → Prop) (s : Server) (a : State)
    (s' : Server) :
    Option (Bytes × Op × CoResult) → Prop
  | none => ∃ a', Serving c N s' a' ∧ L a a'
  | some (sid, op, r) =>
    N.Sid sid ∧ op.Named N ∧ ∃ a', Serving c N s' a' ∧ Step (s.spared sid op.key) a sid op r a'

theorem Serves.serving (hs : Serves c N t s v a) (ht : t.oldestLive = 0) :
    Serving c N s a := ⟨hs.sees.oldestLive.trans ht, t, v, hs⟩

theorem Moves.served {s' : Server} {call : Option (Bytes × Op × CoResult)} (hs : Serves c N t s v a)
    (ht : t.oldestLive = 0) (h : Moves c N t v a call s') : Served c N Eq s a s' call := by
  cases call with
  | none =>
    obtain ⟨v', hs'⟩ := h
    exact ⟨a, hs'.serving ht, rfl⟩
  | some call =>
    obtain ⟨hsid, hop, v', a', hs', hstep⟩ := h
    have hspared : s.spared call.1 call.2.1.key = v.spared call.1 call.2.1.key := by
      funext r
      rw [Server.spared, Sight.spared, hs.sees.live]
    exact ⟨hsid, hop, a', hs'.serving ht, hspared ▸ hstep⟩

/-- Every step of a run performs its operation on the sessions. -/
theorem Serving.step (hc : c.Relative) (hs : Serving c N w.server a) (hr : (service c).Run h w)
    (hstep : World.Step c w e w') (hco : Moment.Co N ⟨w, e, w'⟩) :
    Served c N Eq w.server a w'.server e.call := by
  obtain ⟨hflush, t, v, hserves⟩ := hs
  have ht : t.oldestLive = 0 := hserves.sees.oldestLive.symm.trans hflush
  cases hstep with
  | @line conn req outcome s hidle hrun =>
    exact Moves.served hserves ht (hserves.moves_ascDispatch (hco.serves req rfl) conn _ _ hrun)
  | @body conn req p body reply s hw hlen hrun =>
    obtain ⟨m, -, -, hp⟩ := exists_line_of_waiting hr hw
    exact Moves.served hserves ht (hserves.moves_ascCompleteNread hp (hco.serves req rfl)
      conn _ _ hrun)
  | tick seconds =>
    have hlive := hco.tick seconds rfl
    exact ⟨a, ⟨hflush, hc.clock _, v, ⟨hlive.trans hserves.sees.live, hserves.sees.next, rfl,
      rfl, hflush, hserves.sees.heap⟩, hserves.repr⟩, rfl⟩
  | memory heap =>
    obtain rfl := hco.memory heap rfl
    exact ⟨a, ⟨hflush, t, v, ⟨hserves.sees.live, hserves.sees.next, hserves.sees.now,
      hserves.sees.expiry, hserves.sees.oldestLive, rfl⟩, hserves.repr⟩, rfl⟩
  | hangup conn => exact ⟨a, ⟨hflush, t, v, hserves⟩, rfl⟩

/-- Every state of a run is a state of sessions. -/
theorem CoRun.serving (hc : c.Relative) (hr : CoRun c N h w) : ∃ a, Serving c N w.server a := by
  obtain ⟨hrun, hco⟩ := hr
  induction hrun with
  | init hinit =>
    cases hinit
    exact ⟨.empty, serving_start hc⟩
  | @step h w w' e hrun hstep ih =>
    obtain ⟨a, hs⟩ := ih fun m hm => hco m (mem_cons_of_mem _ hm)
    have hserved := hs.step hc hrun hstep (hco _ mem_cons_self)
    cases hcall : e.call with
    | none =>
      rw [hcall] at hserved
      exact hserved.imp fun _ => And.left
    | some call =>
      rw [hcall] at hserved
      exact hserved.2.2.imp fun _ => And.left

end Runs

/-- The test that a step serves sessions with the listed keys, and that no time passes. -/
def Event.coNamed (keys : List Bytes) : Event → Bool
  | .tick _ => false
  | .memory heap => heap.isEmpty
  | e => e.request.all fun req => req.isCo && req.keys.all (· ∈ keys) &&
      req.ids.all fun sid => Unprefixed sid && sid ∉ keys && sid.length < 256

/-- What the test says. -/
theorem Moment.co_of_coNamed {hk : ∀ n ∈ keys, Unprefixed n} {m : Moment}
    (htest : m.label.coNamed keys = true) :
    Moment.Co (.ofLists keys [] hk nofun nofun) m := by
  have hreq : ∀ req, m.label.request = some req → req.Co (.ofLists keys [] hk nofun nofun) := by
    intro req hreq
    have hall : (req.isCo && req.keys.all (· ∈ keys) &&
        req.ids.all fun sid => Unprefixed sid && sid ∉ keys && sid.length < 256) = true := by
      cases hl : m.label with
      | line | body =>
        rw [hl] at htest hreq
        cases hreq
        exact htest
      | tick | memory | hangup =>
        rw [hl] at hreq
        cases hreq
    simp only [Bool.and_eq_true, List.all_eq_true, decide_eq_true_eq] at hall
    obtain ⟨⟨hco, hkeys⟩, hids⟩ := hall
    exact ⟨hco, hkeys, fun sid hsid => ⟨(hids sid hsid).1.1, (hids sid hsid).1.2,
      (hids sid hsid).2⟩⟩
  refine ⟨⟨fun req h => .inl (hreq req h), fun heap hl => ?_⟩, hreq, fun seconds hl => ?_⟩
  · rw [hl] at htest
    exact List.isEmpty_iff.mp htest
  · rw [hl] at htest
    cases htest

theorem playable_co {hk : ∀ n ∈ keys, Unprefixed n} :
    Playable c (CoRun c (.ofLists keys [] hk nofun nofun)) (·.label.coNamed keys) :=
  fun _ _ _ hplay hnamed =>
  ⟨run_of_play (.init rfl) hplay, fun m hm => Moment.co_of_coNamed (all_eq_true.mp hnamed m hm)⟩

end Rejig
