import Rejig.History

/-!
# Configuration numbers

A request carries the configuration number its client believes in, and the server refuses a request
line with another number than its own.  The number is tested once, under a lock of its own, and the
effect comes later: when the thread gets to the rest of the handler, or when the body has arrived.
`threads` is the system in which the test and the rest of a line are two steps.  What still gets
through after an update is what was tested before it (`update_fences`).

A value carries a configuration number too.  It is `-1`, which stands for none, or the number of the
request that made the record of the value: of the command whose body it holds, or of the commit that
turned a pending version into it (`configNumber_made`).
-/

namespace Rejig

open Prog System List Function

variable {key name tid : Bytes} {req : Request} {conn : Nat}

/-! ## Fencing -/

/-- The server with its worker threads.  A thread tests the number of a request under
`configuration_lock` and keeps the number that it has seen; the rest of the handler comes later,
under `cache_lock`. -/
structure Threads where
  world : World
  /-- The requests whose number has been tested, with the number of the server at that time. -/
  seen : Nat → Option (Request × Int)

/-- One step of a thread or of the environment. -/
inductive Act where
  /-- `asc_check_config`, for a request that carries a number. -/
  | check (conn : Nat) (req : Request)
  /-- The rest of the handler. -/
  | rest (conn : Nat)
  /-- A step in which no number is tested. -/
  | other (i : Input)
deriving DecidableEq

/-- No number is tested, and the connection is not one whose thread is about to go on. -/
def Input.free (seen : Nat → Option (Request × Int)) : Input → Bool
  | .line conn req => (seen conn).isNone && req.config.isNone
  | .hangup conn => (seen conn).isNone
  | _ => true

namespace Threads

def start : Threads := ⟨.start, fun _ => none⟩

/-- The configuration number of the server. -/
def number (θ : Threads) : Int := θ.world.server.configurationNumber

/-- Execute one step, if it is possible and its execution is defined. -/
def next (c : Settings) (θ : Threads) : Act → Option Threads
  | .check conn req =>
    if (θ.seen conn).isNone && (θ.world.conns conn).isNone && req.config.isSome then
      some { θ with seen := update θ.seen conn (some (req, θ.number)) }
    else none
  -- the handler reads the number once, so that it goes on as if that were still the number
  | .rest conn => (θ.seen conn).bind fun r =>
    (World.next c { θ.world with server.configurationNumber := r.2 } (.line conn r.1)).map fun e =>
      ⟨{ e.2 with server.configurationNumber := θ.number }, update θ.seen conn none⟩
  | .other i => if i.free θ.seen then (θ.world.next c i).map fun e =>
      { θ with world := e.2 } else none

/-- The request that a step works on. -/
def request (θ : Threads) : Act → Option Request
  | .check _ req => req
  | .rest conn => (θ.seen conn).map (·.1)
  | .other (.line _ req) => req
  | .other (.body conn _) => (θ.world.conns conn).map (·.1)
  | .other _ => none

end Threads

/-- The transition system of a server with its threads. -/
def threads (c : Settings) : System Threads Act := .ofNext .start (Threads.next c)

section Fencing

variable {c : Settings} {θ θ' : Threads} {h newer older : List (Transition Threads Act)}
  {t tu : Transition Threads Act} {n m : Int}

theorem World.Step.updateConfiguration {w w' : World} {out : Outcome}
    (hstep : World.Step c w (.line conn (.updateConfiguration n) out) w') :
    w'.server = { w.server with configurationNumber := n } := by
  have hrun := hstep.of_line
  simp only [ascDispatch, ascProcessUpdateConfiguration, run_bind, run_modify, Option.bind_some,
    run_pure] at hrun
  exact (Prod.mk.inj (Option.some.inj hrun)).2.symm

theorem World.next_line {w w' : World} {e : Event} (h : w.next c (.line conn req) = some (e, w')) :
    ∃ out s, run (ascDispatch req) c w.server = some (out, s) ∧ e = .line conn req out ∧
      w' = ⟨s, update w.conns conn (out.waiting req)⟩ := by
  rw [next] at h
  split at h
  · cases h
  · obtain ⟨⟨out, s⟩, hrun, heq⟩ := Option.map_eq_some_iff.mp h
    cases heq
    exact ⟨out, s, hrun, rfl, rfl⟩

theorem World.input_of_line {w w' : World} {i : Input} {out : Outcome}
    (h : w.next c i = some (.line conn req out, w')) : i = .line conn req := by
  cases i with
  | line conn' req' =>
    obtain ⟨_, _, -, ⟨⟩, -⟩ := next_line h
    rfl
  | body conn' body =>
    rw [next] at h
    split at h
    · cases h
    · simp at h
  | _ => cases h

namespace Threads

/-- What the rest of a handler does. -/
theorem next_rest (hnext : θ.next c (.rest conn) = some θ') :
    ∃ req k out s, θ.seen conn = some (req, k) ∧
    run (ascDispatch req) c { θ.world.server with configurationNumber := k } = some (out, s) ∧
    θ' = ⟨⟨{ s with configurationNumber := θ.number }, update θ.world.conns conn (out.waiting req)⟩,
      update θ.seen conn none⟩ := by
  obtain ⟨⟨req, k⟩, hseen, hnext⟩ := Option.bind_eq_some_iff.mp hnext
  obtain ⟨⟨e, w⟩, hline, rfl⟩ := Option.map_eq_some_iff.mp hnext
  obtain ⟨out, s, hrun, -, rfl⟩ := World.next_line hline
  exact ⟨req, k, out, s, hseen, hrun, rfl⟩

/-- What a step without a test does. -/
theorem next_other {i : Input} (hnext : θ.next c (.other i) = some θ') :
    i.free θ.seen = true ∧ ∃ e w, θ.world.next c i = some (e, w) ∧ θ' = { θ with world := w } := by
  rw [next, Option.ite_none_right_eq_some] at hnext
  obtain ⟨hfree, hnext⟩ := hnext
  obtain ⟨⟨e, w⟩, hline, rfl⟩ := Option.map_eq_some_iff.mp hnext
  exact ⟨hfree, e, w, hline, rfl⟩

theorem next_updateConfiguration
    (hnext : θ.next c (.other (.line conn (.updateConfiguration n))) = some θ') :
    θ'.number = n := by
  obtain ⟨-, e, w, hline, rfl⟩ := next_other hnext
  obtain ⟨out, s, -, rfl, -⟩ := World.next_line hline
  rw [number, (World.step_of_next hline).updateConfiguration]

/-- A thread that goes on at once handles the line as in `service`. -/
theorem next_check_rest (hreq : req.isIq) (hcfg : req.config.isSome = true)
    (hseen : θ.seen conn = none) :
    ((θ.next c (.check conn req)).bind fun θ' => θ'.next c (.rest conn)) =
      (θ.world.next c (.line conn req)).map fun e => { θ with world := e.2 } := by
  cases hconn : θ.world.conns conn with
  | some r => simp [next, World.next, hconn]
  | none =>
    simp only [next, World.next, hconn, hseen, hcfg, Option.isNone_none, Bool.and_self, if_true,
      Option.bind_some, update_self, update_idem, Option.map_map]
    have hback : update θ.seen conn none = θ.seen := by rw [← hseen, update_eq_self]
    cases hrun : run (ascDispatch req) c θ.world.server with
    | none => simp [number, hrun]
    | some r =>
      have hkeep : { r.2 with configurationNumber := θ.number } = r.2 := by
        rw [number, ← (evolve_ascDispatch hreq r.1 r.2 hrun).configurationNumber]
      simpa [hrun, hback, number] using hkeep

/-- Every number that has been seen, and every one that a body waits with, has been tested. -/
structure Checked (h : List (Transition Threads Act)) (θ : Threads) : Prop where
  seen : ∀ {conn req k}, θ.seen conn = some (req, k) → ∃ t ∈ h, t.label = .check conn req ∧
    t.pre.number = k
  waiting : ∀ {conn req p m}, θ.world.conns conn = some (req, p) → req.config = some m → m ≠ -1 →
    ∃ t ∈ h, t.label = .check conn req ∧ t.pre.number = m

theorem Checked.step {a : Act} (hc : Checked h θ) (hnext : θ.next c a = some θ') :
    Checked (⟨θ, a, θ'⟩ :: h) θ' := by
  have hkeep {P : Transition Threads Act → Prop} : (∃ t ∈ h, P t) → ∃ t ∈ ⟨θ, a, θ'⟩ :: h, P t :=
    fun hex => hex.imp fun _ ht => ⟨mem_cons_of_mem _ ht.1, ht.2⟩
  cases a with
  | check conn req =>
    rw [next, Option.ite_none_right_eq_some] at hnext
    obtain ⟨-, ⟨⟩⟩ := hnext
    refine ⟨fun {conn' req' k} hseen => ?_, fun hw hm hne => hkeep (hc.waiting hw hm hne)⟩
    by_cases heq : conn' = conn
    · subst heq
      cases (update_self ..).symm.trans hseen
      exact ⟨_, mem_cons_self, rfl, rfl⟩
    · exact hkeep (hc.seen ((update_of_ne heq ..).symm.trans hseen))
  | rest conn =>
    obtain ⟨req, k, out, s, hk, hrun, rfl⟩ := next_rest hnext
    refine ⟨fun {conn' req' k'} hseen => ?_, fun {conn' req' p m} hw hm hne => ?_⟩
    · by_cases heq : conn' = conn
      · subst heq
        cases (update_self ..).symm.trans hseen
      · exact hkeep (hc.seen ((update_of_ne heq ..).symm.trans hseen))
    · by_cases heq : conn' = conn
      · subst heq
        replace hw : out.waiting req = some (req', p) := by simpa using hw
        cases out with
        | reply r => cases hw
        | nread p =>
          cases hw
          -- the line has passed the test, with the number that was seen
          have haccepted := (prepared_ascDispatch req _ _ hrun p rfl).accepted m hm
          obtain rfl : m = k := haccepted.resolve_left hne
          exact hkeep (hc.seen hk)
      · exact hkeep (hc.waiting ((update_of_ne heq ..).symm.trans hw) hm hne)
  | other i =>
    obtain ⟨hfree, e, w, hline, rfl⟩ := next_other hnext
    refine ⟨fun hseen => hkeep (hc.seen hseen), fun {conn req p m} hw hm hne => ?_⟩
    rcases (World.step_of_next hline).conns conn with heq | hnone | ⟨req', p', rfl, heq⟩
    · exact hkeep (hc.waiting (heq ▸ hw) hm hne)
    · cases hnone.symm.trans hw
    · cases heq.symm.trans hw
      -- a line of this kind carries no number
      obtain rfl := World.input_of_line hline
      simp [Input.free, hm] at hfree

theorem checked_of_run (hr : (threads c).Run h θ) : Checked h θ := by
  refine hr.invariant (I := Checked) ?_ fun _ _ _ _ _ hc hnext => hc.step hnext
  rintro _ rfl
  exact ⟨nofun, nofun⟩

end Threads

/-- The step goes on with a request whose number was tested in one of the older steps, when the
server had the number `m`. -/
def Admitted (older : List (Transition Threads Act)) (req : Request) (m : Int)
    (t : Transition Threads Act) : Prop :=
  ∃ conn, (t.label = .rest conn ∨ ∃ data, t.label = .other (.body conn data)) ∧
    ∃ t₁ ∈ older, t₁.label = .check conn req ∧ t₁.pre.number = m

end Fencing

/-- The step leaves the record under the name in its memory, with its number. -/
def KeepsRecord (name : Bytes) (t : Moment) : Prop :=
  ∃ it it', t.pre.server.find name = some it ∧ t.post.server.find name = some it' ∧
    it'.addr = it.addr ∧ it'.configNumber = it.configNumber

/-- The record `it` is the one that the step has made, with the number of the request that the step
works on: the command whose body it holds, or the commit of a transaction that lists its key, with
the bytes of the pending version.  A commit may also leave the marker of a listed key. -/
inductive Made (it : Item) (older : History) (t : Moment) : Prop
  | store {conn : Nat} {cmd : Update} {cfg frag exptime : Int} {key data : Bytes} {flags vlen : Nat}
      {p : Pending} {r : Reply} {t₁ : Moment} :
      t.label = .body conn (.update cmd cfg frag key flags exptime vlen) p data r → t₁ ∈ older →
      t₁.label = .line conn (.update cmd cfg frag key flags exptime vlen) (.nread p) →
      it.key = key → it.addr = p.item.addr → it.data = data.take vlen →
      it.configNumber = fragConfig frag t₁.pre.server.configurationNumber → Made it older t
  | commit {conn : Nat} {cfg frag pending : Int} {tid : Bytes} :
      t.label = .line conn (.commit cfg frag tid pending) (.reply .ok) →
      it.key ∈ t.pre.server.listed tid →
      t.pre.server.Pends tid it.key it.data → t.pre.server.nextAddr ≤ it.addr →
      it.configNumber = fragConfig frag t.pre.server.configurationNumber → Made it older t
  | marker {conn : Nat} {cfg frag pending : Int} {tid key : Bytes} :
      t.label = .line conn (.commit cfg frag tid pending) (.reply .ok) →
      key ∈ t.pre.server.listed tid →
      it.key = pendingKey key → t.pre.server.nextAddr ≤ it.addr →
      it.configNumber = fragConfig frag t.pre.server.configurationNumber → Made it older t

/-- A permission under which a record keeps its number with its memory, has none, or satisfies
`S`. -/
structure Perm.Numbers (P : Perm) (n : Bytes) (S : Item → Prop) : Prop where
  edit : ∀ o o', P.edit n o o' → o'.configNumber = -1 ∨ S o' ∨
    o'.addr = o.addr ∧ o'.configNumber = o.configNumber ∧ (S o → S o')
  install : ∀ o', P.install n o' → o'.configNumber = -1 ∨ S o'

section Permissions

variable {c : Settings} {s s' : Server} {P : Perm} {n : Bytes} {S : Item → Prop} {it : Item}

/-- Where a number comes from. -/
theorem Advance.number (h : Advance P s s') (hP : P.Numbers n S)
    (hS : ∀ o atime, S o → S { o with atime := atime }) (hit : s'.find n = some it) :
    it.configNumber = -1 ∨ S it ∨
      ∃ it₀, s.find n = some it₀ ∧ it.addr = it₀.addr ∧ it.configNumber = it₀.configNumber := by
  refine h.invariant (I := fun o => ∀ it, o = some it → it.configNumber = -1 ∨ S it ∨
    ∃ it₀, s.find n = some it₀ ∧ it.addr = it₀.addr ∧ it.configNumber = it₀.configNumber)
    ?_ (fun it hit => .inr (.inr ⟨it, hit, rfl, rfl⟩)) it hit
  rintro o o' hchange ho it rfl
  cases hchange with
  | @touch o now =>
    rcases ho o rfl with hnone | hs | hold
    · exact .inl hnone
    · exact .inr (.inl (hS o now hs))
    · exact .inr (.inr hold)
  | @edit o _ he =>
    rcases hP.edit o it he with hnone | hs | ⟨haddr, hnum, hs⟩
    · exact .inl hnone
    · exact .inr (.inl hs)
    · rcases ho o rfl with hnone | hs' | ⟨it₀, hit₀, haddr₀, hnum₀⟩
      · exact .inl (hnum.trans hnone)
      · exact .inr (.inl (hs hs'))
      · exact .inr (.inr ⟨it₀, hit₀, haddr.trans haddr₀, hnum.trans hnum₀⟩)
  | install hi =>
    rcases hP.install it hi with hnone | hs
    · exact .inl hnone
    · exact .inr (.inl hs)

theorem Reserved.configNumber {data : Bytes} {lease : Lease} {co : CoFlag}
    (h : Reserved c s name data lease co it) :
    it.configNumber = -1 := by
  obtain ⟨addr, cas, -, rfl⟩ := h
  rfl

theorem TransRecord.configNumber (h : TransRecord c s tid key it) : it.configNumber = -1 := by
  obtain ⟨-, data, -, hres⟩ := h
  exact hres.configNumber

theorem InvLease.configNumber (h : InvLease c s key tid it) : it.configNumber = -1 := by
  obtain ⟨-, data, -, hres⟩ := h
  exact hres.configNumber

theorem Rebuilt.configNumber {entry : Bytes} {o : Item} (h : Rebuilt c s name entry o it) :
    it.configNumber = -1 := by
  obtain ⟨-, data, -, hres⟩ := h
  exact hres.configNumber

theorem TokenLease.configNumber {kind : Lease} (h : TokenLease c s key kind it) :
    it.configNumber = -1 := by
  obtain ⟨token, it', -, hres, p, rfl⟩ := h
  exact hres.configNumber

/-- The item under the name `n` is one that a commit has made: the value of a listed key, or its
marker. -/
inductive Commits (s : Server) (n : Bytes) (it : Item) : Request → Prop
  | value {cfg frag pending : Int} {tid : Bytes} : n ∈ s.listed tid → s.Pends tid n it.data →
      Committed s (fragConfig frag s.configurationNumber) it →
      Commits s n it (.commit cfg frag tid pending)
  | marker {cfg frag pending : Int} {tid key : Bytes} : key ∈ s.listed tid → n = pendingKey key →
      Committed s (fragConfig frag s.configurationNumber) it →
      Commits s n it (.commit cfg frag tid pending)

theorem Commits.touch {atime : Nat} (h : Commits s n it req) :
    Commits s n { it with atime := atime } req := by
  cases h with
  | value hmem hd hc =>
    exact .value hmem hd ⟨hc.addr, hc.exptime, hc.lease, hc.co, hc.configNumber, hc.pinned⟩
  | marker hmem hn hc =>
    exact .marker hmem hn ⟨hc.addr, hc.exptime, hc.lease, hc.co, hc.configNumber, hc.pinned⟩

/-- A line gives a number to a record only if it is that of a commit. -/
theorem Request.numbers : (req.perm c s).Numbers n (Commits s n · req) := by
  have hwrite : ∀ {o o'}, req.Writes c s o o' n → o'.configNumber = -1 ∨ Commits s n o' req ∨
      ∃ it, o = some it ∧ o'.addr = it.addr ∧ o'.configNumber = it.configNumber ∧
      ¬ Commits s n it req := by
    intro o o' h
    cases h with
    | lease h =>
      cases h with
      | register h => exact .inl h.configNumber
      | finish _ _ _ _ h | release _ h => exact .inl h.configNumber
      | refresh _ h | increment h | fill _ _ h => exact .inl h.configNumber
      | mark hreq ho h =>
        refine .inr (.inr ⟨_, ho, by rw [h], by rw [h], ?_⟩)
        rintro ⟨⟩ <;> cases hreq
    | version h =>
      rcases h with ⟨-, h⟩ | ⟨-, h | ⟨it, cas, data, ho, h⟩⟩
      · exact .inl h.configNumber
      · exact .inl h.configNumber
      · exact .inr (.inr ⟨it, ho, by rw [h], by rw [h], nofun⟩)
    | value h =>
      cases h with
      | rewrite _ h => exact .inl h.configNumber
      | inPlace ho h | delay ho h => exact .inr (.inr ⟨_, ho, by rw [h], by rw [h], nofun⟩)
      | commit hmem h hd => exact .inr (.inl (.value hmem hd h))
    | marker hreq hmem h => exact .inr (.inl (hreq ▸ .marker hmem rfl h))
    | record _ _ _ h => exact .inl h.configNumber
  constructor
  · intro o o' he
    refine (hwrite (writes_of_edit he)).imp_right (.imp_right ?_)
    rintro ⟨it, ⟨⟩, haddr, hnum, hnot⟩
    exact ⟨haddr, hnum, fun h => absurd h hnot⟩
  · intro o' hi
    refine (hwrite (writes_of_install hi)).imp_right fun h => h.resolve_right ?_
    rintro ⟨it, ⟨⟩, -⟩

/-- A commit is answered with `OK`, or it has found no transaction and installed nothing. -/
theorem wlp_commit_ok {cfg frag pending : Int} : wlp (ascDispatch (.commit cfg frag tid pending))
    (fun out s' => out = .reply .ok ∨ ∀ n it, s'.find n = some it → s.find n = some it) c s := by
  rw [ascDispatch, ascProcessCommit]
  refine wlp_ascCheckLength (fun _ _ => .inr fun _ _ h => h) fun _ =>
    wlp_ascCheckConfig (fun _ _ => .inr fun _ _ h => h) fun _ => ?_
  rw [wlp_bind]
  refine (wlp_finish (I := fun _ => True) (Q := fun r s' => r = .ok ∨ s' = s.reap tid) (fun _ =>
    .inr rfl) trivial (fun _ _ _ _ _ _ _ _ _ => trivial) fun _ _ _ _ => .inl rfl).mono fun r s' h =>
    ?_
  rcases h with rfl | rfl
  · exact .pure (.inl rfl)
  · have hfind : ∀ n it, (s.reap tid).find n = some it → s.find n = some it := by
      intro n it hit
      rw [Server.find_reap] at hit
      split at hit
      · exact (Server.live_eq_some.mp hit).1
      · exact hit
    cases r <;> exact .pure (.inr hfind)

/-- A completion gives a number to a record only if it stores the item of the request. -/
theorem Completion.numbers {completion : Completion}
    (hsar : ∀ token, completion = .sar token → it.configNumber = -1) :
    (completion.perm c s it).Numbers n fun o => ∃ cmd, completion = .store cmd ∧ o.key = it.key ∧
      o.addr = it.addr ∧ o.data = it.data ∧ o.configNumber = it.configNumber := by
  have hlink : ∀ {o}, (∃ cmd, completion = .store cmd) ∨ (∃ token, completion = .sar token) →
    Linked s it o →
      o.configNumber = -1 ∨ ∃ cmd, completion = .store cmd ∧ o.key = it.key ∧ o.addr = it.addr ∧
      o.data = it.data ∧
        o.configNumber = it.configNumber := by
    rintro _ (⟨cmd, hcmd⟩ | ⟨token, htoken⟩) ⟨cas, p, rfl⟩
    · exact .inr ⟨cmd, hcmd, rfl, rfl, rfl, rfl⟩
    · exact .inl (hsar token htoken)
  constructor
  · intro o o' he
    cases writes_of_edit he with
    | link hc h => exact (hlink hc h).imp_right .inl
    | rewrite h => exact .inl h.configNumber
    | lease h => exact .inl h.configNumber
    | record _ h => exact .inl h.configNumber
    | version hc h =>
      rcases h with h | ⟨l, cas, data, ⟨⟩, rfl⟩
      · exact .inl h.configNumber
      · exact .inr (.inr ⟨rfl, rfl, fun ⟨cmd, hcmd, _⟩ => absurd hcmd (hc cmd)⟩)
  · intro o' hi
    cases writes_of_install hi with
    | link hc h => exact hlink hc h
    | rewrite h => exact .inl h.configNumber
    | lease h => exact .inl h.configNumber
    | record _ h => exact .inl h.configNumber
    | version _ h =>
      rcases h with h | ⟨l, cas, data, ⟨⟩, -⟩
      exact .inl h.configNumber

end Permissions

/-- An update of the configuration number. -/
def Event.IsUpdate (e : Event) : Prop := ∃ conn n out, e = .line conn (.updateConfiguration n) out

section Runs

variable {c : Settings} {h : History} {w w' : World} {e : Event} {it : Item}

theorem Prepared.number_of_sar {s : Server} {p : Pending} {token : UInt64} (hp : Prepared c s req p)
    (hc : p.completion = .sar token) : p.item.configNumber = -1 := by
  obtain ⟨hpend, -, -⟩ := hp
  cases req with
  | sar => cases hpend; rfl
  | update | swap | iqConcat | oqswap | oqwrite | oqConcat => cases hpend; cases hc
  | _ => cases hpend

/-- The record under a name has no number, has been made by the step, or was there before in the
same memory and with the same number. -/
theorem configNumber_origin (hr : (service c).Run h w) (hstep : World.Step c w e w')
    (he : e.IsIq ∨ e.IsUpdate) (hit : w'.server.find name = some it) :
    it.configNumber = -1 ∨ Made it h ⟨w, e, w'⟩ ∨ ∃ it₀, w.server.find name = some it₀ ∧
      it.addr = it₀.addr ∧ it.configNumber = it₀.configNumber := by
  rcases he with hiq | ⟨conn, n, out, rfl⟩
  · have hadv := hstep.advance hr hiq
    cases e with
    | line conn req out =>
      have hkey : it.key = name := Server.key_of_find hit
      rcases hadv.number Request.numbers (fun _ _ h => h.touch) hit with hnone | hcommits | hold
      · exact .inl hnone
      · cases hcommits with
        | value hmem hd hc =>
          rcases wlp_commit_ok _ _ hstep.of_line with rfl | hsame
          · exact .inr (.inl (.commit rfl (hkey ▸ hmem) (hkey ▸ hd) hc.addr hc.configNumber))
          · exact .inr (.inr ⟨it, hsame _ _ hit, rfl, rfl⟩)
        | marker hmem hn hc =>
          rcases wlp_commit_ok _ _ hstep.of_line with rfl | hsame
          · exact .inr (.inl (.marker rfl hmem (hkey.trans hn) hc.addr hc.configNumber))
          · exact .inr (.inr ⟨it, hsame _ _ hit, rfl, rfl⟩)
      · exact .inr (.inr hold)
    | body conn req p data r =>
      obtain ⟨t₁, ht₁, hlabel, hprep⟩ := exists_line_of_waiting hr hstep.of_body.1
      rcases hadv.number (Completion.numbers fun token htoken => hprep.number_of_sar htoken)
        (fun _ _ h => h) hit with hnone | ⟨cmd, hcomp, hkey, haddr, hdata, hnum⟩ | hold
      · exact .inl hnone
      · obtain ⟨cfg, frag, key, flags, exptime, rfl, hk, hfrag⟩ := hprep.of_store hcomp
        exact .inr (.inl (.store rfl ht₁ hlabel (hkey.trans hk) haddr hdata (hnum.trans hfrag)))
      · exact .inr (.inr hold)
    | _ =>
      have hnone : Perm.none.Numbers name fun _ => False :=
        ⟨fun _ _ he => he.elim, fun _ hi => hi.elim⟩
      rcases hadv.number hnone (fun _ _ h => h) hit with hnone | hfalse | hold
      · exact .inl hnone
      · exact hfalse.elim
      · exact .inr (.inr hold)
  · rw [hstep.updateConfiguration] at hit
    exact .inr (.inr ⟨it, hit, rfl, rfl⟩)

end Runs

/-- The schedule of a value that is stored under the number `1`, read for a refresh and committed
under the number `5`. -/
def retagSchedule : List Input :=
  [.line 0 (.update .set (-1) 1 [0x6b] 0 0 1), .body 0 [0x76, 0x0d, 0x0a],
    .line 1 (.qaread (-1) [0x6b] 1 0 [0x74]), .line 1 (.commit (-1) 5 [0x74] 0)]

instance instDecidableIsIq (e : Event) : Decidable e.IsIq :=
  decidable_of_iff (e.request.all Request.isIq = true) (by simp [Event.IsIq, Option.all_eq_true])

end Rejig
