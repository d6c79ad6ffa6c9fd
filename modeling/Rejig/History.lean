import Rejig.RequestEffect

/-!
# Runs of the server

What one step of `service c` may do, for the steps of IQ requests: the permissions of the requests
carry over to the steps, and a body is completed only on a connection whose line was handled earlier
in the run.  The invariants of runs in the modules that follow are all derived from
`World.Step.advance`.

Some results hold only for clients that keep names apart.  A `Naming` says which names are used as
keys and which as identifiers of transactions.
-/

namespace Rejig

open Prog System List Function

variable {c : Settings} {keys tids : List Bytes} {conn : Nat} {h : History} {req : Request}
  {w w' : World} {P : Perm} {e : Event} {is : List Input} {p : Pending} {s s' : Server} {t : Moment}

namespace Event

/-- The request that a step works on. -/
def request : Event → Option Request
  | line _ req _ => some req
  | body _ req _ _ _ => some req
  | _ => none

/-- What the client is told in a step. -/
def reply : Event → Option Reply
  | line _ _ (.reply r) => some r
  | body _ _ _ _ r => some r
  | _ => none

/-- A step that works on no request, or on an IQ request. -/
def IsIq (e : Event) : Prop := ∀ req, e.request = some req → req.isIq = true

/-- What a step may do to the table. -/
def perm (c : Settings) (s : Server) : Event → Perm
  | line _ req _ => req.perm c s
  | body _ _ p data _ => p.completion.perm c s (p.filled data)
  | _ => .none

end Event

/-- The step completes the request with the reply. -/
def Event.Completes (req : Request) (r : Reply) (e : Event) : Prop :=
  ∃ conn p data, e = .body conn req p data r

instance instDecidableCompletes (req : Request) (r : Reply) (e : Event) :
    Decidable (e.Completes req r) :=
  match e with
  | .body conn req' p data r' => decidable_of_iff (req' = req ∧ r' = r) <| by
      constructor
      · rintro ⟨rfl, rfl⟩
        exact ⟨conn, p, data, rfl⟩
      · rintro ⟨_, _, _, ⟨⟩⟩
        exact ⟨rfl, rfl⟩
  | .line .. | .tick _ | .memory _ | .hangup _ => .isFalse (by rintro ⟨_, _, _, ⟨⟩⟩)

/-! ## Waiting connections -/

namespace Prepared

theorem key_mem (h : Prepared c s req p) : p.item.key ∈ req.keys := by
  obtain ⟨hp, -, hs⟩ := h
  have hname : ∀ key ∈ req.keys, u8Name key = key := fun key hkey =>
    u8Name_of_lt ((hs key hkey).trans_lt (by decide))
  cases req with
  | update | sar | swap | iqConcat | oqswap | oqwrite | oqConcat =>
    cases hp
    simpa [Request.keys] using hname _ mem_cons_self
  | _ => cases hp

theorem short_key (h : Prepared c s req p) : p.item.key.length ≤ keyMaxLen :=
  h.short _ h.key_mem

theorem isIq (h : Prepared c s req p) (hreq : req.isIq = true) : p.completion.isIq = true := by
  obtain ⟨hp, -, -⟩ := h
  cases req with
  | update | sar | swap | iqConcat => cases hp; rfl
  | oqswap | oqwrite | oqConcat => cases hreq
  | _ => cases hp

/-- The item of a request is neither a lease nor a record of a session. -/
theorem plain (h : Prepared c s req p) (body : Bytes) : Plain (p.filled body) := by
  obtain ⟨hp, -, -⟩ := h
  cases req with
  | update | sar | swap | iqConcat | oqswap | oqwrite | oqConcat => cases hp; exact ⟨rfl, rfl⟩
  | _ => cases hp

/-- The item of a command that stores its body. -/
theorem of_store {cmd : Update} (h : Prepared c s req p) (hc : p.completion = .store cmd) :
    ∃ cfg frag key flags exptime, req = .update cmd cfg frag key flags exptime p.vlen ∧
      p.item.key = key ∧ p.item.configNumber = fragConfig frag s.configurationNumber := by
  have hmem := h.key_mem
  obtain ⟨hp, -, -⟩ := h
  cases req with
  | update cmd' cfg frag key flags exptime vlen =>
    cases hp
    cases hc
    exact ⟨cfg, frag, key, flags, exptime, rfl, mem_singleton.mp hmem, rfl⟩
  | sar | swap | iqConcat | oqswap | oqwrite | oqConcat => cases hp; cases hc
  | _ => cases hp

end Prepared

section Waiting

theorem World.Step.of_line {outcome : Outcome}
    (hstep : World.Step c w (.line conn req outcome) w') :
    run (ascDispatch req) c w.server = some (outcome, w'.server) := by
  cases hstep with
  | line _ hrun => exact hrun

theorem World.Step.of_body {data : Bytes} {reply : Reply}
    (hstep : World.Step c w (.body conn req p data reply) w') :
    w.conns conn = some (req, p) ∧ run (ascCompleteNread p data) c w.server = some (reply,
        w'.server) := by
  cases hstep with
  | body hw _ hrun => exact ⟨hw, hrun⟩

/-- A connection changes by being answered or closed, or by a line that asks for a body. -/
theorem World.Step.conns (hstep : World.Step c w e w') (conn : Nat) :
    w'.conns conn = w.conns conn ∨ w'.conns conn = none ∨
      ∃ req p, e = .line conn req (.nread p) ∧ w'.conns conn = some (req, p) := by
  have hupdate : ∀ conn' x, update w.conns conn' x conn = w.conns conn ∨
      conn = conn' ∧ update w.conns conn' x conn = x := by
    intro conn' x
    by_cases hc : conn = conn'
    · subst hc
      exact .inr ⟨rfl, update_self ..⟩
    · exact .inl (update_of_ne hc ..)
  cases hstep with
  | @line conn' req outcome s hidle hrun =>
    rcases hupdate conn' (outcome.waiting req) with heq | ⟨rfl, heq⟩
    · exact .inl heq
    · cases outcome with
      | reply r => exact .inr (.inl heq)
      | nread p => exact .inr (.inr ⟨req, p, rfl, heq⟩)
  | @body conn' req p body reply s hw hlen hrun =>
    rcases hupdate conn' none with heq | ⟨-, heq⟩
    · exact .inl heq
    · exact .inr (.inl heq)
  | tick => exact .inl rfl
  | memory => exact .inl rfl
  | hangup conn' =>
    rcases hupdate conn' none with heq | ⟨-, heq⟩
    · exact .inl heq
    · exact .inr (.inl heq)

/-- A request that waits for its body has left its line in the history. -/
theorem exists_line_of_waiting (hr : (service c).Run h w) (hw : w.conns conn = some (req, p)) :
    ∃ t ∈ h, t.label = .line conn req (.nread p) ∧ Prepared c t.pre.server req p := by
  induction hr generalizing conn req p with
  | init hinit =>
    cases hinit
    cases hw
  | @step h w w' e hr hstep ih =>
    rcases hstep.conns conn with heq | hnone | ⟨req', p', rfl, heq⟩
    · obtain ⟨t, ht, hline⟩ := ih (heq ▸ hw)
      exact ⟨t, mem_cons_of_mem _ ht, hline⟩
    · rw [hnone] at hw
      cases hw
    · rw [heq] at hw
      cases hw
      refine ⟨_, mem_cons_self, rfl, ?_⟩
      cases hstep with
      | line _ hrun => exact prepared_ascDispatch _ _ _ hrun _ rfl

end Waiting

/-! ## Steps -/

/-- What is left of `Evolve` when time may pass. -/
structure Advance (P : Perm) (s s' : Server) : Prop where
  now : s.now ≤ s'.now
  oldestLive : s'.oldestLive = s.oldestLive
  configurationNumber : s'.configurationNumber = s.configurationNumber
  leaseCurrentToken : s.leaseCurrentToken ≤ s'.leaseCurrentToken
  nextAddr : s.nextAddr ≤ s'.nextAddr
  slots : Slots.Evolves (P.Change s.Lapses) s.assoc s'.assoc

theorem Evolve.advance (h : Evolve P s s') : Advance P s s' :=
  ⟨h.now.ge, h.oldestLive, h.configurationNumber, h.leaseCurrentToken, h.nextAddr, h.slots⟩

/-- A property of what is under a name that no permitted change destroys survives. -/
theorem Advance.invariant {I : Option Item → Prop} {n : Bytes} (h : Advance P s s')
    (hI : ∀ o o', P.Change s.Lapses n o o' → I o → I o') (h₀ : I (s.find n)) : I (s'.find n) :=
  h.slots.invariant hI h₀

/-- A step of an IQ request keeps to its permission. -/
theorem World.Step.advance (hr : (service c).Run h w) (hstep : World.Step c w e w') (hiq : e.IsIq) :
    Advance (e.perm c w.server) w.server w'.server := by
  cases hstep with
  | line _ hrun => exact (evolve_ascDispatch (hiq _ rfl) _ _ hrun).advance
  | body hw _ hrun =>
    obtain ⟨t, -, -, hp⟩ := exists_line_of_waiting hr hw
    exact (evolve_ascCompleteNread (hp.isIq (hiq _ rfl)) hp.short_key _ _ hrun).advance
  | tick seconds => exact ⟨Nat.le_add_right _ _, rfl, rfl, le_rfl, le_rfl, .refl _⟩
  | memory heap => exact ⟨le_rfl, rfl, rfl, le_rfl, le_rfl, .refl _⟩
  | hangup conn => exact ⟨le_rfl, rfl, rfl, le_rfl, le_rfl, .refl _⟩

/-- A property of the items under a name is kept, if touching an item keeps it and what the line or
the body of the step writes there has it. -/
theorem World.Step.items {J : Item → Prop} {n : Bytes} (hr : (service c).Run h w)
    (hstep : World.Step c w e w') (hadv : Advance (e.perm c w.server) w.server w'.server)
    (htouch : ∀ it now, J it → J { it with atime := now })
    (hline : ∀ conn req out, e = .line conn req out → ∀ o it, (∀ l, o = some l → J l) →
      req.Writes c w.server o it n → J it)
    (hbody : ∀ conn req p data r s₀, e = .body conn req p data r → Prepared c s₀ req p → ∀ o it,
      (∀ l, o = some l → J l) → p.completion.Writes c w.server (p.filled data) o it n → J it)
    (hw : ∀ it, w.server.find n = some it → J it) : ∀ it, w'.server.find n = some it → J it := by
  refine hadv.invariant (I := fun o => ∀ it, o = some it → J it) ?_ hw
  rintro o o' hchange ho it rfl
  cases e with
  | line conn req out =>
    cases hchange with
    | touch now => exact htouch _ now (ho _ rfl)
    | edit he => exact hline conn req out rfl _ _ ho (Request.writes_of_edit he)
    | install hi => exact hline conn req out rfl _ _ ho (Request.writes_of_install hi)
  | body conn req p data r =>
    obtain ⟨t, -, -, hp⟩ := exists_line_of_waiting hr hstep.of_body.1
    cases hchange with
    | touch now => exact htouch _ now (ho _ rfl)
    | edit he => exact hbody conn req p data r _ rfl hp _ _ ho (Completion.writes_of_edit he)
    | install hi => exact hbody conn req p data r _ rfl hp _ _ ho (Completion.writes_of_install hi)
  | _ =>
    cases hchange with
    | touch now => exact htouch _ now (ho _ rfl)
    | edit he => exact he.elim
    | install hi => exact hi.elim

/-! ## Names -/

/-- Which names clients use as keys and which as identifiers. -/
structure Naming where
  isKey : Bytes → Prop
  isTid : Bytes → Prop
  key_unprefixed : ∀ {n}, isKey n → Unprefixed n
  tid_unprefixed : ∀ {n}, isTid n → Unprefixed n
  disjoint : ∀ {n}, isKey n → ¬ isTid n

/-- The naming with the listed keys and identifiers. -/
def Naming.ofLists (keys tids : List Bytes) (hk : ∀ n ∈ keys, Unprefixed n)
    (ht : ∀ n ∈ tids, Unprefixed n) (hd : ∀ n ∈ keys, n ∉ tids) : Naming where
  isKey n := n ∈ keys
  isTid n := n ∈ tids
  key_unprefixed := hk _
  tid_unprefixed := ht _
  disjoint := hd _

theorem unprefixed_k : ∀ n ∈ [[0x6b]], Unprefixed n := by decide

theorem unprefixed_nil : ∀ n ∈ ([] : List Bytes), Unprefixed n := by simp

theorem k_not_mem_nil : ∀ n ∈ ([[0x6b]] : List Bytes), n ∉ [] := by simp

/-- The naming of the keys `j` and `k` and the transactions `t` and `u`. -/
def pairNaming : Naming :=
  .ofLists [[0x6b], [0x6a]] [[0x74], [0x75]] (by decide) (by decide) (by decide)

/-- A step whose request, if it works on one, is an IQ request with names of the naming. -/
structure Event.Iq (N : Naming) (e : Event) : Prop where
  isIq : e.IsIq
  keys : ∀ req, e.request = some req → ∀ key ∈ req.keys, N.isKey key
  ids : ∀ req, e.request = some req → ∀ tid ∈ req.ids, N.isTid tid

/-- A step whose request files no record under the name of a key. -/
def Event.FilesApart (N : Naming) (e : Event) : Prop :=
  ∀ req, e.request = some req → ∀ n ∈ req.records, ¬ N.isKey n

/-- A run of IQ requests with names of the naming. -/
structure IqRun (c : Settings) (N : Naming) (h : History) (w : World) : Prop where
  run : (service c).Run h w
  iq : ∀ t ∈ h, t.label.Iq N

namespace IqRun

variable {N : Naming}

/-- The invariant rule for runs of IQ requests. -/
theorem invariant {I : History → World → Prop} (h₀ : I [] .start)
    (hstep : ∀ h w e w', IqRun c N h w → I h w → World.Step c w e w' → e.Iq N →
      Advance (e.perm c w.server) w.server w'.server → I (⟨w, e, w'⟩ :: h) w')
    (hr : IqRun c N h w) : I h w := by
  obtain ⟨hr, hiq⟩ := hr
  induction hr with
  | init hw =>
    cases hw
    exact h₀
  | @step h w w' e hr hs ih =>
    have hiq' : ∀ t ∈ h, t.label.Iq N := fun t ht => hiq t (mem_cons_of_mem _ ht)
    have he : e.Iq N := hiq _ mem_cons_self
    exact hstep h w e w' ⟨hr, hiq'⟩ (ih hiq') hs he (World.Step.advance hr hs he.isIq)

/-- `LEASE_START`, and no `flush_all`. -/
theorem registers (hr : IqRun c N h w) :
    5 ≤ w.server.leaseCurrentToken ∧ w.server.oldestLive = 0 := by
  refine invariant (I := fun _ w => 5 ≤ w.server.leaseCurrentToken ∧ w.server.oldestLive = 0)
    ⟨le_rfl, rfl⟩ ?_ hr
  intro h w e w' _ ih _ _ hadv
  exact ⟨ih.1.trans hadv.leaseCurrentToken, hadv.oldestLive.trans ih.2⟩

/-- The token counter and the clock do not go back. -/
theorem mono (hr : IqRun c N h w) (ht : t ∈ h) :
    t.pre.server.leaseCurrentToken ≤ w.server.leaseCurrentToken ∧
    t.pre.server.now ≤ w.server.now := by
  refine invariant (I := fun h w => ∀ t ∈ h,
    t.pre.server.leaseCurrentToken ≤ w.server.leaseCurrentToken ∧ t.pre.server.now ≤ w.server.now)
    (by simp) ?_ hr t ht
  intro h w e w' _ ih _ _ hadv t ht
  rcases mem_cons.mp ht with rfl | ht
  · exact ⟨hadv.leaseCurrentToken, hadv.now⟩
  · exact ⟨(ih t ht).1.trans hadv.leaseCurrentToken, (ih t ht).2.trans hadv.now⟩

/-- The history before a step of a run. -/
theorem of_cons (hr : IqRun c N (t :: h) w) :
    IqRun c N h t.pre ∧ World.Step c t.pre t.label t.post ∧ t.label.Iq N ∧ w = t.post := by
  obtain ⟨hr, hiq⟩ := hr
  cases hr with
  | step hr hs =>
    exact ⟨⟨hr, fun t ht => hiq t (mem_cons_of_mem _ ht)⟩, hs, hiq _ mem_cons_self, rfl⟩

end IqRun

/-- The test that a step is one of an IQ request with the listed names. -/
def Event.iqNamed (keys tids : List Bytes) (e : Event) : Bool :=
  e.request.all fun req => req.isIq && req.keys.all (· ∈ keys) && req.ids.all (· ∈ tids)

theorem Event.Iq.of_named {hk : ∀ n ∈ keys, Unprefixed n} {ht : ∀ n ∈ tids, Unprefixed n}
    {hd : ∀ n ∈ keys, n ∉ tids} (h : e.iqNamed keys tids = true) :
    e.Iq (.ofLists keys tids hk ht hd) := by
  have hreq : ∀ req, e.request = some req → (req.isIq = true ∧ ∀ key ∈ req.keys, key ∈ keys) ∧
      ∀ tid ∈ req.ids, tid ∈ tids := by
    intro req hreq
    simpa [Event.iqNamed, hreq] using h
  exact ⟨fun req h => (hreq req h).1.1, fun req h => (hreq req h).1.2, fun req h => (hreq req h).2⟩

/-- A schedule of IQ requests with the listed names goes on with a run of IQ requests. -/
theorem iqRun_of_play {hk : ∀ n ∈ keys, Unprefixed n} {ht : ∀ n ∈ tids, Unprefixed n}
    {hd : ∀ n ∈ keys, n ∉ tids} {h' : History} (hr : IqRun c (.ofLists keys tids hk ht hd) h w)
    (hp : play c is ([], w) = some (h', w')) (hnamed : h'.all (·.label.iqNamed keys tids) = true) :
    IqRun c (.ofLists keys tids hk ht hd) (h' ++ h) w' := by
  refine ⟨run_of_play hr.run (play_append hp), fun t hmem => ?_⟩
  rcases mem_append.mp hmem with hnew | hold
  · exact .of_named (all_eq_true.mp hnamed t hnew)
  · exact hr.iq t hold

theorem iqRun_start {N : Naming} : IqRun c N [] .start :=
  ⟨.init rfl, fun t ht => by cases ht⟩

/-- A schedule of IQ requests for a server that has just started. -/
theorem iqRun_of_play_start {hk : ∀ n ∈ keys, Unprefixed n} {ht : ∀ n ∈ tids, Unprefixed n}
    {hd : ∀ n ∈ keys, n ∉ tids} (hp : play c is ([], .start) = some (h, w))
    (hnamed : h.all (·.label.iqNamed keys tids) = true) :
    IqRun c (.ofLists keys tids hk ht hd) h w := by
  have hr : IqRun c (.ofLists keys tids hk ht hd) (h ++ []) w := iqRun_of_play iqRun_start hp hnamed
  rwa [append_nil] at hr

theorem playable_iq {hk : ∀ n ∈ keys, Unprefixed n} {ht : ∀ n ∈ tids, Unprefixed n}
    {hd : ∀ n ∈ keys, n ∉ tids} :
    Playable c (IqRun c (.ofLists keys tids hk ht hd)) (·.label.iqNamed keys tids) :=
  fun _ _ _ => iqRun_of_play_start

end Rejig
