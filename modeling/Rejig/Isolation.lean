import Rejig.Turn

/-!
# Increments of two transactions

A transaction that increments a key holds an increment lease on it, and until it finishes an
increment of another transaction is to be answered `ABORT`.  The lines of `iqincr` and `iqdecr` name
the key, the amount and the transaction, in this order; the handler takes the transaction from the
position of the amount.

So the transaction that the server sees is the text of the amount.  A commit finds what the line has
left only if the client uses the amount as the identifier, and two transactions that add the same
amount are one transaction for the server.
-/

namespace Rejig

open Prog Server Option List Bool

variable {f : Content → Content} {ms : History} {w : World} {status : Content → IqResult}
  {pending : Int}

/-! ## Lines -/

/-- The step handles a line that changes the key by an amount for a transaction, and the line passes
the tests of its handler. -/
structure Asks (k delta tid : Bytes) (incr : Bool) (amount : UInt64) (m : Moment) : Prop where
  line : ∃ conn cfg out, m.label = .line conn (.iqDelta incr cfg k delta tid) out ∧
    (cfg = -1 ∨ cfg = m.pre.server.configurationNumber)
  config : m.pre.server.configurationNumber ≠ -1
  short : k.length ≤ keyMaxLen
  amount : mcStrtoull delta = some amount

/-- The change that a step makes to a key for a transaction, when the transaction is told that it is
made. -/
def changeOf (k t : Bytes) (m : Moment) : Content → Content :=
  match m.label with
  | .line _ (.iqDelta incr _ k' delta tid) (.reply (.okPending ..)) =>
    if k' = k ∧ tid = t then (mcStrtoull delta).elim id (Content.plus incr) else id
  | _ => id

/-- The changes that a sequence of steps makes to a key for a transaction. -/
def changesOf (k t : Bytes) (ms : History) (x : Content) : Content := ms.foldr (changeOf k t) x

/-- The step leaves the key alone, also in the lists of the transactions, and does not create
`t`. -/
structure Elsewhere (k t : Bytes) (m : Moment) : Prop where
  keyState : m.post.server.keyState k = m.pre.server.keyState k
  listed : ∀ n, k ∈ m.post.server.listed n ↔ k ∈ m.pre.server.listed n
  fresh : m.pre.server.live t = none → m.post.server.live t = none
  refused : ∀ conn incr cfg delta tid r,
    m.label = .line conn (.iqDelta incr cfg k delta tid) (.reply r) → r ∈ Reply.refusals

section Lines

variable {c : Settings} {N : Naming} {h : History} {k delta tid t : Bytes} {incr : Bool}
  {amount : UInt64} {m : Moment} {r : IqDeltaResult}

theorem Content.plus_of_plusStatus {x : Content} (hx : x.plusStatus ≠ .lease) :
    x.plus incr amount = x := by
  rw [Content.plusStatus] at hx
  cases hn : mcStrtoullLen x.data with
  | none => rw [Content.plus, hn, elim_none]
  | some n =>
    rw [hn] at hx
    exact absurd rfl hx

theorem Asks.increments (ha : Asks k delta tid incr amount m) (hr : IqRun c N h m.pre)
    (hstep : World.Step c m.pre m.label m.post) (he : m.label.Iq N) (hheap : m.pre.server.heap = [])
    (hlasts : m.pre.server.now < m.pre.server.leaseExpiry c) (hlen : delta.length < 256)
    (hfree : ¬ N.isKey delta) (hkind : ∀ l, m.pre.server.live (leaseKey k) = some l →
      l.lease ≠ .none) :
    ∃ r, m.label.reply = some (ascIqDeltaReply r) ∧
      Increments c k delta (Content.plus incr amount) Content.plusStatus m.pre.server r
      m.post.server := by
  obtain ⟨⟨conn, cfg, out, hlabel, hcfg⟩, hconfig, hshort, hamount⟩ := ha
  rw [hlabel] at hstep he ⊢
  have hk : N.isKey k := he.keys _ rfl k (by simp [Request.keys])
  have hpass : ¬ (decide (cfg ≠ -1) && decide (cfg ≠ m.pre.server.configurationNumber)) = true := by
    rcases hcfg with rfl | rfl <;> simp
  have hwlp : wlp (ascDispatch (.iqDelta incr cfg k delta tid)) (fun out s' =>
      ∃ r, out = .reply (ascIqDeltaReply r) ∧
        Increments c k delta (Content.plus incr amount) Content.plusStatus m.pre.server r s') c
      m.pre.server := by
    rw [ascDispatch, ascProcessIqDelta, ascCheckConfig, wlp_bind, wlp_get]
    dsimp only
    rw [if_neg hpass, if_neg hconfig, ascCheckLength, if_neg (Nat.not_lt.mpr hshort), hamount]
    dsimp only
    refine .bind (((hr.calm hheap hlasts).increments_itemIqincrIqdecr hk hshort hlen
      (unprefixed_of_mcStrtoull hamount) hfree hkind).mono fun r s' hinc => ?_)
    exact .pure ⟨r, rfl, hinc⟩
  obtain ⟨r, rfl, hinc⟩ := hwlp _ _ hstep.of_line
  exact ⟨r, rfl, hinc⟩

theorem Asks.changeOf_eq (ha : Asks k delta tid incr amount m)
    (hreply : m.label.reply = some (ascIqDeltaReply r)) :
    changeOf k t m = if tid = t ∧ r.status = .lease then Content.plus incr amount else id := by
  obtain ⟨⟨conn, cfg, out, hlabel, -⟩, -, -, hamount⟩ := ha
  rw [hlabel] at hreply
  cases out with
  | nread p => cases hreply
  | reply rep =>
    cases hreply
    obtain ⟨status, pending, token⟩ := r
    rw [changeOf, hlabel]
    cases status <;> simp [ascIqDeltaReply, hamount]

theorem status_eq_abort (h : ascIqDeltaReply r = .abort) : r.status = .abort := by
  rw [ascIqDeltaReply] at h
  split at h
  case h_3 hstatus => exact hstatus
  all_goals cases h

theorem Elsewhere.changeOf_eq (he : Elsewhere k t m) : changeOf k tid m = id := by
  rw [changeOf]
  split
  · next conn incr cfg k' delta tid' p token hlabel =>
    by_cases hk : k' = k
    · subst hk
      have hmem := he.refused _ _ _ _ _ _ hlabel
      simp [Reply.refusals] at hmem
    · rw [if_neg fun hand => hk hand.1]
  · rfl

end Lines

/-! ## While the lease is held -/

/-- Since `s₀` the key has been given an increment lease, and `d` has listed it, but no other
transaction has. -/
structure IncrementedBy (N : Naming) (k d t : Bytes) (s₀ s : Server) : Prop where
  value : (s.keyState k).value = (s₀.keyState k).value
  lease : ∃ l, (s.keyState k).lease = some l ∧ l.lease = .qInc
  listed : ∀ n, Unprefixed n → ¬ N.isKey n → k ∉ s₀.listed n → (k ∈ s.listed n ↔ n = d)
  fresh : t ≠ d → s.live t = none

section Held

variable {c : Settings} {N : Naming} {h : History} {k d t delta tid : Bytes} {incr : Bool}
  {amount : UInt64} {m : Moment} {s₀ s s' : Server} {r : IqDeltaResult}

/-- The first line is granted the lease. -/
theorem IncrementedBy.of_increments (hs : s.Calm c N) (hk : N.isKey k) (ht : N.isTid t)
    (hlen : d.length < 256) (hun : Unprefixed d) (hfree : ¬ N.isKey d) (hnew : k ∉ s.listed d)
    (hfresh : s.live t = none) (hlease : ∀ l, s.live (leaseKey k) = some l → l.lease = .i)
    (hinc : Increments c k d f status s r s') :
    IncrementedBy N k d t s s' ∧ (s.keyState k).IncrementGrants s.token status r ∧
      s'.keyState k = (s.keyState k).increment s.now (s.leaseExpiry c) s.token f := by
  have hi : ∀ l, (s.keyState k).lease = some l → l.lease = .i := by
    intro l hl
    obtain ⟨it, hit, rfl⟩ := map_eq_some_iff.mp hl
    exact hlease it hit
  cases hinc with
  | owns hl hne => exact absurd (hi _ hl) hne
  | aborts hl hne => exact absurd (hi _ hl) hne
  | grants _ hgrants hfiles =>
    refine ⟨⟨?_, ?_, fun n hn hfree' hnew' => ?_, fun hne => ?_⟩, hgrants, hfiles.key⟩
    · rw [hfiles.key, KeyState.increment]
      split <;> rfl
    · rw [hfiles.key]
      refine ⟨{ data := decimal s.token, exptime := s.leaseExpiry c, lease := .qInc, p := 0 }, ?_,
        rfl⟩
      have hlasts := hs.lasts
      rw [KeyState.increment]
      split <;> simp [KeyState.updated, KeyState.quarantine, KeyState.granted, filter_some,
        Content.expired, hlasts]
    · by_cases hne : n = d
      · subst hne
        rw [hfiles.mem_listed hs.lists hun hfree hs.lasts]
        simp
      · rw [hfiles.listed_of_ne (not_mem_recordNames_of_free hk hn hfree') hne]
        simp [hne, hnew']
    · have htk := not_mem_recordNames_of_free hk (N.tid_unprefixed ht) fun hkey =>
        N.disjoint hkey ht
      rw [live_eq_none_iff, hfiles.other t htk hne, ← live_eq_none_iff]
      exact hfresh

/-- A later line changes the pending version if its amount is that of the first one, and is aborted
if it is not. -/
theorem IncrementedBy.asks (hI : IncrementedBy N k d t s₀ s) (hk : N.isKey k) (ht : N.isTid t)
    (hun : Unprefixed delta) (hfree : ¬ N.isKey delta) (hnew : k ∉ s₀.listed delta)
    (hinc : Increments c k delta f status s r s') : IncrementedBy N k d t s₀ s' ∧
      (delta = d ∧ r.status = (s.keyState k).version.elim .leaseNoValue status ∧
        (s'.keyState k).version = (s.keyState k).version.map f ∨
      delta ≠ d ∧ r.status = .abort ∧ (s'.keyState k).version = (s.keyState k).version) := by
  obtain ⟨l, hl, hkind⟩ := hI.lease
  have hlist := hI.listed delta hun hfree hnew
  have htk : t ∉ recordNames k :=
    not_mem_recordNames_of_free hk (N.tid_unprefixed ht) fun hkey => N.disjoint hkey ht
  cases hinc with
  | grants hnone =>
    rw [hl, filter_some, hkind] at hnone
    cases hnone
  | owns _ _ hmem hstatus _ hsteps =>
    refine ⟨⟨?_, ⟨l, ?_, hkind⟩, fun n hn hfree' hnew' => ?_, fun hne => ?_⟩,
      .inl ⟨hlist.mp hmem, hstatus, ?_⟩⟩
    · rw [hsteps.key]
      exact hI.value
    · rw [hsteps.key]
      exact hl
    · rw [hsteps.listed (not_mem_recordNames_of_free hk hn hfree'), hI.listed n hn hfree' hnew']
    · rw [live_eq_none_iff, hsteps.other t htk, ← live_eq_none_iff]
      exact hI.fresh hne
    · rw [hsteps.key]
      rfl
  | aborts _ _ hmem hstatus hsame =>
    refine ⟨⟨?_, ⟨l, ?_, hkind⟩, fun n hn hfree' hnew' => ?_, fun hne => ?_⟩,
      .inr ⟨mt hlist.mpr hmem, hstatus, ?_⟩⟩
    · rw [hsame.keyState k]
      exact hI.value
    · rw [hsame.keyState k]
      exact hl
    · rw [hsame.listed n, hI.listed n hn hfree' hnew']
    · rw [live_eq_none_iff, hsame.record t, ← live_eq_none_iff]
      exact hI.fresh hne
    · rw [hsame.keyState k]

theorem IncrementedBy.elsewhere (hI : IncrementedBy N k d t s₀ m.pre.server)
    (he : Elsewhere k t m) :
    IncrementedBy N k d t s₀ m.post.server where
  value := by
    rw [he.keyState]
    exact hI.value
  lease := by
    rw [he.keyState]
    exact hI.lease
  listed n hn hfree hnew := (he.listed n).trans (hI.listed n hn hfree hnew)
  fresh hne := he.fresh (hI.fresh hne)

/-- The sequence up to a step. -/
theorem IqRun.of_append (hr : IqRun c N (ms ++ m :: h) w) :
    IqRun c N h m.pre ∧ World.Step c m.pre m.label m.post ∧ m.label.Iq N := by
  obtain ⟨hrun, hstep⟩ := System.Run.of_suffix hr.run
  have hiq := hr.iq
  refine ⟨⟨hrun, fun t ht => hiq t ?_⟩, hstep, hiq m (by simp)⟩
  exact mem_append_right _ (mem_cons_of_mem _ ht)

/-- A step with enough memory that asks for a change of the key or leaves it alone.  The text of an
amount is not the name of a key, and in `s₀` it is not that of a transaction which lists the key. -/
structure Incrementing (c : Settings) (N : Naming) (k t : Bytes) (s₀ : Server)
    (m : Moment) : Prop where
  step : (∃ delta tid incr amount, Asks k delta tid incr amount m) ∨ Elsewhere k t m
  names : ∀ delta tid incr amount, Asks k delta tid incr amount m →
    delta.length < 256 ∧ ¬ N.isKey delta ∧ k ∉ s₀.listed delta
  heap : m.pre.server.heap = []
  lasts : m.pre.server.now < m.pre.server.leaseExpiry c

/-- One line while the lease is held. -/
theorem IncrementedBy.line (hI : IncrementedBy N k d t s₀ m.pre.server) (hr : IqRun c N h m.pre)
    (hstep : World.Step c m.pre m.label m.post) (he : m.label.Iq N) (hk : N.isKey k)
    (ht : N.isTid t) (hm : Incrementing c N k t s₀ m) (ha : Asks k delta tid incr amount m) :
    ∃ r, m.label.reply = some (ascIqDeltaReply r) ∧ IncrementedBy N k d t s₀ m.post.server ∧
      (delta = d ∧ r.status = (m.pre.server.keyState k).version.elim .leaseNoValue
        Content.plusStatus ∧
        (m.post.server.keyState k).version = (m.pre.server.keyState k).version.map
        (Content.plus incr amount) ∨
      delta ≠ d ∧ r.status = .abort ∧ (m.post.server.keyState k).version =
        (m.pre.server.keyState k).version) := by
  obtain ⟨hlen, hfree, hnew⟩ := hm.names delta tid incr amount ha
  obtain ⟨r, hreply, hinc⟩ := ha.increments hr hstep he hm.heap hm.lasts hlen hfree fun l hl => by
    obtain ⟨l', hl', hkind⟩ := hI.lease
    rw [Server.keyState, View.keyState, hl] at hl'
    cases hl'
    rw [← Item.content_lease, hkind]
    decide
  exact ⟨r, hreply, hI.asks hk ht (unprefixed_of_mcStrtoull ha.amount) hfree hnew hinc⟩

/-- The lease stays with the first transaction through a sequence of steps. -/
theorem IncrementedBy.run (hI : IncrementedBy N k d t s₀ m.post.server)
    (hrun : IqRun c N (ms ++ m :: h) w) (hk : N.isKey k) (ht : N.isTid t)
    (hms : ∀ m' ∈ ms, Incrementing c N k t s₀ m') :
    IncrementedBy N k d t s₀ w.server := by
  induction ms generalizing w with
  | nil =>
    obtain ⟨-, -, -, rfl⟩ := hrun.of_cons
    exact hI
  | cons m' ms ih =>
    obtain ⟨hr, hstep, he, rfl⟩ := hrun.of_cons
    have hpre := ih hr fun m'' hm'' => hms m'' (mem_cons_of_mem _ hm'')
    have hm' := hms m' mem_cons_self
    rcases hm'.step with ⟨delta, tid, incr, amount, ha⟩ | helse
    · obtain ⟨_, -, hpost, -⟩ := hpre.line hr hstep he hk ht hm' ha
      exact hpost
    · exact hpre.elsewhere helse

/-- If nobody else uses the amount of the transaction, the pending version has its changes. -/
theorem IncrementedBy.version_run (hI : IncrementedBy N k t t s₀ m.post.server)
    (hrun : IqRun c N (ms ++ m :: h) w) (hk : N.isKey k) (ht : N.isTid t)
    (hms : ∀ m' ∈ ms, Incrementing c N k t s₀ m')
    (hapart : ∀ m' ∈ ms, ∀ delta tid incr amount, Asks k delta tid incr amount m' → tid ≠ t →
      delta ≠ t) :
    (w.server.keyState k).version = (m.post.server.keyState k).version.map (changesOf k t ms) := by
  induction ms generalizing w with
  | nil =>
    obtain ⟨-, -, -, rfl⟩ := hrun.of_cons
    exact (congrFun map_id _).symm
  | cons m' ms ih =>
    obtain ⟨hr, hstep, he, rfl⟩ := hrun.of_cons
    have hms' : ∀ m'' ∈ ms, Incrementing c N k t s₀ m'' := fun m'' hm'' =>
      hms m'' (mem_cons_of_mem _ hm'')
    have hpre := hI.run hr hk ht hms'
    have hversion := ih hr hms' fun m'' hm'' => hapart m'' (mem_cons_of_mem _ hm'')
    have hm' := hms m' mem_cons_self
    have hchange : (m'.post.server.keyState k).version =
        (m'.pre.server.keyState k).version.map (changeOf k t m') := by
      rcases hm'.step with ⟨delta, tid, incr, amount, ha⟩ | helse
      · obtain ⟨r, hreply, -, ⟨rfl, hstatus, hv⟩ | ⟨-, hstatus, hv⟩⟩ :=
          hpre.line hr hstep he hk ht hm' ha
        · have htid : tid = delta := by
            by_contra hne
            exact hapart m' mem_cons_self _ _ _ _ ha hne rfl
          rw [hv, ha.changeOf_eq hreply, hstatus]
          cases (m'.pre.server.keyState k).version with
          | none => rfl
          | some pv =>
            rw [elim_some, map_some, map_some]
            split
            · rfl
            · next hno => exact congrArg some (Content.plus_of_plusStatus fun hl => hno ⟨htid, hl⟩)
        · rw [hv, ha.changeOf_eq hreply, if_neg (by simp [hstatus]), Option.map_id]
          rfl
      · rw [helse.keyState, helse.changeOf_eq, Option.map_id]
        rfl
    rw [hchange, hversion, Option.map_map]
    rfl

end Held

/-! ## Isolation -/

/-- Every line of another transaction is answered `ABORT` and leaves the pending version alone, and
the commit makes the copy of the value that the first line took, with the changes of the
transaction, the value of the key. -/
structure Isolated (c : Settings) (k t : Bytes) (m₁ : Moment) (ms : History) (r : Reply)
    (s' : Server) :
    Prop where
  aborts : ∀ m ∈ ms, ∀ delta tid incr amount, Asks k delta tid incr amount m → tid ≠ t →
    m.label.reply = some .abort ∧
      (m.post.server.keyState k).version = (m.pre.server.keyState k).version
  committed : r = .ok
  value : (s'.keyState k).value.map (fun x => (x.data, x.dataflags)) =
    ((m₁.pre.server.keyState k).copied m₁.pre.server.now (m₁.pre.server.leaseExpiry c)).map
      ((fun x => (x.data, x.dataflags)) ∘ changesOf k t (ms ++ [m₁]))
  lease : (s'.keyState k).lease = none
  version : (s'.keyState k).version = none

section Isolation

variable {c : Settings} {N : Naming} {h : History} {k d t : Bytes} {incr : Bool} {amount : UInt64}
  {m₁ m₂ : Moment}

/-- The pending version that the first line leaves. -/
theorem KeyState.version_increment {x : KeyState} {now exp : Nat} {token : UInt64}
    {r : IqDeltaResult} (hversion : x.version = none) (hvalue : ∀ v, x.value = some v → v.data ≠ [])
    (hgrants : x.IncrementGrants token Content.plusStatus r)
    (hf : ∀ y : Content, y.plusStatus ≠ .lease → f y = y) :
    (x.increment now exp token f).version = (x.copied now exp).map
      (if r.status = .lease then f else id) := by
  cases hv : x.value with
  | none =>
    rw [increment_none hv, quarantine, copied_none hv, hversion]
    rfl
  | some v =>
    obtain ⟨y, hy, hstatus⟩ := hgrants.status v hv
    rw [increment_some hv, updated, quarantine, copied_some hv, if_neg (hvalue v hv), filter_some]
    split
    · rw [map_some, map_some]
      split
      · rfl
      · next hno =>
        refine congrArg some (hf _ ?_)
        rwa [hstatus, Content.plusStatus, hy] at hno
    · rfl

/-- What the first line leaves. -/
theorem IncrementedBy.first (hr : IqRun c N h m₁.pre) (hstep : World.Step c m₁.pre m₁.label m₁.post)
    (he : m₁.label.Iq N) (hk : N.isKey k) (ht : N.isTid t) (hm₁ : Asks k d t incr amount m₁)
    (hm : Incrementing c N k t m₁.pre.server m₁) (hfresh : m₁.pre.server.live t = none)
    (hlease : ∀ l, m₁.pre.server.live (leaseKey k) = some l → l.lease = .i)
    (hversion : m₁.pre.server.live (versionKey k) = none) :
    IncrementedBy N k d t m₁.pre.server m₁.post.server ∧
      (m₁.post.server.keyState k).version = ((m₁.pre.server.keyState k).copied m₁.pre.server.now
        (m₁.pre.server.leaseExpiry c)).map (changeOf k t m₁) := by
  have hs := hr.calm hm.heap hm.lasts
  obtain ⟨hlen, hfree, hnew⟩ := hm.names d t incr amount hm₁
  obtain ⟨r, hreply, hinc⟩ := hm₁.increments hr hstep he hm.heap hm.lasts hlen hfree fun l hl => by
    rw [hlease l hl]
    decide
  obtain ⟨hI, hgrants, hstate⟩ := IncrementedBy.of_increments hs hk ht hlen
    (unprefixed_of_mcStrtoull hm₁.amount) hfree hnew hfresh hlease hinc
  refine ⟨hI, ?_⟩
  have hnone : (m₁.pre.server.keyState k).version = none := by
    rw [Server.keyState, View.keyState, hversion]
    rfl
  rw [hstate, KeyState.version_increment hnone (hs.value_ne_nil (N.key_unprefixed hk)) hgrants
    fun _ => Content.plus_of_plusStatus, hm₁.changeOf_eq hreply]
  simp

/-- The commit of the transaction. -/
theorem IncrementedBy.commit {s₀ s s' : Server} {cfgId : Int} (hI : IncrementedBy N k t t s₀ s)
    (hs : s.Calm c N) (hstate : s'.keyState k = (s.keyState k).commit s.now (s.leaseExpiry c) t
      pending cfgId) :
    (s'.keyState k).value.map (fun x => (x.data, x.dataflags)) =
        (s.keyState k).version.map (fun x => (x.data, x.dataflags)) ∧
      (s'.keyState k).lease = none ∧ (s'.keyState k).version = none := by
  obtain ⟨l, hl, hkind⟩ := hI.lease
  have hq : l.hasQLease = true := by
    rw [Content.hasQLease, hkind]
    rfl
  have hinv : l.lease ≠ .qInv := by
    rw [hkind]
    decide
  rw [hstate, KeyState.commit, hl, filter_some, hq, if_pos rfl, elim_some]
  refine ⟨?_, by rw [KeyState.committed, KeyState.droppedLease, if_pos hinv], rfl⟩
  rw [KeyState.committed, KeyState.applied]
  cases hv : (s.keyState k).version with
  | none => rfl
  | some pv =>
    obtain ⟨it, hit, rfl⟩ := map_eq_some_iff.mp hv
    have hne : it.content.data ≠ [] := (hs.version k it hit).2
    rw [if_neg (by simp [hinv])]
    dsimp only
    rw [if_neg hne]
    rfl

/-- Increments of different transactions are isolated, exactly if the transaction is named by its
amount and no other transaction uses this amount. -/
theorem increments_isolated_iff {conn : Nat} {cfg frag pending : Int} {r : Reply}
    (hrun : IqRun c N (m₂ :: ms ++ m₁ :: h) w) (hk : N.isKey k) (ht : N.isTid t)
    (hm₁ : Asks k d t incr amount m₁) (hms : ∀ m ∈ ms ++ [m₁], Incrementing c N k t m₁.pre.server m)
    (hfresh : m₁.pre.server.live t = none)
    (hlease : ∀ l, m₁.pre.server.live (leaseKey k) = some l → l.lease = .i)
    (hversion : m₁.pre.server.live (versionKey k) = none)
    (hcommit : m₂.label = .line conn (.commit cfg frag t pending) (.reply r))
    (hr : r ∉ Reply.refusals) (hheap : m₂.pre.server.heap = [])
    (hlasts : m₂.pre.server.now < m₂.pre.server.leaseExpiry c) :
    Isolated c k t m₁ ms r m₂.post.server ↔
      d = t ∧ ∀ m ∈ ms, ∀ delta tid incr amount, Asks k delta tid incr amount m → tid ≠ t →
      delta ≠ d := by
  have hms' : ∀ m ∈ ms, Incrementing c N k t m₁.pre.server m := fun m hm =>
    hms m (mem_append_left _ hm)
  obtain ⟨hr₁, hstep₂, he₂, -⟩ : IqRun c N (ms ++ m₁ :: h) m₂.pre ∧ _ := hrun.of_cons
  obtain ⟨hr₀, hstep₁, he₁⟩ := hr₁.of_append
  obtain ⟨hI, hfirst⟩ := IncrementedBy.first hr₀ hstep₁ he₁ hk ht hm₁
    (hms m₁ (mem_append_right _ mem_cons_self)) hfresh hlease hversion
  have hlast := hI.run hr₁ hk ht hms'
  -- every line of the sequence finds the lease held
  have hline : ∀ m ∈ ms, ∀ delta tid incr amount, Asks k delta tid incr amount m →
      ∃ r, m.label.reply = some (ascIqDeltaReply r) ∧ (delta = d ∧ r.status ≠ .abort ∨
        delta ≠ d ∧ r.status = .abort ∧
          (m.post.server.keyState k).version = (m.pre.server.keyState k).version) := by
    intro m hm delta tid incr amount ha
    obtain ⟨newer, older, rfl⟩ := append_of_mem hm
    rw [append_assoc] at hr₁
    obtain ⟨hr, hstep, he⟩ := hr₁.of_append
    have hpre := hI.run hr hk ht fun m' hm' =>
      hms' m' (mem_append_right _ (mem_cons_of_mem _ hm'))
    obtain ⟨r, hreply, -, ⟨hd, hstatus, -⟩ | hab⟩ := hpre.line hr hstep he hk ht (hms' m hm) ha
    · refine ⟨r, hreply, .inl ⟨hd, ?_⟩⟩
      rw [hstatus]
      cases (m.pre.server.keyState k).version with
      | none => decide
      | some pv =>
        rw [elim_some, Content.plusStatus]
        split <;> decide
    · exact ⟨r, hreply, .inr hab⟩
  have hturn : Turn c m₂.pre.server (.line conn (.commit cfg frag t pending) (.reply r))
    m₂.post.server := by
    rw [hcommit] at hstep₂ he₂
    exact hstep₂.turn hr₁ he₂ hheap hlasts rfl rfl (by simp [Request.filers]) (by simp)
  cases hturn with
  | refused hmem => exact absurd hmem hr
  | commit hreply hend =>
    constructor
    · intro hiso
      constructor
      · by_contra hne
        have hnone := hlast.fresh (Ne.symm hne)
        rw [hiso.committed, hnone] at hreply
        cases hreply
      · intro m hm delta tid incr amount ha hne hd
        obtain ⟨r, hreply, ⟨-, hstatus⟩ | ⟨hd', -⟩⟩ := hline m hm delta tid incr amount ha
        · rw [(hiso.aborts m hm delta tid incr amount ha hne).1] at hreply
          exact hstatus (status_eq_abort (some.inj hreply).symm)
        · exact hd' hd
    · rintro ⟨rfl, hapart⟩
      obtain ⟨-, -, hnew⟩ :=
        (hms m₁ (mem_append_right _ mem_cons_self)).names d d incr amount hm₁
      have hmem : k ∈ m₂.pre.server.listed d :=
        (hlast.listed d (N.tid_unprefixed ht) (fun hkey => N.disjoint hkey ht) hnew).mpr rfl
      have hsome : (m₂.pre.server.live d).isSome = true := by
        cases hlive : m₂.pre.server.live d with
        | none => simp [Server.listed, hlive] at hmem
        | some it => rfl
      obtain ⟨hvalue, hleased, hversioned⟩ :=
        hlast.commit (hr₁.calm hheap hlasts) (hend.keyState k hmem)
      refine ⟨fun m hm delta tid incr amount ha hne =>
        ?_, by rw [hreply, hsome, if_pos rfl], ?_, hleased, hversioned⟩
      · obtain ⟨r, hreply, ⟨hd, -⟩ | ⟨-, hstatus, hv⟩⟩ := hline m hm delta tid incr amount ha
        · exact absurd hd (hapart m hm delta tid incr amount ha hne)
        · refine ⟨?_, hv⟩
          rw [hreply, ascIqDeltaReply, hstatus]
      · rw [hvalue, hI.version_run hr₁ hk ht hms' hapart, hfirst, Option.map_map, Option.map_map]
        simp [changesOf, Function.comp_def]

end Isolation

/-- The test that a step handles a line that changes the key. -/
def incrementing (c : Settings) (keys : List Bytes) (k : Bytes) (s₀ : Server) (m : Moment) : Bool :=
  match m.label with
  | .line _ (.iqDelta _ cfg k' delta _) _ =>
    k' = k && cfg = m.pre.server.configurationNumber && m.pre.server.configurationNumber ≠ -1 &&
      k.length ≤ keyMaxLen && (mcStrtoull delta).isSome && delta.length < 256 && delta ∉ keys &&
      k ∉ s₀.listed delta && m.pre.server.heap = [] && m.pre.server.now < m.pre.server.leaseExpiry c
  | _ => false

section Test

variable {c : Settings} {keys tids : List Bytes} {k : Bytes} {s₀ : Server} {m : Moment}

variable (h : incrementing c keys k s₀ m = true)

include h

theorem Asks.of_test : ∃ delta tid incr amount, Asks k delta tid incr amount m ∧
      delta.length < 256 ∧ delta ∉ keys ∧
      k ∉ s₀.listed delta ∧ m.pre.server.heap = [] ∧
      m.pre.server.now < m.pre.server.leaseExpiry c := by
  rw [incrementing] at h
  split at h
  · next conn incr cfg k' delta tid out hlabel =>
    simp only [and_eq_true, decide_eq_true_eq] at h
    obtain ⟨⟨⟨⟨⟨⟨⟨⟨⟨rfl, hcfg⟩, hconfig⟩, hshort⟩, hamount⟩, hlen⟩, hfree⟩, hnew⟩, hheap⟩,
      hlasts⟩ := h
    obtain ⟨amount, hamount⟩ := isSome_iff_exists.mp hamount
    exact ⟨delta, tid, incr, amount, ⟨⟨conn, cfg, out, hlabel, .inr hcfg⟩, hconfig, hshort,
      hamount⟩, hlen, hfree, hnew, hheap, hlasts⟩
  · cases h

theorem Incrementing.of_test {hk : ∀ n ∈ keys, Unprefixed n} {ht : ∀ n ∈ tids, Unprefixed n}
    {hd : ∀ n ∈ keys, n ∉ tids} {t : Bytes} :
    Incrementing c (.ofLists keys tids hk ht hd) k t s₀ m := by
  obtain ⟨delta, tid, incr, amount, ha, hlen, hfree, hnew, hheap, hlasts⟩ := Asks.of_test h
  refine ⟨.inl ⟨delta, tid, incr, amount, ha⟩, fun delta' tid' incr' amount' ha' => ?_,
    hheap, hlasts⟩
  obtain ⟨_, _, _, hlabel, -⟩ := ha.line
  obtain ⟨_, _, _, hlabel', -⟩ := ha'.line
  rw [hlabel] at hlabel'
  cases hlabel'
  exact ⟨hlen, hfree, hnew⟩

end Test

/-- The naming of the key `k` and the transactions `5`, `t` and `u`. -/
def incrementNaming : Naming :=
  .ofLists [[0x6b]] [[0x35], [0x74], [0x75]] unprefixed_k (by decide) (by decide)

/-- The transaction `5` adds 5 to the key, while `t` tries to add 7. -/
theorem increments_isolated_iff_numeral : ∃ (m₁ m₂ m : Moment),
    m₁.label = .line 0 (.iqDelta true 0 [0x6b] [0x35] [0x35]) (.reply (.okPending 0 5)) ∧
    m.label = .line 1 (.iqDelta true 0 [0x6b] [0x37] [0x74]) (.reply .abort) ∧
    (m₂.post.server.keyState [0x6b]).value.map Content.data = some [0x31, 0x35] ∧
    Isolated {} [0x6b] [0x35] m₁ [m] .ok m₂.post.server := by
  obtain ⟨older, m₁, m, m₂, w, hr, hm, hfirst, hother, hcommit, hheap, hlasts, hnone, hvalue⟩ :=
    (playable_iq : Playable {} (IqRun {} incrementNaming) _).exists_run₃
      [.line 0 (.update .set 0 (-1) [0x6b] 0 0 2), .body 0 [0x31, 0x30, 0x0d, 0x0a],
        .line 0 (.iqDelta true 0 [0x6b] [0x35] [0x35]),
        .line 1 (.iqDelta true 0 [0x6b] [0x37] [0x74]), .line 0 (.commit 0 (-1) [0x35] 0)]
      (P := fun _ m₁ m m₂ _ => ([m] ++ [m₁]).all (incrementing {} [[0x6b]] [0x6b] m₁.pre.server) ∧
        m₁.label = .line 0 (.iqDelta true 0 [0x6b] [0x35] [0x35]) (.reply (.okPending 0 5)) ∧
        m.label = .line 1 (.iqDelta true 0 [0x6b] [0x37] [0x74]) (.reply .abort) ∧
        m₂.label = .line 0 (.commit 0 (-1) [0x35] 0) (.reply .ok) ∧ m₂.pre.server.heap = [] ∧
        m₂.pre.server.now < m₂.pre.server.leaseExpiry {} ∧
        [[0x35], leaseKey [0x6b], versionKey [0x6b]].all (fun n => (m₁.pre.server.live n).isNone) ∧
        (m₂.post.server.keyState [0x6b]).value.map Content.data = some [0x31, 0x35])
          (by decide +kernel)
  have hlive : ∀ n ∈ [[0x35], leaseKey [0x6b], versionKey [0x6b]], m₁.pre.server.live n = none :=
    fun n hn => Option.isNone_iff_eq_none.mp (all_eq_true.mp hnone n hn)
  have hms : ∀ m' ∈ [m] ++ [m₁], Incrementing {} incrementNaming [0x6b] [0x35] m₁.pre.server m' :=
    fun m' hm' => .of_test (all_eq_true.mp hm m' hm')
  obtain ⟨_, _, _, amount, hm₁, -⟩ := Asks.of_test (all_eq_true.mp hm m₁ (by simp))
  obtain ⟨_, _, _, hlabel, -⟩ := hm₁.line
  rw [hfirst] at hlabel
  cases hlabel
  have hrun : IqRun {} incrementNaming (m₂ :: [m] ++ m₁ :: older) w := hr
  refine ⟨m₁, m₂, m, hfirst, hother, hvalue, ?_⟩
  refine (increments_isolated_iff hrun mem_cons_self mem_cons_self hm₁ hms (hlive _ (by simp))
    (by simp [hlive]) (hlive _ (by simp)) hcommit (by decide) hheap hlasts).mpr
    ⟨rfl, fun m' hm' delta tid incr amount ha _ => ?_⟩
  obtain rfl := mem_singleton.mp hm'
  obtain ⟨_, _, _, hlabel, -⟩ := ha.line
  rw [hother] at hlabel
  cases hlabel
  decide

/-- Two transactions add the same amount to a key: the second one is not aborted, and the commit of
the first one finds nothing. -/
theorem increments_not_isolated : ∃ (h : History) (w : World) (m₁ m₂ m : Moment),
    IqRun {} incrementNaming (m₂ :: [m] ++ m₁ :: h) w ∧
    m₁.pre.server.keyState [0x6b] =
      { value := (m₁.pre.server.keyState [0x6b]).value, lease := none, version := none,
        marker := none } ∧
    m₁.pre.server.live [0x35] = none ∧ m₁.pre.server.live [0x74] = none ∧
    m₁.pre.server.live [0x75] = none ∧
    m₁.label = .line 0 (.iqDelta true 0 [0x6b] [0x35] [0x74]) (.reply (.okPending 0 5)) ∧
    m.label = .line 1 (.iqDelta true 0 [0x6b] [0x35] [0x75]) (.reply (.okPending 0 5)) ∧
    (m.pre.server.keyState [0x6b]).version.map Content.data = some [0x31, 0x35] ∧
    (m.post.server.keyState [0x6b]).version.map Content.data = some [0x32, 0x30] ∧
    m₂.label = .line 0 (.commit 0 (-1) [0x74] 0) (.reply .notFound) ∧
    (m₂.post.server.keyState [0x6b]).value.map Content.data = some [0x31, 0x30] := by
  obtain ⟨older, m₁, m, m₂, w, hr, htest⟩ :=
    (playable_iq : Playable {} (IqRun {} incrementNaming) _).exists_run₃
    [.line 0 (.update .set 0 (-1) [0x6b] 0 0 2), .body 0 [0x31, 0x30, 0x0d, 0x0a],
      .line 0 (.iqDelta true 0 [0x6b] [0x35] [0x74]),
      .line 1 (.iqDelta true 0 [0x6b] [0x35] [0x75]), .line 0 (.commit 0 (-1) [0x74] 0)]
    (P := fun _ m₁ m m₂ _ =>
      m₁.pre.server.keyState [0x6b] =
        { value := (m₁.pre.server.keyState [0x6b]).value, lease := none, version := none,
          marker := none } &&
      m₁.pre.server.live [0x35] = none && m₁.pre.server.live [0x74] = none &&
      m₁.pre.server.live [0x75] = none &&
      m₁.label = .line 0 (.iqDelta true 0 [0x6b] [0x35] [0x74]) (.reply (.okPending 0 5)) &&
      m.label = .line 1 (.iqDelta true 0 [0x6b] [0x35] [0x75]) (.reply (.okPending 0 5)) &&
      (m.pre.server.keyState [0x6b]).version.map Content.data = some [0x31, 0x35] &&
      (m.post.server.keyState [0x6b]).version.map Content.data = some [0x32, 0x30] &&
      m₂.label = .line 0 (.commit 0 (-1) [0x74] 0) (.reply .notFound) &&
      (m₂.post.server.keyState [0x6b]).value.map Content.data = some [0x31, 0x30])
        (by decide +kernel)
  simp only [and_eq_true, decide_eq_true_eq] at htest
  obtain ⟨⟨⟨⟨⟨⟨⟨⟨⟨hstate, hd⟩, ht⟩, hu⟩, hfirst⟩, hother⟩, hbefore⟩, hafter⟩, hcommit⟩, hvalue⟩ :=
    htest
  exact ⟨older, w, m₁, m₂, m, hr, hstate, hd, ht, hu, hfirst, hother, hbefore, hafter,
    hcommit, hvalue⟩

end Rejig
