import Rejig.Writers
import Rejig.Commit

/-!
# Steps with enough memory

`Turn c s e s'` says what one step of the server does, when the allocator finds a chunk for
everything: which records change and how, and what the client is told.  `World.Step.turn` shows that
every step of a reader or writer of the IQ protocol is of this form.  The properties of sequences of
such steps are proved from it, one case for each form, and do not look at the handlers again.
-/

namespace Rejig

open Prog Server Option List

variable {req : Request} {conn vlen : Nat} {V : View} {c : Settings} {completion : Completion}
  {g : KeyState → KeyState} {h : History} {key : Bytes} {w : World}

/-- The content of the record under a name. -/
def Server.record (s : Server) (n : Bytes) : Option Content := (s.live n).map Item.content

/-- All records are what they were. -/
structure Server.Same (s s' : Server) : Prop where
  shows : Shows s s'.live s'
  record : ∀ n, s'.record n = s.record n

/-- The records of a key change by `g`, and nothing else changes. -/
structure Server.Steps (k : Bytes) (g : KeyState → KeyState) (s s' : Server) : Prop where
  shows : Shows s s'.live s'
  key : s'.keyState k = g (s.keyState k)
  other : ∀ n ∉ recordNames k, s'.record n = s.record n

/-- The records of a key change by `g`, the key is filed in the record of a transaction, and nothing
else changes. -/
structure Server.Files (c : Settings) (k tid : Bytes) (g : KeyState → KeyState) (s s' : Server) :
    Prop where
  short : k.length ≤ keyMaxLen
  shows : Shows s s'.live s'
  key : s'.keyState k = g (s.keyState k)
  file : s'.record tid = enlisted s.now (s.leaseExpiry c) .none .sess k (s.record tid)
  other : ∀ n ∉ recordNames k, n ≠ tid → s'.record n = s.record n

/-- How an incremental update of a key ends. -/
inductive Increments (c : Settings) (k tid : Bytes) (f : Content → Content)
    (status : Content → IqResult) (s : Server) (r : IqDeltaResult) (s' : Server) : Prop
  | grants : (s.keyState k).lease.filter (·.lease ≠ .i) = none →
      (s.keyState k).IncrementGrants s.token status r →
      s.Files c k tid (KeyState.increment s.now (s.leaseExpiry c) s.token f) s' →
      Increments c k tid f status s r s'
  | owns {l : Content} : (s.keyState k).lease = some l → l.lease ≠ .i → k ∈ s.listed tid →
      r.status = (s.keyState k).version.elim .leaseNoValue status → r.newLeaseToken = l.leaseValue →
      s.Steps k (KeyState.updated f) s' → Increments c k tid f status s r s'
  | aborts {l : Content} : (s.keyState k).lease = some l → l.lease ≠ .i → k ∉ s.listed tid →
      r.status = .abort → s.Same s' → Increments c k tid f status s r s'

/-- What one step does when there is enough memory. -/
inductive Turn (c : Settings) (s : Server) : Event → Server → Prop
  | refused {conn : Nat} {req : Request} {r : Reply} {s' : Server} :
      r ∈ Reply.refusals → s.Same s' →
      Turn c s (.line conn req (.reply r)) s'
  | wait {conn : Nat} {req : Request} {p : Pending} {s' : Server} : s.Same s' →
      Turn c s (.line conn req (.nread p)) s'
  | get {conn : Nat} {cas : Bool} {cfg : Int} {keys : List Bytes} {its : List Item} {s' : Server} :
      its.map Item.content = keys.filterMap s.record → s.Same s' →
      Turn c s (.line conn (.get cas cfg keys) (.reply (.values its))) s'
  | iqget {conn : Nat} {cfg : Int} {k : Bytes} {token : UInt64} {r : IqgetResult} {s' : Server} :
      (s.keyState k).IqgetAnswers s.token token r →
      s.Steps k (KeyState.iqget s.now (s.leaseExpiry c) s.token) s' →
      Turn c s (.line conn (.iqget cfg k token) (.reply (ascIqgetReply r))) s'
  | qareadFinds {conn : Nat} {cfg readValue : Int} {k tid : Bytes} {token : UInt64} {l : Content}
      {r : QareadResult} {s' : Server} : (s.keyState k).lease = some l → l.hasQLease = true →
      (s.keyState k).QareadFinds token l r → s.Same s' →
      Turn c s (.line conn (.qaread cfg k readValue token tid)
        (.reply (.qaread (if readValue = 0 then none else r.it) r.newLeaseToken r.pending))) s'
  | qareadGrants {conn : Nat} {cfg readValue : Int} {k tid : Bytes} {token : UInt64}
      {r : QareadResult} {s' : Server} : (s.keyState k).lease.filter Content.hasQLease = none →
      (s.keyState k).QareadGrants s.token r →
      s.Files c k tid (KeyState.quarantine s.now (s.leaseExpiry c) .qRef s.token) s' →
      Turn c s (.line conn (.qaread cfg k readValue token tid)
        (.reply (.qaread (if readValue = 0 then none else r.it) r.newLeaseToken r.pending))) s'
  | qareg {conn : Nat} {cfg : Int} {k tid : Bytes} {s' : Server} : tid.length ≤ tidMaxLen →
      s.Files c k tid (KeyState.register s.now (s.leaseExpiry c) tid) s' →
      Turn c s (.line conn (.qareg cfg k tid) (.reply .qInvLeasehold)) s'
  | iqDelta {conn : Nat} {incr : Bool} {cfg : Int} {k delta tid : Bytes} {amount : UInt64}
      {r : IqDeltaResult} {s' : Server} : mcStrtoull delta = some amount →
      Increments c k delta (Content.plus incr amount) Content.plusStatus s r s' →
      Turn c s (.line conn (.iqDelta incr cfg k delta tid) (.reply (ascIqDeltaReply r))) s'
  | commit {conn : Nat} {cfg frag pending : Int} {tid : Bytes} {r : Reply} {s' : Server} :
      r = (if (s.live tid).isSome then .ok else .notFound) →
      Ended tid (s.listed tid) (KeyState.commit s.now (s.leaseExpiry c) tid pending
        (fragConfig frag s.configurationNumber)) s s' →
      Turn c s (.line conn (.commit cfg frag tid pending) (.reply r)) s'
  | dar {conn : Nat} {cfg : Int} {tid : Bytes} {r : Reply} {s' : Server} :
      r = (if (s.live tid).isSome then .deleted else .invalid) →
      Ended tid (s.listed tid) (KeyState.invalidate s.now (s.leaseExpiry c) tid) s s' →
      Turn c s (.line conn (.dar cfg tid) (.reply r)) s'
  | release {conn : Nat} {tid : Bytes} {r : Reply} {s' : Server} :
      r = (if (s.live tid).isSome then .ok else .notFound) →
      Ended tid (s.listed tid) KeyState.release s s' →
      Turn c s (.line conn (.release tid) (.reply r)) s'
  | badBody {conn : Nat} {req : Request} {p : Pending} {body : Bytes} {s' : Server} : s.Same s' →
      Turn c s (.body conn req p body .clientError) s'
  | iqset {conn flags vlen : Nat} {cfg frag exptime : Int} {k : Bytes} {token : UInt64}
      {p : Pending}
      {body : Bytes} {v : Content} {r : Reply} {s' : Server} : v.data = body.take vlen →
      v.dataflags = flags → v.p = 0 → v.exptime = p.item.exptime →
      (r = .stored ↔ v.data ≠ [] ∧
        (s.keyState k).lease.any fun l => l.lease = .i && l.leaseValue = token) →
      s.Steps k (KeyState.iqset s.now token v) s' →
      Turn c s (.body conn (.update (.iqset token) cfg frag k flags exptime vlen) p body r) s'
  | swap {conn flags vlen : Nat} {cfg frag exptime : Int} {k : Bytes} {token : UInt64} {p : Pending}
      {body : Bytes} {v : Content} {r : Reply} {s' : Server} : v.data = body.take vlen →
      v.dataflags = flags →
      (r = .stored ↔ (s.keyState k).lease.any fun l => l.leaseValue = token) →
      s.Steps k (KeyState.swap s.now (s.leaseExpiry c) token v) s' →
      Turn c s (.body conn (.swap cfg frag k flags exptime vlen token) p body r) s'
  | iqConcat {conn vlen : Nat} {append : Bool} {cfg : Int} {k tid : Bytes} {p : Pending}
      {body : Bytes}
      {r : IqDeltaResult} {s' : Server} :
      Increments c k tid (Content.concat append (body.take vlen)) (fun _ => .lease) s r s' →
      Turn c s (.body conn (.iqConcat append cfg k vlen tid) p body (ascIqDeltaReply r)) s'

/-! ## Frames -/

section Frames

variable {N : Naming} {s s' : Server} {k k' tid t : Bytes}

theorem Server.keyState_congr (h : ∀ n ∈ recordNames k, s'.record n = s.record n) :
    s'.keyState k = s.keyState k := by
  ext1
  · exact h k (by simp [recordNames])
  · exact h (leaseKey k) (by simp [recordNames])
  · exact h (versionKey k) (by simp [recordNames])
  · exact h (pendingKey k) (by simp [recordNames])

theorem Server.listed_congr (h : s'.record t = s.record t) : s'.listed t = s.listed t := by
  rw [listed_eq_content, listed_eq_content]
  exact congrArg (fun o : Option Content => (o.bind fun x => trigKeylistEntries x.data).getD []) h

theorem Server.live_eq_none_iff {n : Bytes} : s.live n = none ↔ s.record n = none :=
  map_eq_none_iff.symm

/-- A record of a transaction is not a record of a key. -/
theorem not_mem_recordNames_of_free (hk : N.isKey k) (hun : Unprefixed t) (hfree : ¬ N.isKey t) :
    t ∉ recordNames k := by
  intro hmem
  simp only [recordNames, mem_cons, not_mem_nil, or_false] at hmem
  rcases hmem with rfl | rfl | rfl | rfl
  · exact hfree hk
  · exact not_unprefixed_leaseKey k hun
  · exact not_unprefixed_versionKey k hun
  · exact not_unprefixed_pendingKey k hun

namespace Server.Same

theorem keyState (h : s.Same s') (k : Bytes) : s'.keyState k = s.keyState k :=
  keyState_congr fun n _ => h.record n

theorem listed (h : s.Same s') (t : Bytes) : s'.listed t = s.listed t :=
  listed_congr (h.record t)

end Server.Same

namespace Server.Steps

theorem keyState_of_ne (h : s.Steps k g s') (hk : Unprefixed k) (hk' : Unprefixed k')
    (hne : k' ≠ k) :
    s'.keyState k' = s.keyState k' :=
  keyState_congr fun n hn => h.other n (not_mem_recordNames hk hk' hne hn)

theorem listed (h : s.Steps k g s') (ht : t ∉ recordNames k) : s'.listed t = s.listed t :=
  listed_congr (h.other t ht)

end Server.Steps

namespace Server.Files

theorem keyState_of_ne (h : s.Files c k tid g s') (hk : Unprefixed k) (hk' : Unprefixed k')
    (hne : k' ≠ k) (htid : tid ∉ recordNames k') : s'.keyState k' = s.keyState k' := by
  refine keyState_congr fun n hn => h.other n (not_mem_recordNames hk hk' hne hn) ?_
  rintro rfl
  exact htid hn

theorem listed_of_ne (h : s.Files c k tid g s') (ht : t ∉ recordNames k) (hne : t ≠ tid) :
    s'.listed t = s.listed t :=
  listed_congr (h.other t ht hne)

theorem mem_listed (h : s.Files c k tid g s') (hs : s.ListsKeys N) (hun : Unprefixed tid)
    (hfree : ¬ N.isKey tid) (hlasts : s.now < s.leaseExpiry c) : k' ∈ s'.listed tid ↔
      k' = k ∨ k' ∈ s.listed tid :=
  hs.mem_listed_enlisted hun hfree (h.short.trans_lt (by decide)) hlasts h.file

end Server.Files

namespace Ended

variable {keys : List Bytes}

theorem listed_self (h : Ended tid keys g s s') : s'.listed tid = [] := by
  simp [Server.listed, h.record]

theorem listed_of_ne (h : Ended tid keys g s s') (ht : ∀ k ∈ keys, t ∉ recordNames k)
    (hne : t ≠ tid) :
    s'.listed t = s.listed t := by
  refine listed_congr ?_
  rw [Server.record, Server.record, h.other t hne ht]

theorem keyState_of_notMem (h : Ended tid keys g s s') (hkeys : ∀ k ∈ keys, Unprefixed k)
    (hk : Unprefixed k) (hmem : k ∉ keys) (htid : tid ∉ recordNames k) :
    s'.keyState k = s.keyState k := by
  refine keyState_congr fun n hn => ?_
  have hne : n ≠ tid := by
    rintro rfl
    exact htid hn
  rw [Server.record, Server.record, h.other n hne fun key hkey =>
    not_mem_recordNames (hkeys key hkey) hk (fun heq => hmem (heq ▸ hkey)) hn]

end Ended

end Frames

/-! ## Every step is a turn -/

namespace Request

/-- The requests of the readers and writers of the IQ protocol that `Turn` describes. -/
def isTurn : Request → Bool
  | get .. | update (.iqset _) .. | qareg .. | dar .. | qaread .. | swap .. | iqDelta
      .. | iqConcat ..
  | commit .. | release .. | iqget .. => true
  | _ => false

/-- The words under which a request files its key without a test of their length. -/
def filers : Request → List Bytes
  | qaread _ _ _ _ tid | iqConcat _ _ _ _ tid => [tid]
  | iqDelta _ _ _ delta _ => [delta]
  | _ => []

end Request

/-- A state of a run, with enough memory and with leases that do not expire at once. -/
structure Server.Calm (c : Settings) (N : Naming) (s : Server) : Prop where
  heap : s.heap = []
  lasts : s.now < s.leaseExpiry c
  oldestLive : s.oldestLive = 0
  lists : s.ListsKeys N
  data_ne_nil : ∀ n it, Unprefixed n → s.live n = some it → it.data ≠ []
  version : ∀ k pv, s.live (versionKey k) = some pv → Plain pv ∧ pv.data ≠ []

theorem IqRun.calm {N : Naming} (hr : IqRun c N h w) (hheap : w.server.heap = [])
    (hlasts : w.server.now < w.server.leaseExpiry c) : w.server.Calm c N where
  heap := hheap
  lasts := hlasts
  oldestLive := hr.registers.2
  lists := hr.listsKeys
  data_ne_nil _ _ hn hit := hr.data_ne_nil hn (live_eq_some.mp hit).1
  version _ _ hpv :=
    have hv := hr.version (live_eq_some.mp hpv).1
    ⟨⟨hv.lease, hv.co⟩, hr.version_ne_nil hpv⟩

section Turns

variable {N : Naming} {s s' : Server} {V' : View} {k tid : Bytes}

/-- A step that leaves the records of its key alone leaves all records alone. -/
theorem View.Step.content_eq {V' : View} (h : View.Step k id V V') (n : Bytes) :
    (V' n).map Item.content = (V n).map Item.content := by
  have hkey : View.keyState V' k = View.keyState V k := h.key
  by_cases hn : n ∈ recordNames k
  · simp only [recordNames, mem_cons, not_mem_nil, or_false] at hn
    rcases hn with rfl | rfl | rfl | rfl
    · exact congrArg KeyState.value hkey
    · exact congrArg KeyState.lease hkey
    · exact congrArg KeyState.version hkey
    · exact congrArg KeyState.marker hkey
  · rw [h.other n hn]

theorem Shows.toSame (h : Shows s V' s')
    (hV : ∀ n, (V' n).map Item.content = (s.live n).map Item.content) : s.Same s' where
  shows := by rwa [h.live]
  record n := by rw [Server.record, h.live, hV, Server.record]

theorem Shows.toSteps (h : Shows s V' s') (hstep : View.Step k g s.live V') : s.Steps k g s' where
  shows := by rwa [h.live]
  key := by rw [Server.keyState, h.live, hstep.key, Server.keyState]
  other n hn := by rw [Server.record, h.live, hstep.other n hn, Server.record]

theorem Shows.toFiles (h : Shows s V' s') (hlen : k.length ≤ keyMaxLen)
    (hfiles : View.Files k tid (enlisted s.now (s.leaseExpiry c) .none .sess k) g s.live V') :
    s.Files c k tid g s' where
  short := hlen
  shows := by rwa [h.live]
  key := by rw [Server.keyState, h.live, hfiles.key, Server.keyState]
  file := by rw [Server.record, h.live, hfiles.record, Server.record]
  other n hn hne := by rw [Server.record, h.live, hfiles.other n hn hne, Server.record]

theorem Increments.of_view {f : Content → Content} {status : Content → IqResult}
    {r : IqDeltaResult} (hs : s.ListsKeys N) (hun : Unprefixed tid) (hfree : ¬ N.isKey tid)
    (hlen : k.length ≤ keyMaxLen) (h : Shows s V' s')
    (hinc : View.Increments s.now (s.leaseExpiry c) k tid s.token f status s.live r V') :
    Increments c k tid f status s r s' := by
  have hmem := hs.mem_listed_iff hun hfree (hlen.trans_lt (by decide : keyMaxLen < 256))
  rw [View.Increments] at hinc
  split at hinc
  · next hlease => exact .grants hlease hinc.1 (h.toFiles hlen hinc.2)
  · next l hlease =>
    obtain ⟨hl, hi⟩ := filter_eq_some_iff.mp hlease
    have hi' : l.lease ≠ .i := of_decide_eq_true hi
    split at hinc
    · next hhas => exact .owns hl hi' (hmem.mpr hhas) hinc.1 hinc.2.1 (h.toSteps hinc.2.2)
    · next hhas =>
      refine .aborts hl hi' (fun hk => hhas (hmem.mp hk)) hinc.1 ?_
      rw [hinc.2] at h
      exact h.toSame fun _ => rfl

/-- Reading keys changes no record. -/
theorem Shows.wlp_ascReadKeys {s₀ : Server} (keys : List Bytes) (h : Shows s₀ V s) :
    wlp (ascReadKeys keys) (fun r s' => (∀ its, r = some its →
        its.map Item.content = keys.filterMap fun k => (V k).map Item.content) ∧
      ∃ V', Shows s₀ V' s' ∧ ∀ n, (V' n).map Item.content = (V n).map Item.content) c s := by
  induction keys generalizing s V with
  | nil =>
    refine .pure ⟨?_, V, h, fun _ => rfl⟩
    rintro its ⟨⟩
    rfl
  | cons key keys ih =>
    rw [ascReadKeys]
    split
    · exact .pure ⟨(by simp), V, h, fun _ => rfl⟩
    rw [wlp_bind, wlp_itemGet, h.read, wlp_bind]
    have htouch : wlp (whenSome (V key) itemTouch) (fun _ s₁ => ∃ V₁, Shows s₀ V₁ s₁ ∧
        ∀ n, (V₁ n).map Item.content = (V n).map Item.content) c (s.reap key) := by
      rw [wlp_whenSome]
      refine ⟨fun _ => ⟨V, h.reap key, fun _ => rfl⟩, fun it hit => ?_⟩
      refine ((h.reap key).wlp_itemTouch hit).mono ?_
      rintro _ s₁ ⟨V₁, hs₁, hstep⟩
      exact ⟨V₁, hs₁, hstep.content_eq⟩
    refine htouch.mono ?_
    rintro _ s₁ ⟨V₁, hs₁, hsame₁⟩
    refine .bind ((ih hs₁).mono ?_)
    rintro r s₂ ⟨hits, V₂, hs₂, hsame₂⟩
    refine .pure ⟨?_, V₂, hs₂, fun n => (hsame₂ n).trans (hsame₁ n)⟩
    intro its hr
    obtain ⟨its', rfl, rfl⟩ := map_eq_some_iff.mp hr
    have hrest : (fun k => (V₁ k).map Item.content) = fun k => (V k).map Item.content :=
      funext hsame₁
    rw [map_append, hits its' rfl, hrest, filterMap_cons]
    cases V key <;> rfl

section

variable (hs : s.Calm c N)

include hs

theorem Server.Calm.shows : Shows s s.live s := .refl hs.heap hs.oldestLive

theorem Server.Calm.same : s.Same s := hs.shows.toSame fun _ => rfl

theorem Server.Calm.value_ne_nil (hk : Unprefixed k) (v : Content)
    (hv : (s.keyState k).value = some v) : v.data ≠ [] := by
  obtain ⟨it, hit, rfl⟩ := map_eq_some_iff.mp hv
  exact hs.data_ne_nil k it hk hit

/-- A request that waits for its body has changed nothing. -/
theorem Server.Calm.turn_ascAllocBody {flags : Nat} {exptime configNum : Int} {dropsValue : Bool} :
    wlp (ascAllocBody key flags exptime vlen configNum dropsValue completion)
      (fun out s' => Turn c s (.line conn req out) s') c s := by
  rw [ascAllocBody, wlp_bind, wlp_itemSlabid]
  split
  · exact .pure (.refused (by simp [Reply.refusals]) hs.same)
  rw [wlp_bind, wlp_timeReltime, wlp_bind, wlp_itemAllocConfig, s.room_of_heap_nil hs.heap]
  intro _
  simp only [if_true, wlp_bind, wlp_ask]
  exact .pure (.wait (hs.shows.allocate.toSame fun _ => rfl))

theorem Server.Calm.turn_ascAllocConcat :
    wlp (ascAllocConcat key vlen completion) (fun out s' =>
        Turn c s (.line conn req out) s') c s := by
  rw [ascAllocConcat, wlp_bind, wlp_itemAlloc, s.room_of_heap_nil hs.heap]
  intro _
  exact .pure (.wait (hs.shows.allocate.toSame fun _ => rfl))

/-- `item_iqincr_iqdecr` -/
theorem Server.Calm.increments_itemIqincrIqdecr {incr : Bool} {amount : UInt64} (hk : N.isKey k)
    (hlen : k.length ≤ keyMaxLen) (hname : tid.length < 256) (hun : Unprefixed tid)
    (hfree : ¬ N.isKey tid) (hkind : ∀ l, s.live (leaseKey k) = some l → l.lease ≠ .none) :
    wlp (itemIqincrIqdecr incr k amount tid)
      (Increments c k tid (Content.plus incr amount) Content.plusStatus s) c s := by
  refine (hs.shows.wlp_itemIqincrIqdecr hlen (not_mem_recordNames_of_free hk hun hfree)
    hname hs.lasts (hs.value_ne_nil (N.key_unprefixed hk)) (hs.version k) fun l hl hi => ?_).mono
    fun r s' ⟨V', hs', hinc⟩ => .of_view hs.lists hun hfree hlen hs' hinc
  cases hlease : l.lease with
  | none => exact absurd hlease (hkind l hl)
  | i => exact absurd hlease hi
  | qInv => simp [Item.hasQLease, Item.hasQInvLease, hlease]
  | qRef => simp [Item.hasQLease, Item.hasQRefLease, hlease]
  | qInc => simp [Item.hasQLease, Item.hasQIncrLease, hlease]

/-- The handler of a line takes its turn. -/
theorem Server.Calm.turn_ascDispatch (hreq : req.isTurn = true)
    (hkeys : ∀ key ∈ req.keys, N.isKey key) (hids : ∀ tid ∈ req.ids, N.isTid tid)
    (hfilers : ∀ t ∈ req.filers, t.length < 256 ∧ Unprefixed t ∧ ¬ N.isKey t)
    (hkind : ∀ incr cfg k delta tid, req = .iqDelta incr cfg k delta tid →
      ∀ l, s.live (leaseKey k) = some l → l.lease ≠ .none) :
    wlp (ascDispatch req) (fun out s' => Turn c s (.line conn req out) s') c s := by
  have hrefused : ∀ r ∈ Reply.refusals, Turn c s (.line conn req (.reply r)) s :=
    fun r hr => .refused hr hs.same
  have hrecord : ∀ k ∈ req.keys, ∀ t, Unprefixed t → ¬ N.isKey t → t ∉ recordNames k :=
    fun k hk t hun hfree => not_mem_recordNames_of_free (hkeys k hk) hun hfree
  cases req with
  | get cas cfg keys =>
    rw [ascDispatch, ascProcessRead]
    refine wlp_ascCheckConfig hrefused fun _ => ?_
    refine .bind ((hs.shows.wlp_ascReadKeys keys).mono ?_)
    rintro r s' ⟨hits, V', hs', hsame⟩
    cases r with
    | none => exact .pure (.refused (by simp [Reply.refusals]) (hs'.toSame hsame))
    | some its => exact .pure (.get (hits its rfl) (hs'.toSame hsame))
  | update cmd cfg frag key flags exptime vlen =>
    rw [ascDispatch, ascProcessUpdate]
    exact wlp_ascCheckLength hrefused fun _ => wlp_ascCheckConfig hrefused fun _ =>
      hs.turn_ascAllocBody
  | swap cfg frag key flags exptime vlen token =>
    rw [ascDispatch, ascProcessSwap]
    exact wlp_ascCheckLength hrefused fun _ => wlp_ascCheckConfig hrefused fun _ =>
      hs.turn_ascAllocBody
  | iqConcat append cfg key vlen tid =>
    rw [ascDispatch, ascProcessIqConcat]
    exact wlp_ascCheckLength hrefused fun _ => wlp_ascCheckConfig hrefused fun _ =>
      hs.turn_ascAllocConcat
  | iqget cfg key token =>
    rw [ascDispatch, ascProcessIqget]
    refine wlp_ascCheckConfig hrefused fun _ => wlp_ascCheckLength hrefused fun hlen => ?_
    refine .bind ((hs.shows.wlp_itemIqget hlen).mono ?_)
    rintro r s' ⟨hr, _, V', hs', hstep⟩
    exact .pure (.iqget hr (hs'.toSteps hstep))
  | qaread cfg key readValue token tid =>
    obtain ⟨hlen', hun, hfree⟩ := hfilers tid (by simp [Request.filers])
    rw [ascDispatch, ascProcessQaread]
    refine wlp_ascCheckConfig hrefused fun _ => wlp_ascCheckLength hrefused fun hlen => ?_
    refine .bind ((hs.shows.wlp_itemQuarantineAndRead hlen
      (hrecord key (by simp [Request.keys]) tid hun hfree) hlen').mono fun r s' hr => ?_)
    split at hr
    · next l hl =>
      obtain ⟨hl, hq⟩ := filter_eq_some_iff.mp hl
      exact .pure (.qareadFinds hl hq hr.1 (hr.2.toSame fun _ => rfl))
    · next hl =>
      obtain ⟨hgrants, V', hs', hfiles⟩ := hr
      exact .pure (.qareadGrants hl hgrants (hs'.toFiles hlen hfiles))
  | qareg cfg key tid =>
    have htid : tid ∉ recordNames key :=
      N.tid_not_mem_recordNames (hids tid (by simp [Request.ids]))
      (hkeys key (by simp [Request.keys]))
    rw [ascDispatch, ascProcessQareg]
    refine wlp_ascCheckConfig hrefused fun _ => wlp_ascCheckLength hrefused fun hlen =>
      wlp_ascCheckLength hrefused fun hlen' => ?_
    refine .bind ((hs.shows.wlp_itemQuarantineAndRegister hlen htid
      (hlen'.trans_lt (by decide))).mono ?_)
    rintro _ s' ⟨V', hs', hfiles⟩
    exact .pure (.qareg hlen' (hs'.toFiles hlen hfiles))
  | iqDelta incr cfg key delta tid =>
    obtain ⟨hlen', hun, hfree⟩ := hfilers delta (by simp [Request.filers])
    have hkey : N.isKey key := hkeys key (by simp [Request.keys])
    rw [ascDispatch, ascProcessIqDelta]
    refine wlp_ascCheckConfig hrefused fun _ => wlp_ascCheckLength hrefused fun hlen => ?_
    cases hamount : mcStrtoull delta with
    | none => exact .pure (hrefused _ (by simp [Reply.refusals]))
    | some amount =>
      dsimp only
      refine .bind ((hs.increments_itemIqincrIqdecr hkey hlen hlen' hun hfree
        (hkind incr cfg key delta tid rfl)).mono fun r s' hinc => .pure (.iqDelta hamount hinc))
  | commit cfg frag tid pending =>
    have ht : N.isTid tid := hids tid (by simp [Request.ids])
    rw [ascDispatch, ascProcessCommit]
    refine wlp_ascCheckLength hrefused fun _ => wlp_ascCheckConfig hrefused fun _ => ?_
    refine .bind ((ended_itemCommit hs.lists ht hs.heap hs.oldestLive).mono ?_)
    rintro r s' ⟨hr, hend⟩
    cases hlive : (s.live tid).isSome <;> rw [hlive] at hr <;> subst hr <;>
      exact .pure (.commit (by rw [hlive]; rfl) hend)
  | dar cfg tid =>
    have ht : N.isTid tid := hids tid (by simp [Request.ids])
    rw [ascDispatch, ascProcessDar]
    refine wlp_ascCheckConfig hrefused fun _ => wlp_ascCheckLength hrefused fun _ => ?_
    refine .bind ((ended_itemDeleteAndRelease hs.lists ht hs.heap hs.oldestLive).mono ?_)
    rintro r s' ⟨hr, hend⟩
    cases hlive : (s.live tid).isSome <;> rw [hlive] at hr <;> subst hr <;>
      exact .pure (.dar (by rw [hlive]; rfl) hend)
  | release tid =>
    have ht : N.isTid tid := hids tid (by simp [Request.ids])
    rw [ascDispatch, ascProcessRelease]
    refine wlp_ascCheckLength hrefused fun _ => ?_
    refine .bind ((ended_itemRelease hs.lists ht hs.heap hs.oldestLive).mono ?_)
    rintro r s' ⟨hr, hend⟩
    cases hlive : (s.live tid).isSome <;> rw [hlive] at hr <;> subst hr <;>
      exact .pure (.release (by rw [hlive]; rfl) hend)
  | _ => cases hreq

/-- The completion of a request takes its turn. -/
theorem Server.Calm.turn_ascCompleteNread {s₁ : Server} {p : Pending} {body : Bytes}
    (hp : Prepared c s₁ req p) (hreq : req.isTurn = true) (hkeys : ∀ key ∈ req.keys, N.isKey key)
    (hfilers : ∀ t ∈ req.filers, t.length < 256 ∧ Unprefixed t ∧ ¬ N.isKey t) :
    wlp (ascCompleteNread p body) (fun r s' => Turn c s (.body conn req p body r) s') c s := by
  have hplain := hp.plain body
  have hlen : (p.filled body).key.length ≤ keyMaxLen := hp.short_key
  have hkey : (p.filled body).key ∈ req.keys := hp.key_mem
  have hun : Unprefixed (p.filled body).key := N.key_unprefixed (hkeys _ hkey)
  have hzero := hp.p_eq_zero
  rw [ascCompleteNread]
  split
  · exact .pure (.badBody hs.same)
  change wlp (ascComplete p.completion (p.filled body)) _ _ _
  obtain ⟨hpending, -, -⟩ := hp
  cases req with
  | update cmd cfg frag key flags exptime vlen =>
    cases cmd with
    | iqset token =>
      have hk : (p.filled body).key = key := by simpa [Request.keys] using hkey
      have hcompletion : p.completion = .store (.iqset token) := by cases hpending; rfl
      have hdata : (p.filled body).content.data = body.take vlen := by cases hpending; rfl
      have hflags : (p.filled body).content.dataflags = flags := by cases hpending; rfl
      rw [hcompletion, ascComplete, wlp_bind]
      refine (hs.shows.wlp_itemStore_iqset hplain).mono ?_
      rintro r s' ⟨hr, V', hs', hstep⟩
      refine .pure (.iqset hdata hflags hzero rfl ?_ (hs'.toSteps (hk ▸ hstep)))
      rw [hk] at hr
      refine Iff.trans ?_ hr
      cases r <;> simp [ascStoreReply]
    | _ => cases hreq
  | swap cfg frag key flags exptime vlen token =>
    have hk : (p.filled body).key = key := by simpa [Request.keys] using hkey
    have hcompletion : p.completion = .swap token := by cases hpending; rfl
    have hdata : (p.filled body).content.data = body.take vlen := by cases hpending; rfl
    have hflags : (p.filled body).content.dataflags = flags := by cases hpending; rfl
    rw [hcompletion, ascComplete, wlp_bind]
    refine (hs.shows.wlp_itemSwap hlen).mono ?_
    rintro r s' ⟨hr, V', hs', hstep⟩
    have hsteps := hs'.toSteps (hk ▸ hstep)
    rw [hk] at hr
    cases r with
    | stored => exact .pure (.swap hdata hflags ⟨fun _ => hr.mp rfl, fun _ => rfl⟩ hsteps)
    | _ => exact .pure (.swap hdata hflags ⟨(by simp), fun h => absurd (hr.mpr h) (by simp)⟩ hsteps)
  | iqConcat append cfg key vlen tid =>
    obtain ⟨hlen', hunt, hfree⟩ := hfilers tid (by simp [Request.filers])
    have hk : (p.filled body).key = key := by simpa [Request.keys] using hkey
    have hcompletion : p.completion = .iqConcat append tid := by
      cases hpending
      exact congrArg _ (u8Name_of_lt hlen')
    have hdata : (p.filled body).data = body.take vlen := by cases hpending; rfl
    rw [hcompletion, ascComplete, hk, hdata, wlp_bind]
    have hapart := not_mem_recordNames_of_free (hkeys key (by simp [Request.keys])) hunt hfree
    refine (hs.shows.wlp_itemIqappendIqprepend (hk ▸ hlen) hapart hlen' hs.lasts
      (hs.value_ne_nil (hk ▸ hun)) (hs.version key)).mono ?_
    rintro r s' ⟨V', hs', hinc⟩
    exact .pure (.iqConcat (.of_view hs.lists hunt hfree (hk ▸ hlen) hs' hinc))
  | sar | oqswap | oqwrite | oqConcat => cases hreq
  | _ => cases hpending

end

/-- Every step of a request that `Turn` describes is a turn. -/
theorem World.Step.turn {w' : World} {e : Event} (hr : IqRun c N h w) (hstep : World.Step c w e w')
    (he : e.Iq N) (hheap : w.server.heap = []) (hlasts : w.server.now < w.server.leaseExpiry c)
    (hreq : e.request = some req) (hturn : req.isTurn = true)
    (hfilers : ∀ t ∈ req.filers, t.length < 256 ∧ Unprefixed t ∧ ¬ N.isKey t)
    (hkind : ∀ incr cfg k delta tid, req = .iqDelta incr cfg k delta tid →
      ∀ l, w.server.live (leaseKey k) = some l → l.lease ≠ .none) :
    Turn c w.server e w'.server := by
  have hs := hr.calm hheap hlasts
  cases hstep with
  | line _ hrun =>
    cases hreq
    exact hs.turn_ascDispatch hturn (he.keys req rfl) (he.ids req rfl) hfilers hkind _ _ hrun
  | body hw _ hrun =>
    cases hreq
    obtain ⟨t, -, -, hp⟩ := exists_line_of_waiting hr.run hw
    exact hs.turn_ascCompleteNread hp hturn (he.keys req rfl) hfilers _ _ hrun
  | _ => cases hreq

end Turns

/-- A step with enough memory, in which nothing expires. -/
structure Steady (c : Settings) (m : Moment) : Prop where
  time : ∀ seconds, m.label = .tick seconds → ∀ n, m.post.server.record n = m.pre.server.record n
  heap : m.pre.server.heap = []
  lasts : m.pre.server.now < m.pre.server.leaseExpiry c

/-- Without a request nothing changes. -/
theorem Steady.record {m : Moment} (h : Steady c m) (hstep : World.Step c m.pre m.label m.post)
    (hreq : m.label.request = none) (n : Bytes) :
    m.post.server.record n = m.pre.server.record n := by
  obtain ⟨w, e, w'⟩ := m
  dsimp only at hstep
  cases hstep with
  | line => cases hreq
  | body => cases hreq
  | tick seconds => exact h.time seconds rfl n
  | memory => rfl
  | hangup => rfl

end Rejig
