import Rejig.Lib.Cache
import Rejig.Lib.Transition
import Rejig.Wire

/-!
# Leases that clients keep among themselves

`MemcachedLease.java` lets processes exclude each other with ordinary cache entries: who stores an
entry under a key holds a lease on the key.  `acquireLease` reads the entry and then adds its own,
or swaps it for an entry that says the key is free; `releaseLease` reads the entry and then swaps it
for one that says so, and deletes the key when the swap is refused.

Every call to the cache, and every access to a shared map or counter, is a step of its own here, so
that the steps of any number of processes, each with any number of threads, interleave freely.  The
cache is `Cache`: its calls are atomic, and when an entry runs out is a parameter.
-/

namespace Rejig.MemcachedLease

open Option List Function

variable {d : Option Nat} {client client' : Int32} {cache : Cache Bytes Bytes} {frame : Frame}
  {key newVal text v : Bytes} {val : Option CASValue} {S : Setup}
  {h : List (Transition World Action)} {w : World}

/-! ## The program -/

/-- `NEW_LEASE`, the entry of a key that is free -/
def newLease : Bytes := ofChars ['n']

/-- `this.clientId + " " + count` -/
def leaseText (clientId count : Int32) : Bytes :=
  intText clientId.toInt ++ 0x20 :: intText count.toInt

/-- `CASValue` -/
structure CASValue where
  value : Bytes
  casToken : Nat

/-- How a process is set up, and the cache it uses.  A process is known by its client id. -/
structure Setup where
  onlyLocalLease : (client : Int32) → Bool
  /-- When an entry runs out that is stored at a time with an expiry date, in milliseconds. -/
  deadline : (now : Nat) → (expiry : Int64) → Option Nat

/-- What a thread is about to do. -/
inductive Frame where
  /-- Nothing: its last call has returned. -/
  | returned (ret : Bool)
  | acquirePut (key : Bytes) (timeout : Int64) (newVal : Bytes)
  | acquireGets (key : Bytes) (timeout : Int64) (newVal : Bytes)
  | acquireStore (key : Bytes) (timeout : Int64) (newVal : Bytes) (val : Option CASValue)
  | acquireRemove (key : Bytes)
  | releaseGets (key : Bytes)
  | releaseCheck (key : Bytes) (val : Option CASValue)
  | releaseCas (key : Bytes) (val : CASValue)
  | releaseDelete (key : Bytes)
  | releaseRemove (key : Bytes) (ret : Bool)

/-- A lease that was granted to a process and that the process has not given back. -/
structure Grant where
  client : Int32
  key : Bytes
  /-- When its entry runs out. -/
  deadline : Option Nat

/-- The cache and all processes. -/
structure World where
  cache : Cache Bytes Bytes := {}
  counter : Int32 → Int32 := fun _ => 0
  localKeyLeaseMap : Int32 → Bytes → Option Bytes := fun _ _ => none
  frames : Int32 → Nat → Frame := fun _ _ => .returned false
  /-- Not part of the program: who holds what. -/
  grants : List Grant := []

/-- What happens next: a thread makes a call or goes on with one, or time passes. -/
inductive Action where
  | acquireLease (client : Int32) (thread : Nat) (key : Bytes) (timeout : Int64)
  | releaseLease (client : Int32) (thread : Nat) (key : Bytes)
  | step (client : Int32) (thread : Nat)
  | wait (time : Nat)
deriving DecidableEq

namespace World

/-- A thread goes on to another point. -/
def goto (w : World) (client : Int32) (thread : Nat) (frame : Frame) : World :=
  { w with frames := update w.frames client (update (w.frames client) thread frame) }

/-- A process writes or removes an entry of its map. -/
def setLocal (w : World) (client : Int32) (key : Bytes) (val : Option Bytes) : World :=
  { w with localKeyLeaseMap :=
      update w.localKeyLeaseMap client (update (w.localKeyLeaseMap client) key val) }

/-- A process has stored its entry, and holds a lease now. -/
def grant (w : World) (client : Int32) (key : Bytes) (deadline : Option Nat)
    (cache : Cache Bytes Bytes) : World :=
  { w with cache := cache, grants := ⟨client, key, deadline⟩ :: w.grants }

/-- A process has given up its lease. -/
def giveUp (w : World) (client : Int32) (key : Bytes) (cache : Cache Bytes Bytes) : World :=
  { w with cache := cache, grants := w.grants.filter fun g => !(g.client = client && g.key = key) }

end World

/-- A call to `gets`. -/
def gets (cache : Cache Bytes Bytes) (key : Bytes) : Option CASValue :=
  (cache.find key).map fun e => ⟨e.value, e.token⟩

/-- The private `acquireLease`: add an entry where there is none, or swap it for the one of a free
key. -/
def acquireStore (S : Setup) (cache : Cache Bytes Bytes) (key : Bytes) (timeout : Int64)
    (newVal : Bytes) :
    Option CASValue → Bool × Cache Bytes Bytes
  | none => cache.add key newVal (S.deadline cache.now timeout)
  | some val =>
    if val.value = newLease then
      let (response, cache) := cache.cas key newVal (S.deadline cache.now timeout) val.casToken
      (response = .success, cache)
    else (false, cache)

/-- The private `releaseLease`, as far as it looks at the map: whether the entry is the process's
own. -/
def releaseCheck (w : World) (client : Int32) (key : Bytes) : Option CASValue → Frame
  | none => .releaseRemove key false
  | some val =>
    if w.localKeyLeaseMap client key = some val.value then .releaseCas key val else
      .releaseRemove key false

/-- One step of a thread. -/
def advance (S : Setup) (w : World) (client : Int32) (thread : Nat) : Option World :=
  match w.frames client thread with
  | .returned _ => none
  | .acquirePut key timeout newVal =>
    if (w.localKeyLeaseMap client key).isSome then some (w.goto client thread (.returned false))
    else if S.onlyLocalLease client then
      some (((w.setLocal client key (some newVal)).grant client key none w.cache).goto client thread
        (.returned true))
    else some ((w.setLocal client key (some newVal)).goto client thread
      (.acquireGets key timeout newVal))
  | .acquireGets key timeout newVal =>
    some (w.goto client thread (.acquireStore key timeout newVal (gets w.cache key)))
  | .acquireStore key timeout newVal val =>
    let (success, cache) := acquireStore S w.cache key timeout newVal val
    if success then
      some ((w.grant client key (S.deadline w.cache.now timeout) cache).goto client thread
        (.returned true))
    else some (w.goto client thread (.acquireRemove key))
  | .acquireRemove key => some ((w.setLocal client key none).goto client thread (.returned false))
  | .releaseGets key =>
    if S.onlyLocalLease client then
      some (((w.setLocal client key none).giveUp client key w.cache).goto client thread
        (.returned true))
    else some (w.goto client thread (.releaseCheck key (gets w.cache key)))
  | .releaseCheck key val => some (w.goto client thread (releaseCheck w client key val))
  | .releaseCas key val =>
    let (response, cache) := w.cache.cas key newLease (S.deadline w.cache.now 1000) val.casToken
    if response = .success then some ((w.giveUp client key cache).goto client thread
      (.releaseRemove key true))
    else some (w.goto client thread (.releaseDelete key))
  | .releaseDelete key =>
    some ((w.giveUp client key (w.cache.delete key)).goto client thread (.releaseRemove key false))
  | .releaseRemove key ret => some ((w.setLocal client key none).goto client thread (.returned ret))

/-- Whether a thread can make a call. -/
def Frame.isReturned : Frame → Bool
  | .returned _ => true
  | _ => false

/-- What an action makes of a world. -/
def World.next (S : Setup) (w : World) : Action → Option World
  | .acquireLease client thread key timeout =>
    if (w.frames client thread).isReturned then
      let count := w.counter client + 1
      some ({ w with counter := update w.counter client count }.goto client thread
        (.acquirePut key timeout (leaseText client count)))
    else none
  | .releaseLease client thread key =>
    if (w.frames client thread).isReturned then some
      (w.goto client thread (.releaseGets key)) else none
  | .step client thread => advance S w client thread
  | .wait time => some { w with cache := w.cache.wait time }

/-- The processes and the cache, from the start. -/
def protocol (S : Setup) : System World Action := .ofNext {} (World.next S)

/-- A process holds a lease on a key that has not run out. -/
def World.Holds (w : World) (client : Int32) (key : Bytes) : Prop :=
  ∃ g ∈ w.grants, g.client = client ∧ g.key = key ∧ Cache.ahead w.cache.now g.deadline = true

instance (w : World) (client : Int32) (key : Bytes) : Decidable (w.Holds client key) :=
  inferInstanceAs (Decidable (∃ g ∈ w.grants, _))

/-- Whether the entry that a thread is about to swap for that of a free key is the one that it has
read. -/
def Frame.undisturbed (cache : Cache Bytes Bytes) : Frame → Bool
  | .releaseCas key val => (cache.find key).any (·.token = val.casToken)
  | _ => true

/-- No lease runs out on its way back, between the two calls to the cache that release it. -/
def World.undisturbed (w : World) : Action → Bool
  | .step client thread => (w.frames client thread).undisturbed w.cache
  | _ => true

/-! ## Whose entry it is -/

/-- The text is one the process writes into its leases. -/
def Own (client : Int32) (text : Bytes) : Prop := ∃ count, text = leaseText client count

theorem intText_injective {i j : Int32} (h : intText i.toInt = intText j.toInt) : i = j := by
  have hread : ∀ n : Int32, mcStrtoll (intText n.toInt ++ []) = some n.toInt := fun n =>
    mcStrtoll_intText (by have := n.le_toInt; omega) (by have := n.toInt_lt; omega) rfl
  have hi := hread i
  rw [h, hread j] at hi
  exact (Int32.toInt_inj.mp (some.inj hi)).symm

/-- The blank after the client id ends it, so that two processes never write the same text. -/
theorem Own.eq (h : Own client text) (h' : Own client' text) : client = client' := by
  obtain ⟨n, rfl⟩ := h
  obtain ⟨n', h'⟩ := h'
  have hblank : ∀ i : Int, (0x20 : UInt8) ∉ intText i := fun i hi => (clean_intText i _ hi).1 rfl
  have htake : ∀ i n : Int32, (leaseText i n).takeWhile (· ≠ 0x20) = intText i.toInt := by
    intro i n
    rw [leaseText, takeWhile_append_of_pos]
    · simp
    · intro b hb
      exact decide_eq_true fun hb' => hblank _ (hb' ▸ hb)
  apply intText_injective
  rw [← htake client n, h', htake]

theorem Own.ne_newLease (h : Own client text) : text ≠ newLease := by
  obtain ⟨n, rfl⟩ := h
  intro h
  have hblank : (0x20 : UInt8) ∈ leaseText client n := mem_append_right _ mem_cons_self
  rw [h] at hblank
  revert hblank
  decide

/-! ## What every run keeps -/

/-- What a thread has read is what its token stands for, what it is to write is its own, and it is
not about to delete anything. -/
def Frame.Sound (client : Int32) (cache : Cache Bytes Bytes) : Frame → Prop
  | .acquirePut _ _ newVal | .acquireGets _ _ newVal => Own client newVal
  | .acquireStore key _ newVal val =>
    Own client newVal ∧ ∀ v ∈ val, cache.Agrees key v.value v.casToken
  | .releaseCheck key val => ∀ v ∈ val, cache.Agrees key v.value v.casToken
  | .releaseCas key val => Own client val.value ∧ cache.Agrees key val.value val.casToken
  | .releaseDelete _ => False
  | .returned _ | .acquireRemove _ | .releaseGets _ | .releaseRemove .. => True

/-- The invariant: a lease that has not run out is backed by an entry of its process. -/
structure World.Sound (w : World) : Prop where
  fresh : w.cache.Fresh
  frames : ∀ client thread, (w.frames client thread).Sound client w.cache
  locals : ∀ client key val, w.localKeyLeaseMap client key = some val → Own client val
  grants : ∀ g ∈ w.grants, Cache.ahead w.cache.now g.deadline = true →
    ∃ e, w.cache.entries g.key = some e ∧ e.deadline = g.deadline ∧ Own g.client e.value

theorem Frame.Sound.store (h : frame.Sound client cache) :
    frame.Sound client (cache.store key v d) := by
  cases frame with
  | acquireStore key' timeout newVal val => exact ⟨h.1, fun v hv => (h.2 v hv).store⟩
  | releaseCheck key' val => exact fun v hv => (h v hv).store
  | releaseCas key' val => exact ⟨h.1, h.2.store⟩
  | _ => exact h

theorem agrees_of_gets (h : cache.Fresh) {v : CASValue} (hv : v ∈ gets cache key) :
    cache.Agrees key v.value v.casToken := by
  obtain ⟨e, he, rfl⟩ := map_eq_some_iff.mp hv
  exact h.agrees he

namespace World.Sound

variable {w' : World} {thread : Nat}

/-- The entry of a lease that has not run out. -/
theorem entry_of_holds (h : w.Sound) (hw : w.Holds client key) :
    ∃ e, w.cache.find key = some e ∧ Own client e.value := by
  obtain ⟨g, hg, rfl, rfl, hahead⟩ := hw
  obtain ⟨e, he, hd, hown⟩ := h.grants g hg hahead
  exact ⟨e, Cache.find_eq_some_iff.mpr ⟨he, hd ▸ hahead⟩, hown⟩

theorem goto (h : w.Sound) (hframe : frame.Sound client w.cache) :
    (w.goto client thread frame).Sound where
  fresh := h.fresh
  locals := h.locals
  grants := h.grants
  frames client' thread' := by
    show (update w.frames client (update (w.frames client) thread frame) client' thread').Sound
      client' w.cache
    rcases eq_or_ne client' client with rfl | hc
    · rw [update_self]
      rcases eq_or_ne thread' thread with rfl | ht
      · rwa [update_self]
      · rw [update_of_ne ht]
        exact h.frames client' thread'
    · rw [update_of_ne hc]
      exact h.frames client' thread'

theorem setLocal {val : Option Bytes} (h : w.Sound) (hval : ∀ v ∈ val, Own client v) :
    (w.setLocal client key val).Sound where
  fresh := h.fresh
  frames := h.frames
  grants := h.grants
  locals client' key' v hv := by
    change update w.localKeyLeaseMap client (update (w.localKeyLeaseMap client) key val)
      client' key' = some v at hv
    rcases eq_or_ne client' client with rfl | hc
    · rw [update_self] at hv
      rcases eq_or_ne key' key with rfl | hk
      · rw [update_self] at hv
        exact hval v hv
      · rw [update_of_ne hk] at hv
        exact h.locals client' key' v hv
    · rw [update_of_ne hc] at hv
      exact h.locals client' key' v hv

/-- Storing an entry on a key keeps the leases on the other keys. -/
theorem grants_store (h : w.Sound) {g : Grant} (hg : g ∈ w.grants)
    (hahead : Cache.ahead w.cache.now g.deadline = true) (hkey : g.key ≠ key) :
    ∃ e, (w.cache.store key v d).entries g.key = some e ∧ e.deadline = g.deadline ∧
    Own g.client e.value := by
  rw [Cache.entries_store_ne hkey]
  exact h.grants g hg hahead

/-- A process stores its entry on a key on which nobody holds a lease. -/
theorem grant (h : w.Sound) (hown : Own client newVal) (hfree : ∀ client', ¬ w.Holds client' key) :
    (w.grant client key d (w.cache.store key newVal d)).Sound where
  fresh := h.fresh.store
  frames client' thread' := (h.frames client' thread').store
  locals := h.locals
  grants g hg hahead := by
    rcases mem_cons.mp hg with rfl | hg
    · exact ⟨_, Cache.entries_store_self, rfl, hown⟩
    · exact h.grants_store hg hahead fun hkey => hfree g.client ⟨g, hg, rfl, hkey, hahead⟩

/-- A process frees a key on which nobody else holds a lease. -/
theorem giveUp (h : w.Sound) (hown : ∀ client', w.Holds client' key → client' = client) :
    (w.giveUp client key (w.cache.store key newLease d)).Sound where
  fresh := h.fresh.store
  frames client' thread' := (h.frames client' thread').store
  locals := h.locals
  grants g hg hahead := by
    obtain ⟨hg, hkept⟩ := mem_filter.mp hg
    refine h.grants_store hg hahead fun hkey => ?_
    have hclient := hown g.client ⟨g, hg, rfl, hkey, hahead⟩
    simp [hclient, hkey] at hkept

/-- A lease is granted on a key without an entry, or with that of a free key. -/
theorem free_of_acquireStore {timeout : Int64} (h : w.Sound)
    (hval : ∀ v ∈ val, w.cache.Agrees key v.value v.casToken)
    (hsuccess : (acquireStore S w.cache key timeout newVal val).1 = true) :
    (acquireStore S w.cache key timeout newVal val).2 = w.cache.store key newVal
      (S.deadline w.cache.now timeout) ∧
      ∀ client', ¬ w.Holds client' key := by
  cases val with
  | none =>
    cases hfind : w.cache.find key with
    | some e =>
      rw [acquireStore, Cache.add_of_find hfind] at hsuccess
      cases hsuccess
    | none =>
      rw [acquireStore, Cache.add_of_find_none hfind]
      refine ⟨rfl, fun client' hholds => ?_⟩
      obtain ⟨e, he, -⟩ := h.entry_of_holds hholds
      rw [hfind] at he
      cases he
  | some v =>
    rw [acquireStore] at hsuccess ⊢
    by_cases hnew : v.value = newLease
    · rw [if_pos hnew] at hsuccess ⊢
      by_cases htoken : ∃ e, w.cache.find key = some e ∧ e.token = v.casToken
      · obtain ⟨e, he, htoken⟩ := htoken
        rw [← htoken, Cache.cas_of_token he]
        refine ⟨rfl, fun client' hholds => ?_⟩
        -- the entry that was read with this token is that of a free key
        obtain ⟨e', he', hown⟩ := h.entry_of_holds hholds
        cases he.symm.trans he'
        have hvalue := (hval v rfl).2 e (Cache.find_eq_some_iff.mp he).1 htoken
        exact hown.ne_newLease (hvalue.trans hnew)
      · push Not at htoken
        exact absurd (of_decide_eq_true hsuccess) (Cache.cas_refused htoken).1
    · rw [if_neg hnew] at hsuccess
      cases hsuccess

/-- What the swap of a release finds, if it finds the entry that was read: nobody else's lease. -/
theorem own_of_releaseCas {val : CASValue} {e : Cache.Entry Bytes} (h : w.Sound)
    (hframe : w.frames client thread = .releaseCas key val) (he : w.cache.find key = some e)
    (htoken : e.token = val.casToken) (hholds : w.Holds client' key) : client' = client := by
  have hsound := h.frames client thread
  rw [hframe] at hsound
  obtain ⟨e', he', hown⟩ := h.entry_of_holds hholds
  cases he.symm.trans he'
  have hvalue := hsound.2.2 e (Cache.find_eq_some_iff.mp he).1 htoken
  exact hown.eq (hvalue ▸ hsound.1)

theorem frame_releaseCheck (h : w.Sound) (hval : ∀ v ∈ val, w.cache.Agrees key v.value v.casToken) :
    (releaseCheck w client key val).Sound client w.cache := by
  cases val with
  | none => trivial
  | some v =>
    rw [releaseCheck]
    split
    · exact ⟨h.locals client key v.value ‹_›, hval v rfl⟩
    · trivial

/-- One step of a thread keeps the invariant, and leaves the entry of every lease of another
process. -/
theorem advance (hlocal : S.onlyLocalLease client = false) (h : w.Sound)
    (hcond : w.undisturbed (.step client thread) = true)
    (hstep : MemcachedLease.advance S w client thread = some w') :
    w'.Sound ∧ ∀ client' key', client' ≠ client → w.Holds client' key' →
    w'.cache.find key' = w.cache.find key' := by
  have hframe := h.frames client thread
  rw [MemcachedLease.advance] at hstep
  cases hf : w.frames client thread with
  | returned ret =>
    rw [hf] at hstep
    cases hstep
  | acquirePut key timeout newVal =>
    simp only [hf, hlocal] at hstep hframe
    split at hstep
    · cases hstep
      exact ⟨h.goto trivial, fun _ _ _ _ => rfl⟩
    · cases hstep
      exact ⟨(h.setLocal fun v hv => some.inj hv ▸ hframe).goto hframe, fun _ _ _ _ => rfl⟩
  | acquireGets key timeout newVal =>
    simp only [hf] at hstep hframe
    cases hstep
    exact ⟨h.goto ⟨hframe, fun v hv => agrees_of_gets h.fresh hv⟩, fun _ _ _ _ => rfl⟩
  | acquireStore key timeout newVal val =>
    simp only [hf] at hstep hframe
    split at hstep
    · rename_i hsuccess
      cases hstep
      obtain ⟨hcache, hfree⟩ := h.free_of_acquireStore hframe.2 hsuccess
      rw [hcache]
      refine ⟨(h.grant hframe.1 hfree).goto trivial, fun client' key' _ hholds => ?_⟩
      exact Cache.find_store_ne fun hkey => hfree client' (hkey ▸ hholds)
    · cases hstep
      exact ⟨h.goto trivial, fun _ _ _ _ => rfl⟩
  | acquireRemove key =>
    simp only [hf] at hstep
    cases hstep
    exact ⟨(h.setLocal fun _ hv => (not_mem_none _ hv).elim).goto trivial, fun _ _ _ _ => rfl⟩
  | releaseGets key =>
    simp only [hf, hlocal] at hstep
    cases hstep
    exact ⟨h.goto fun v hv => agrees_of_gets h.fresh hv, fun _ _ _ _ => rfl⟩
  | releaseCheck key val =>
    simp only [hf] at hstep hframe
    cases hstep
    exact ⟨h.goto (h.frame_releaseCheck hframe), fun _ _ _ _ => rfl⟩
  | releaseCas key val =>
    rw [World.undisturbed, hf, Frame.undisturbed, Option.any_eq_true] at hcond
    obtain ⟨e, he, htoken⟩ := hcond
    have htoken := of_decide_eq_true htoken
    have hown : ∀ client', w.Holds client' key → client' = client := fun _ =>
      h.own_of_releaseCas hf he htoken
    simp only [hf, ← htoken, Cache.cas_of_token he] at hstep
    cases hstep
    refine ⟨(h.giveUp hown).goto trivial, fun client' key' hne hholds => ?_⟩
    exact Cache.find_store_ne fun hkey => hne (hown client' (hkey ▸ hholds))
  | releaseDelete key =>
    rw [hf] at hframe
    exact hframe.elim
  | releaseRemove key ret =>
    simp only [hf] at hstep
    cases hstep
    exact ⟨(h.setLocal fun _ hv => (not_mem_none _ hv).elim).goto trivial, fun _ _ _ _ => rfl⟩

theorem wait {time : Nat} (h : w.Sound) :
    ({ w with cache := w.cache.wait time } : World).Sound where
  fresh := h.fresh
  frames client thread := by
    have hframe := h.frames client thread
    revert hframe
    show (w.frames client thread).Sound client w.cache → (w.frames client thread).Sound client
      (w.cache.wait time)
    generalize w.frames client thread = frame
    cases frame <;> exact id
  locals := h.locals
  grants g hg hahead := h.grants g hg (Cache.ahead_of_wait hahead)

/-- Every action keeps the invariant. -/
theorem next {a : Action} (hlocal : ∀ client, S.onlyLocalLease client = false) (h : w.Sound)
    (hcond : w.undisturbed a = true) (hstep : w.next S a = some w') : w'.Sound := by
  cases a with
  | acquireLease client thread key timeout =>
    rw [World.next] at hstep
    split at hstep
    · cases hstep
      have hcount : ({ w with counter := update w.counter client (w.counter client + 1) } :
        World).Sound :=
        ⟨h.fresh, h.frames, h.locals, h.grants⟩
      exact hcount.goto ⟨_, rfl⟩
    · cases hstep
  | releaseLease client thread key =>
    rw [World.next] at hstep
    split at hstep
    · cases hstep
      exact h.goto trivial
    · cases hstep
  | step client thread => exact (h.advance (hlocal client) hcond hstep).1
  | wait time =>
    cases hstep
    exact h.wait

end World.Sound

/-- The invariant along a run in which no lease runs out on its way back. -/
theorem sound_of_run (hlocal : ∀ client, S.onlyLocalLease client = false)
    (hr : (protocol S).Run h w) (hcond : ∀ t ∈ h, t.pre.undisturbed t.label = true) : w.Sound := by
  induction hr with
  | init hs =>
    cases hs
    exact ⟨nofun, fun _ _ => trivial, nofun, nofun⟩
  | step _ hs ih =>
    obtain ⟨hlast, hcond⟩ := forall_mem_cons.mp hcond
    exact (ih hcond).next hlocal hlast hs

/-- Processes that use the cache exclude each other, and no step of one of them touches the entry of
a lease that another one holds, in every run in which no lease runs out on its way back. -/
theorem holds_unique_of_run {S : Setup} {h : List (Transition World Action)} {w : World}
    (hlocal : ∀ client, S.onlyLocalLease client = false) (hr : (protocol S).Run h w)
    (hcond : ∀ t ∈ h, t.pre.undisturbed t.label = true) :
    (∀ client client' key, w.Holds client key → w.Holds client' key → client = client') ∧
      ∀ t ∈ h, ∀ client thread, t.label = .step client thread → ∀ client' key, client' ≠ client →
        t.pre.Holds client' key → ∃ e, t.pre.cache.find key = some e ∧
        t.post.cache.find key = some e := by
  constructor
  · intro client client' key hholds hholds'
    have hsound := sound_of_run hlocal hr hcond
    obtain ⟨e, he, hown⟩ := hsound.entry_of_holds hholds
    obtain ⟨e', he', hown'⟩ := hsound.entry_of_holds hholds'
    cases he.symm.trans he'
    exact hown.eq hown'
  · intro t ht client thread hlabel client' key hne hholds
    obtain ⟨newer, older, rfl⟩ := append_of_mem ht
    obtain ⟨hr, hstep⟩ := hr.of_suffix
    have hsound := sound_of_run hlocal hr fun t' ht' => hcond t' (by simp [ht'])
    have hcond := hcond t ht
    rw [hlabel] at hcond hstep
    obtain ⟨e, he, -⟩ := hsound.entry_of_holds hholds
    exact ⟨e, he, ((hsound.advance (hlocal client) hcond hstep).2 client' key hne hholds).trans he⟩

/-- A cache that keeps an entry for as many milliseconds as its expiry date says. -/
def plainSetup : Setup where
  onlyLocalLease _ := false
  deadline now expiry := some (now + expiry.toInt.toNat)

/-- A call that goes on for a number of steps. -/
def Action.call (a : Action) (client : Int32) (steps : Nat) : List Action :=
  a :: List.replicate steps (.step client 0)

/-- Two processes take turns. -/
theorem holds_unique_of_run_turns : ∃ (h : List (Transition World Action)) (w : World),
    (protocol plainSetup).Run h w ∧ w.Holds 2 [0x6b] ∧
      (∀ client client' key, w.Holds client key → w.Holds client' key → client = client') ∧
        ∀ t ∈ h, ∀ client thread, t.label = .step client thread → ∀ client' key, client' ≠ client →
          t.pre.Holds client' key → ∃ e, t.pre.cache.find key = some e ∧
          t.post.cache.find key = some e := by
  obtain ⟨h, w, hr, hcond, hholds⟩ := System.exists_follow {} (World.next plainSetup)
    (Action.call (.acquireLease 1 0 [0x6b] 5000) 1 3 ++ Action.call
      (.acquireLease 2 0 [0x6b] 5000) 2 4 ++ Action.call (.releaseLease 1 0 [0x6b]) 1 4 ++
      Action.call (.acquireLease 2 0 [0x6b] 5000) 2 3)
    (P := fun h w => (∀ t ∈ h, t.pre.undisturbed t.label) ∧ w.Holds 2 [0x6b]) (by decide +kernel)
  exact ⟨h, w, hr, hholds, holds_unique_of_run (fun _ => rfl) hr hcond⟩

/-- A lease that runs out on its way back: the process that releases it deletes the entry of the
next holder, and a third process gets the lease as well. -/
theorem holds_not_unique : ∃ (h : List (Transition World Action)) (w : World),
    (protocol plainSetup).Run h w ∧ w.Holds 2 [0x6b] ∧ w.Holds 3 [0x6b] ∧
      ∃ t ∈ h, t.label = .step 1 0 ∧ t.pre.Holds 2 [0x6b] ∧
      (t.pre.cache.find [0x6b]).isSome = true ∧
        t.post.cache.find [0x6b] = none := by
  exact System.exists_follow {} (World.next plainSetup)
    (Action.call (.acquireLease 1 0 [0x6b] 5000) 1 3 ++ [.wait 4000] ++
      Action.call (.releaseLease 1 0 [0x6b]) 1 2 ++ [.wait 2000] ++
      Action.call (.acquireLease 2 0 [0x6b] 5000) 2 3 ++ List.replicate 2 (.step 1 0) ++
      Action.call (.acquireLease 3 0 [0x6b] 5000) 3 3)
    (by decide +kernel)

end Rejig.MemcachedLease
