import Rejig.Frame
import Rejig.Stored
import Mathlib.Logic.Function.Basic

/-!
# Execution with enough memory

The permissions of `Rejig.Effect` say what an operation may do.  When the allocator always finds a
chunk, and evicts nothing for it, one can say what an operation does.  `Shows s₀ V s` says that `s`
is such a state, at the time of `s₀`, and that `V` is what the operations see in its table: the
items that have not expired, by their names.  Reading the table is then reading `V`, and linking and
unlinking an item is updating `V` at one name.

Where an item lies in memory, and when it was last used, does not matter to what the operations do
afterwards.  `Content` is what does matter, and `KeyState` is the content of the four records of a
key. An operation on a key becomes a function on `KeyState`, and the loops that end a transaction
apply such a function to every key of the transaction.
-/

namespace Rejig

open Prog Server Option List Function

variable {it : Item} {cfgId pending : Int} {leaseToken : UInt64} {k n : Bytes} {V : View}
  {f : Item → Item} {o : Option Item}

/-- The items of the table by their names, as far as they have not expired. -/
abbrev View := Bytes → Option Item

/-- The state `s` has enough memory, is no older than `s₀`, and shows the items `V`. -/
structure Shows (s₀ : Server) (V : View) (s : Server) : Prop where
  heap : s.heap = []
  oldestLive : s.oldestLive = 0
  now : s.now = s₀.now
  configurationNumber : s.configurationNumber = s₀.configurationNumber
  leaseCurrentToken : s₀.leaseCurrentToken ≤ s.leaseCurrentToken
  live : s.live = V

namespace Shows

variable {c : Settings} {s₀ s : Server}

theorem refl (hheap : s.heap = []) (hold : s.oldestLive = 0) : Shows s s.live s :=
  ⟨hheap, hold, rfl, rfl, le_rfl, rfl⟩

section

variable (h : Shows s₀ V s)

include h

theorem read (n : Bytes) : s.live n = V n := congrFun h.live n

/-- A change of the table. -/
theorem relive {s' : Server} {V' : View} (live : s'.live = V') (heap : s'.heap = s.heap := by rfl)
    (oldestLive : s'.oldestLive = s.oldestLive := by rfl) (now : s'.now = s.now := by rfl)
    (config : s'.configurationNumber = s.configurationNumber := by rfl)
    (token : s'.leaseCurrentToken = s.leaseCurrentToken := by rfl) : Shows s₀ V' s' :=
  ⟨heap.trans h.heap, oldestLive.trans h.oldestLive, now.trans h.now,
    config.trans h.configurationNumber, token ▸ h.leaseCurrentToken, live⟩

theorem reap (n : Bytes) : Shows s₀ V (s.reap n) := h.relive ((funext (live_reap s n)).trans h.live)

theorem key_eq (hit : V n = some it) : it.key = n :=
  key_of_live ((h.read n).trans hit)

/-- A name under which something is shown fits its length byte. -/
theorem u8Name_eq (hit : V n = some it) : u8Name n = n := by
  rw [← h.key_eq hit]
  exact u8Name_of_lt it.key_lt

theorem unlink (hit : V n = some it) : Shows s₀ (update V n none) (s.unlink it) := by
  have hk : it.key = n := h.key_eq hit
  refine h.relive (funext fun m => ?_)
  rw [live_unlink_of_live, hk, h.read]
  · by_cases hm : m = n
    · subst hm
      rw [if_pos rfl, update_self]
    · rw [if_neg hm, update_of_ne hm]
  · rw [hk, h.read, hit]

theorem link (it : Item) :
    Shows s₀ (update V it.key ((some (s.stamp c it)).filter (!·.expired s₀.now)))
      (s.link c it) := by
  refine h.relive (funext fun m => ?_)
  rw [live_link, h.read]
  by_cases hm : m = it.key
  · subst hm
    rw [if_pos rfl, update_self, filter_some, filter_some, dead_of_oldestLive h.oldestLive, h.now]
  · rw [if_neg hm, update_of_ne hm]

/-- Writing to an item that is shown. -/
theorem write (hit : V n = some it) (hf : ∀ it, (f it).key = it.key) :
    Shows s₀ (update V n ((some (f it)).filter (!·.expired s₀.now))) (s.write it f) := by
  have hk : it.key = n := h.key_eq hit
  have hfind : s.find it.key = some it := (live_eq_some.mp ((h.read _).trans (hk ▸ hit))).1
  refine h.relive (funext fun m => ?_)
  rw [Server.live, find_write_of_find _ _ hf hfind, hk, dead_write]
  by_cases hm : m = n
  · subst hm
    rw [if_pos rfl, update_self, filter_some, filter_some, dead_of_oldestLive h.oldestLive, h.now]
  · rw [if_neg hm, update_of_ne hm, ← h.read]
    rfl

theorem allocate : Shows s₀ V s.allocate :=
  h.relive ((funext fun m => s.live_allocate_of_heap_nil m h.heap).trans h.live)
    (by rw [allocate_heap, h.heap, tail_nil])

theorem draw : Shows s₀ V s.draw :=
  { h with leaseCurrentToken := h.leaseCurrentToken.trans (Nat.le_succ _) }

theorem leaseExpiry : s.leaseExpiry c = s₀.leaseExpiry c := by
  rw [Server.leaseExpiry, Server.leaseExpiry, h.now]

end

end Shows

/-! ## The records of a key -/

/-- What of an item the operations look at. -/
structure Content where
  data : Bytes
  dataflags : Nat := 0
  exptime : Nat := 0
  ralign : Bool := false
  lease : Lease := .none
  co : CoFlag := .none
  p : UInt8 := 0
  configNumber : Int := -1
deriving DecidableEq, Repr

namespace Content

/-- `Item.expired` -/
def expired (now : Nat) (x : Content) : Bool := x.exptime ≠ 0 && x.exptime ≤ now

/-- `item_has_q_lease` -/
def hasQLease (x : Content) : Bool := x.lease = .qInv || x.lease = .qRef || x.lease = .qInc

/-- `item_has_co_lease` -/
def hasCoLease (x : Content) : Bool := x.co = .cLease || (x.co = .oLeaseInv || x.co = .oLeaseRef)

/-- `Item.listCo` -/
def listCo (x : Content) : CoFlag := if x.hasCoLease then x.co else .none

/-- `Item.listLease` -/
def listLease (x : Content) : Lease := if !x.hasCoLease && x.hasQLease then .qInv else .none

/-- `_item_lease_value` -/
def leaseValue (x : Content) : UInt64 := (mcStrtoullLen x.data).getD (.ofNat uint64Max)

/-- The list of a record has an entry. -/
def Has (x : Content) (entry : Bytes) : Prop :=
  trigCheckKeylist x.data x.data.length (u8Name entry) = some true

instance instDecidableHas (x : Content) (entry : Bytes) : Decidable (x.Has entry) :=
  inferInstanceAs (Decidable (_ = _))

end Content

/-- The content of an item. -/
@[simps]
def Item.content (it : Item) : Content where
  data := it.data
  dataflags := it.dataflags
  exptime := it.exptime
  ralign := it.ralign
  lease := it.lease
  co := it.co
  p := it.p
  configNumber := it.configNumber

/-- The content of an item is not changed when it is linked. -/
@[simp] theorem content_stamp (c : Settings) (s : Server) (it : Item) :
    (s.stamp c it).content = it.content := rfl

@[simp] theorem Item.leaseValue_content (it : Item) : it.content.leaseValue = it.leaseValue := rfl

@[simp] theorem Item.hasQLease_content (it : Item) : it.content.hasQLease = it.hasQLease := rfl

/-- What is shown of an item that is linked. -/
theorem Shows.link_content {s₀ s : Server} (h : Shows s₀ V s) (c : Settings) (it : Item)
    (hk : it.key = n) : ∃ o, o.map Item.content = (some it.content).filter (!·.expired s₀.now) ∧
      Shows s₀ (update V n o) (s.link c it) := by
  subst hk
  refine ⟨_, ?_, h.link it⟩
  have hexp : it.content.expired s₀.now = (s.stamp c it).expired s₀.now := rfl
  rw [filter_some, filter_some, hexp]
  split <;> rfl

/-- The value, the lease, the pending version and the pending marker of a key. -/
@[ext]
structure KeyState where
  value : Option Content
  lease : Option Content
  version : Option Content
  marker : Option Content
deriving DecidableEq, Repr

/-- The records of a key, as they are shown. -/
def View.keyState (V : View) (k : Bytes) : KeyState where
  value := (V k).map Item.content
  lease := (V (leaseKey k)).map Item.content
  version := (V (versionKey k)).map Item.content
  marker := (V (pendingKey k)).map Item.content

/-- The records of a key that have not expired. -/
def Server.keyState (s : Server) (k : Bytes) : KeyState := View.keyState s.live k

/-- The pending indicator of a key: the bit of its value, or whether it has a marker. -/
def KeyState.indicator (x : KeyState) : UInt8 :=
  x.value.elim (if x.marker.isSome then 1 else 0) (·.p)

theorem View.keyState_congr {V' : View} (h : ∀ n ∈ recordNames k, V' n = V n) :
    View.keyState V' k = View.keyState V k := by
  have hk := h k (by simp [recordNames])
  have hl := h (leaseKey k) (by simp [recordNames])
  have hv := h (versionKey k) (by simp [recordNames])
  have hp := h (pendingKey k) (by simp [recordNames])
  rw [View.keyState, View.keyState, hk, hl, hv, hp]

theorem versionKey_ne_self (key : Bytes) : versionKey key ≠ key := by
  intro h
  have := congrArg List.length h
  simp only [versionKey, length_cons] at this
  omega

section Update

variable (V : View) (k : Bytes) (o : Option Item)

@[simp] theorem View.keyState_update_value : View.keyState (update V k o) k =
    { View.keyState V k with value := o.map Item.content } := by
  simp [View.keyState, update_of_ne, leaseKey_ne_self, versionKey_ne_self, pendingKey_ne_self]

@[simp] theorem View.keyState_update_lease : View.keyState (update V (leaseKey k) o) k =
    { View.keyState V k with lease := o.map Item.content } := by
  simp [View.keyState, update_of_ne, (leaseKey_ne_self k).symm, leaseKey_ne_versionKey.symm,
    leaseKey_ne_pendingKey.symm]

@[simp] theorem View.keyState_update_version : View.keyState (update V (versionKey k) o) k =
    { View.keyState V k with version := o.map Item.content } := by
  simp [View.keyState, update_of_ne, (versionKey_ne_self k).symm,
    versionKey_ne_pendingKey.symm]

@[simp] theorem View.keyState_update_marker : View.keyState (update V (pendingKey k) o) k =
    { View.keyState V k with marker := o.map Item.content } := by
  simp [View.keyState, update_of_ne, (pendingKey_ne_self k).symm]

end Update

theorem View.update_of_notMem {m : Bytes} (hm : m ∈ recordNames k) (hn : n ∉ recordNames k) :
    update V m o n = V n := by
  have hne : n ≠ m := by
    rintro rfl
    exact hn hm
  rw [update_of_ne hne]

/-- From `V` to `V'` the records of a key changed by `g`, and nothing else changed. -/
structure View.Step (k : Bytes) (g : KeyState → KeyState) (V V' : View) : Prop where
  key : View.keyState V' k = g (View.keyState V k)
  other : ∀ n ∉ recordNames k, V' n = V n

/-! ## Dropping a lease, and committing -/

namespace KeyState

/-- The lease without a transaction, if it lists others; it expires at `exp`. -/
def delisted (now exp : Nat) (tid : Bytes) (l : Content) : Option Content :=
  if l.data.length = (u8Name tid).length + 1 then none
  else (trigKeylistRmvkey l.data (u8Name tid)).bind fun data =>
    (some { data := data, exptime := exp, lease := l.listLease, co := l.listCo }).filter
      (!·.expired now)

/-- What `itemDropLease` leaves of a lease. -/
def droppedLease (now exp : Nat) (tid : Bytes) (l : Content) : Option Content :=
  if l.lease ≠ .qInv then none
  else if l.Has tid then delisted now exp tid l
  else some l

/-- The value while a commit is going on: the pending version takes its place, unless it is
empty. -/
def applied (pending cfgId : Int) (x : KeyState) : Option Content :=
  match x.version with
  | none => x.value
  | some pv =>
    if pv.data = [] then x.value
    else some { data := pv.data, dataflags := pv.dataflags, p := .ofNat (pending % 256).toNat,
                configNumber := cfgId }

/-- The pending marker of a key after a commit; `found` says whether there is a value by then. -/
def markedBy (pending cfgId : Int) (found : Bool) (marker : Option Content) : Option Content :=
  if found then none
  else if marker.isSome then if pending = 0 then none else marker
  else if pending = 1 then some { data := [0], configNumber := cfgId } else none

/-- The records of a key with the Q lease `l` after a commit. -/
def committed (now exp : Nat) (tid : Bytes) (pending cfgId : Int) (l : Content) (x : KeyState) :
    KeyState where
  value := if x.version.isNone || l.lease = .qInv then none else x.applied pending cfgId
  lease := droppedLease now exp tid l
  version := none
  marker := markedBy pending cfgId (x.applied pending cfgId).isSome x.marker

/-- The records of a key after a commit of a transaction that lists it. -/
def commit (now exp : Nat) (tid : Bytes) (pending cfgId : Int) (x : KeyState) : KeyState :=
  (x.lease.filter Content.hasQLease).elim x fun l => x.committed now exp tid pending cfgId l

end KeyState

section Commit

variable {c : Settings} {s₀ s : Server} {tid key : Bytes}

/-- A list that is rebuilt is stored also when it is empty. -/
theorem Item.storable_rebuilt {l : Item} (hinv : l.lease = .qInv) (hlease : it.lease = l.listLease)
    (hco : it.co = l.listCo) : it.storable = true := by
  have hq : l.hasQLease = true := by simp [Item.hasQLease, Item.hasQInvLease, hinv]
  cases hl : l.hasCLease || l.hasOLease with
  | false =>
    refine Item.storable_of_lease ?_
    simp [hlease, Item.listLease, hl, hq]
  | true =>
    have hit : it.hasCoLease = true := by
      have hco' : it.co = l.co := by rw [hco, Item.listCo, hl, if_pos rfl]
      rwa [Item.hasCoLease, Item.hasCLease, Item.hasOLease, Item.hasOLeaseInv,
        Item.hasOLeaseRef, hco']
    simp [Item.storable, hit]

section

variable (h : Shows s₀ V s)

include h

/-- Taking a transaction off the list of a lease. -/
theorem Shows.wlp_itemRemoveTidLease {l : Item} (hl : V (leaseKey key) = some l)
    (hinv : l.lease = .qInv) :
    wlp (itemRemoveTidLease (some l) key tid) (fun _ s' => ∃ o,
      o.map Item.content = KeyState.droppedLease s₀.now (s₀.leaseExpiry c) tid l.content ∧
      Shows s₀ (update V (leaseKey key) o) s') c s := by
  rw [KeyState.droppedLease, Item.content_lease, if_neg (not_not.mpr hinv), itemRemoveTidLease,
    itemRemoveEntryFromList, whenSome_some, wlp_bind, itemCheckEntry, wlp_deref]
  intro present hpresent
  rw [wlp_when]
  refine ⟨?_, ?_⟩
  · rintro rfl
    have hhas : l.content.Has tid := hpresent
    rw [if_pos hhas, KeyState.delisted, Item.content_data, Item.nbyte]
    by_cases hlast : l.data.length = (u8Name tid).length + 1
    · rw [if_pos hlast, if_pos hlast]
      exact wlp_itemUnlink.mpr ⟨none, rfl, h.unlink hl⟩
    · rw [if_neg hlast, if_neg hlast, wlp_bind, wlp_deref]
      intro data hdata
      rw [wlp_bind, wlp_itemCreateReservedItem]
      intro _
      rw [wlp_bind, wlp_deref_ite]
      intro _
      rw [wlp_bind, wlp_itemStore_set (.inl rfl),
        if_pos (Item.storable_rebuilt hinv rfl rfl), wlp_pure]
      obtain ⟨o, ho, hs'⟩ := h.allocate.link_content c
        (s.freshReserved c (leaseKey key) data l.listLease l.listCo) (h.u8Name_eq hl)
      refine ⟨o, ?_, hs'⟩
      rw [ho, hdata, bind_some, ← h.leaseExpiry]
      rfl
  · rintro rfl
    have hhas : ¬ l.content.Has tid := by
      intro hhas
      cases hpresent.symm.trans hhas
    refine ⟨some l, by rw [if_neg hhas]; rfl, ?_⟩
    rwa [← hl, update_eq_self]

theorem Shows.wlp_itemDropLease {l : Item} (hl : V (leaseKey key) = some l) :
    wlp (itemDropLease tid key l) (fun _ s' => ∃ o,
      o.map Item.content = KeyState.droppedLease s₀.now (s₀.leaseExpiry c) tid l.content ∧
      Shows s₀ (update V (leaseKey key) o) s') c s := by
  rw [itemDropLease, Item.hasQInvLease]
  by_cases hinv : l.lease = .qInv
  · rw [if_pos (decide_eq_true hinv)]
    exact h.wlp_itemRemoveTidLease hl hinv
  · rw [if_neg (by simpa using hinv), KeyState.droppedLease, Item.content_lease, if_pos hinv]
    exact wlp_itemUnlink.mpr ⟨none, rfl, h.unlink hl⟩

/-- A plain item that has just been allocated is stored, unless it is empty. -/
theorem Shows.wlp_alloc_store {dataflags nbyte : Nat} {x : Content} (hname : u8Name key = key)
    (hf : ∀ it, (f it).key = it.key)
    (hx : ∀ s : Server, (f (s.fresh key dataflags 0 cfgId)).content = x) (hlease : x.lease = .none)
    (hco : x.co = .none) : wlp (do
      let newIt ← deref (← itemAllocConfig key dataflags 0 nbyte cfgId)
      let _ ← itemStore (f newIt) .set) (fun _ s' => ∃ o,
        o.map Item.content =
          (if x.data = [] then (V key).map Item.content else (some x).filter (!·.expired s₀.now)) ∧
        Shows s₀ (update V key o) s') c s := by
  have hplain : Plain (f (s.fresh key dataflags 0 cfgId)) :=
    ⟨(congrArg Content.lease (hx s)).trans hlease, (congrArg Content.co (hx s)).trans hco⟩
  have hdata : (f (s.fresh key dataflags 0 cfgId)).data = x.data := congrArg Content.data (hx s)
  rw [wlp_bind, wlp_itemAllocConfig]
  intro _
  rw [wlp_bind, wlp_deref_ite]
  intro _
  rw [wlp_bind, wlp_itemStore_set (.inl rfl), hplain.storable, Item.nbyte, hdata]
  by_cases hnil : x.data = []
  · rw [if_neg (by simp [hnil]), if_pos hnil, wlp_pure]
    refine ⟨V key, rfl, ?_⟩
    rw [update_eq_self]
    exact h.allocate
  · rw [if_pos (by simp [hnil]), if_neg hnil, wlp_pure]
    obtain ⟨o, ho, hs'⟩ := h.allocate.link_content c (f (s.fresh key dataflags 0 cfgId))
      ((hf _).trans hname)
    exact ⟨o, hx s ▸ ho, hs'⟩

theorem Shows.wlp_itemCommitApply {pv : Item} {x : KeyState} (hname : u8Name key = key)
    (hvalue : x.value = (V key).map Item.content) (hversion : x.version = some pv.content) :
    wlp (itemCommitApply key pv pending cfgId) (fun _ s' => ∃ o,
      o.map Item.content = x.applied pending cfgId ∧ Shows s₀ (update V key o) s') c s := by
  refine (h.wlp_alloc_store (f := fun it =>
    { it with data := pv.data, p := .ofNat (pending % 256).toNat }) (x :=
    { data := pv.data, dataflags := pv.dataflags, p := .ofNat (pending % 256).toNat,
            configNumber := cfgId })
    hname (fun _ => rfl) (fun _ => rfl) rfl rfl).mono fun _ s' ⟨o, ho, hs'⟩ => ⟨o, ?_, hs'⟩
  rw [ho, KeyState.applied, hversion, hvalue]
  rfl

theorem Shows.wlp_itemCommitPending {it : Option Item}
    (hname : u8Name (pendingKey key) = pendingKey key) :
    wlp (itemCommitPending key it pending cfgId) (fun _ s' => ∃ o, o.map Item.content =
        KeyState.markedBy pending cfgId it.isSome ((V (pendingKey key)).map Item.content) ∧
      Shows s₀ (update V (pendingKey key) o) s') c s := by
  rw [itemCommitPending, wlp_bind, itemGetPending, wlp_itemGet, h.read]
  have hkeep : Shows s₀ (update V (pendingKey key) (V (pendingKey key)))
      (s.reap (pendingKey key)) := by
    rw [update_eq_self]
    exact h.reap _
  cases hm : V (pendingKey key) with
  | some m =>
    have hdrop := (h.reap (pendingKey key)).unlink hm
    cases it with
    | some it => exact wlp_itemUnlink.mpr ⟨none, rfl, hdrop⟩
    | none =>
      dsimp only
      rw [wlp_when, wlp_itemUnlink]
      refine ⟨fun hp => ⟨none, ?_, hdrop⟩, fun hp => ⟨some m, ?_, hm ▸ hkeep⟩⟩
      · simp [KeyState.markedBy, of_decide_eq_true hp]
      · simp [KeyState.markedBy, of_decide_eq_false hp]
  | none =>
    cases it with
    | some it => exact .pure ⟨none, rfl, hm ▸ hkeep⟩
    | none =>
      dsimp only
      rw [wlp_when]
      refine ⟨fun hp => ?_, fun hp => ⟨none, ?_, hm ▸ hkeep⟩⟩
      · refine ((h.reap _).wlp_alloc_store (f := fun it => { it with data := [0] })
          (x := { data := [0], configNumber := cfgId }) hname (fun _ => rfl) (fun _ => rfl) rfl
          rfl).mono ?_
        rintro _ s' ⟨o, ho, hs'⟩
        refine ⟨o, ?_, hs'⟩
        rw [ho, of_decide_eq_true hp]
        rfl
      · simp [KeyState.markedBy, of_decide_eq_false hp]

/-- Dropping what is found under a name. -/
theorem Shows.wlp_dropFound (ho : V n = o) :
    wlp (whenSome o itemUnlink) (fun _ => Shows s₀ (update V n none)) c s := by
  subst ho
  rw [wlp_whenSome]
  refine ⟨fun hn => ?_, fun it hit => wlp_itemUnlink.mpr (h.unlink hit)⟩
  rwa [← hn, update_eq_self]

/-- Dropping what is found under a name, under a condition. -/
theorem Shows.wlp_dropFound_when {b : Bool} (ho : V n = o) :
    wlp (whenSome o fun it => when b (itemUnlink it)) (fun _ =>
        Shows s₀ (update V n (if b then none else o))) c s := by
  cases b with
  | true => exact h.wlp_dropFound ho
  | false =>
    subst ho
    simp only [when_false, Bool.false_eq_true, if_false, update_eq_self, wlp_whenSome, wlp_pure]
    exact ⟨fun _ => h, fun _ _ => h⟩

/-- One pass of `item_commit` for a key whose Q lease was found. -/
theorem Shows.wlp_itemCommitLeased {l : Item} (hl : V (leaseKey key) = some l)
    (hq : l.hasQLease = true) :
    wlp (itemCommitLeased tid pending cfgId key l (V (versionKey key))) (fun _ s' =>
        ∃ V', Shows s₀ V' s' ∧
      View.Step key (KeyState.commit s₀.now (s₀.leaseExpiry c) tid pending cfgId) V V') c s := by
  -- a key whose lease is found fits its length byte with any of the prefixes
  have hlen : (leaseKey key).length < 256 := h.key_eq hl ▸ l.key_lt
  have hkname : u8Name key = key := by
    refine u8Name_of_lt ?_
    simp only [leaseKey, List.length_cons] at hlen
    omega
  have hpname : u8Name (pendingKey key) = pendingKey key := u8Name_of_lt hlen
  simp only [itemCommitLeased, wlp_bind, wlp_itemGet]
  refine (h.wlp_itemDropLease hl).mono fun _ s₂ ⟨ol, hol, hs₂⟩ => ?_
  have happly : wlp (whenSome (V (versionKey key)) fun pv => itemCommitApply key pv pending cfgId)
      (fun _ s₃ => ∃ ov, ov.map Item.content = (View.keyState V key).applied pending cfgId ∧
        Shows s₀ (Function.update (Function.update V (leaseKey key) ol) key ov) s₃) c s₂ := by
    have hvalue : Function.update V (leaseKey key) ol key = V key :=
      Function.update_of_ne (leaseKey_ne_self key).symm _ _
    cases hpv : V (versionKey key) with
    | none =>
      refine .pure ⟨V key, ?_, ?_⟩
      · simp [KeyState.applied, View.keyState, hpv]
      · rwa [← hvalue, Function.update_eq_self]
    | some pv =>
      refine hs₂.wlp_itemCommitApply hkname ?_ ?_
      · rw [hvalue]
        rfl
      · simp [View.keyState, hpv]
  refine happly.mono fun _ s₃ ⟨ov, hov, hs₃⟩ => ?_
  rw [hs₃.read, Function.update_self]
  refine ((hs₃.reap key).wlp_dropFound_when (Function.update_self ..)).mono fun _ s₄ hs₄ => ?_
  rw [Function.update_idem] at hs₄
  generalize how : (if ((V (versionKey key)).isNone || l.hasQInvLease) = true then none else
    ov) = ow at hs₄
  refine (hs₄.wlp_itemCommitPending hpname).mono fun _ s₅ ⟨om, hom, hs₅⟩ => ?_
  have hmarker : Function.update (Function.update V (leaseKey key) ol) key ow (pendingKey key) =
      V (pendingKey key) := by
    rw [Function.update_of_ne (pendingKey_ne_self key),
      Function.update_of_ne leaseKey_ne_pendingKey.symm]
  have hpv : Function.update (Function.update (Function.update V (leaseKey key) ol) key ow)
      (pendingKey key) om (versionKey key) = V (versionKey key) := by
    rw [Function.update_of_ne versionKey_ne_pendingKey,
      Function.update_of_ne (versionKey_ne_self key),
      Function.update_of_ne leaseKey_ne_versionKey.symm]
  refine (hs₅.wlp_dropFound hpv).mono fun _ s₆ hs₆ => ⟨_, hs₆, ?_, fun n hn => ?_⟩
  · simp only [View.keyState_update_value, View.keyState_update_lease, View.keyState_update_version,
      View.keyState_update_marker]
    have hlease : (View.keyState V key).lease.filter Content.hasQLease = some l.content := by
      simp [View.keyState, hl, Option.filter_some, hq]
    rw [KeyState.commit, hlease, Option.elim_some]
    ext1
    · rw [← how, apply_ite (Option.map Item.content), hov]
      simp [KeyState.committed, View.keyState, Item.hasQInvLease]
    · exact hol
    · rfl
    · have hisSome : ov.isSome = ((View.keyState V key).applied pending cfgId).isSome := by
        rw [← hov, Option.isSome_map]
      rw [hom, hmarker, hisSome]
      rfl
  · simp only [recordNames, List.mem_cons, List.not_mem_nil, or_false, not_or] at hn
    simp only [Function.update_of_ne, hn, ne_eq, not_false_eq_true]

/-- One pass of `item_commit`. -/
theorem Shows.wlp_itemCommitKey :
    wlp (itemCommitKey tid pending cfgId key) (fun _ s' => ∃ V', Shows s₀ V' s' ∧
      View.Step key (KeyState.commit s₀.now (s₀.leaseExpiry c) tid pending cfgId) V V') c s := by
  have hs₁ := (h.reap (leaseKey key)).reap (versionKey key)
  simp only [itemCommitKey, itemGetLease, itemGetPendingVersion, wlp_bind, wlp_itemGet,
    live_reap, h.read]
  cases hl : V (leaseKey key) with
  | none =>
    refine .pure ⟨V, hs₁, ?_, fun _ _ => rfl⟩
    simp [KeyState.commit, View.keyState, hl]
  | some l =>
    rw [whenSome_some, wlp_when]
    refine ⟨hs₁.wlp_itemCommitLeased hl, fun hq => ⟨V, hs₁, ?_, fun _ _ => rfl⟩⟩
    simp [KeyState.commit, View.keyState, hl, filter_some, hq]

end

end Commit

/-! ## The end of a transaction -/

/-- From `s` to `s'` a transaction ended: its record is gone, the records of each of its keys
changed by `g`, and nothing else changed. -/
structure Ended (tid : Bytes) (keys : List Bytes) (g : KeyState → KeyState)
    (s s' : Server) : Prop where
  shows : Shows s s'.live s'
  record : s'.live tid = none
  keyState : ∀ k ∈ keys, s'.keyState k = g (s.keyState k)
  other : ∀ n, n ≠ tid → (∀ k ∈ keys, n ∉ recordNames k) → s'.live n = s.live n

section Finish

variable {c : Settings} {N : Naming} {s₀ s : Server} {tid : Bytes} {g : KeyState → KeyState}

/-- A loop that changes the records of one key in each pass. -/
theorem Shows.wlp_forEach {f : Bytes → ServerM Unit} {keys : List Bytes} (h : Shows s₀ V s)
    (hun : ∀ k ∈ keys, Unprefixed k) (hnodup : keys.Nodup)
    (hpass : ∀ k ∈ keys, ∀ V s, Shows s₀ V s →
      wlp (f k) (fun _ s' => ∃ V', Shows s₀ V' s' ∧ View.Step k g V V') c s) :
    wlp (forEach f keys) (fun _ s' => ∃ V', Shows s₀ V' s' ∧
        (∀ k ∈ keys, View.keyState V' k = g (View.keyState V k)) ∧
      ∀ n, (∀ k ∈ keys, n ∉ recordNames k) → V' n = V n) c s := by
  induction keys generalizing V s with
  | nil => exact .pure ⟨V, h, by simp, fun _ _ => rfl⟩
  | cons key keys ih =>
    obtain ⟨hkey, hnodup⟩ := nodup_cons.mp hnodup
    have hunkey : Unprefixed key := hun key mem_cons_self
    have hun' : ∀ k ∈ keys, Unprefixed k := fun k hk => hun k (mem_cons_of_mem _ hk)
    rw [forEach_cons, wlp_bind]
    refine (hpass key mem_cons_self V s h).mono fun _ s₁ ⟨V₁, hs₁, hstep⟩ => ?_
    refine (ih hs₁ hun' hnodup fun k hk => hpass k (mem_cons_of_mem _ hk)).mono ?_
    rintro _ s₂ ⟨V₂, hs₂, hkeys, hother⟩
    -- the records of two keys have different names
    have hapart : ∀ k ∈ keys, ∀ n ∈ recordNames k, n ∉ recordNames key := fun k hk n hn =>
      not_mem_recordNames hunkey (hun' k hk) (fun heq => hkey (heq ▸ hk)) hn
    refine ⟨V₂, hs₂, fun k hk => ?_, fun n hn => ?_⟩
    · rcases mem_cons.mp hk with rfl | hk
      · rw [← hstep.key]
        exact View.keyState_congr fun n hn => hother n fun k' hk' hn' => hapart k' hk' n hn' hn
      · rw [hkeys k hk]
        exact congrArg g (View.keyState_congr fun n hn => hstep.other n (hapart k hk n hn))
    · rw [hother n fun k hk => hn k (mem_cons_of_mem _ hk), hstep.other n (hn key mem_cons_self)]

/-- An operation that ends a transaction. -/
theorem wlp_finish_ended {A : Type} {pass : Item → Bytes → ServerM Unit} {a b : A}
    (hs : s.ListsKeys N) (ht : N.isTid tid) (hheap : s.heap = []) (hold : s.oldestLive = 0)
    (hpass : ∀ transIt, s.live tid = some transIt → ∀ k ∈ s.listed tid, ∀ V s₁, Shows s V s₁ →
      wlp (pass transIt k) (fun _ s' => ∃ V', Shows s V' s' ∧ View.Step k g V V') c s₁) :
    wlp (finish tid a b pass) (fun r s' => r = (if (s.live tid).isSome then b else a) ∧
          Ended tid (s.listed tid) g s s') c s := by
  have hs₁ : Shows s s.live (s.reap tid) := (Shows.refl hheap hold).reap tid
  rw [wlp_bind, wlp_itemGet]
  cases hlive : s.live tid with
  | none =>
    refine .pure ⟨rfl, ?_, ?_, ?_, fun n _ _ => live_reap ..⟩
    · rwa [hs₁.live]
    · rw [live_reap, hlive]
    · simp [Server.listed, hlive]
  | some transIt =>
    simp only [wlp_bind, wlp_deref, wlp_itemUnlink, wlp_pure]
    intro keys hkeys
    have hlisted : s.listed tid = keys := by simp [Server.listed, hlive, hkeys]
    have hkey : ∀ k ∈ keys, N.isKey k := fun k hk => (hs.of_listed ht (hlisted ▸ hk)).1
    rw [hlisted]
    refine (hs₁.wlp_forEach (fun k hk => N.key_unprefixed (hkey k hk))
      (hlisted ▸ hs.nodup_listed ht) fun k hk V s' hV =>
      hpass transIt hlive k (hlisted ▸ hk) V s' hV).mono ?_
    rintro _ s₂ ⟨V₂, hs₂, hkeys, hother⟩
    have hrec : ∀ k ∈ keys, tid ∉ recordNames k := fun k hk =>
      N.tid_not_mem_recordNames ht (hkey k hk)
    have hs₃ : Shows s (update V₂ tid none) (s₂.unlink transIt) :=
      hs₂.unlink ((hother tid hrec).trans hlive)
    refine ⟨rfl, ?_, ?_, fun k hk => ?_, fun n hn hnk => ?_⟩
    · rwa [hs₃.live]
    · rw [hs₃.read, update_self]
    · rw [Server.keyState, hs₃.live]
      refine (View.keyState_congr fun n hn => ?_).trans (hkeys k hk)
      have hne : n ≠ tid := by
        rintro rfl
        exact hrec k hk hn
      rw [update_of_ne hne]
    · rw [hs₃.read, update_of_ne hn, hother n hnk]

/-- `item_commit` -/
theorem ended_itemCommit (hs : s.ListsKeys N) (ht : N.isTid tid) (hheap : s.heap = [])
    (hold : s.oldestLive = 0) :
    wlp (itemCommit tid pending cfgId) (fun r s' =>
        r = (if (s.live tid).isSome then .ok else .notFound) ∧
      Ended tid (s.listed tid) (KeyState.commit s.now (s.leaseExpiry c) tid pending
        cfgId) s s') c s :=
  wlp_finish_ended hs ht hheap hold fun _ _ _ _ _ _ h => h.wlp_itemCommitKey

end Finish

/-! ## Reading and filling -/

namespace KeyState

/-- A new lease with a token; it expires at `exp`. -/
def granted (now exp : Nat) (kind : Lease) (token : UInt64) (p : UInt8) : Option Content :=
  (some { data := decimal token, exptime := exp, lease := kind, p := p }).filter (!·.expired now)

/-- The records of a key after `iqget` with the next token `token`. -/
def iqget (now exp : Nat) (token : UInt64) (x : KeyState) : KeyState :=
  match x.value, x.lease with
  | some _, _ => x
  | none, none => { x with lease := granted now exp .i token x.indicator }
  | none, some l => { x with lease := some { l with p := x.indicator } }

/-- The answers to `iqget` of a client that presents `leaseToken`. -/
def IqgetAnswers (token leaseToken : UInt64) (x : KeyState) (r : IqgetResult) : Prop :=
  match x.value, x.lease with
  | some v, l =>
    if l.any fun l => l.lease = .qRef && l.leaseValue = leaseToken then r.status = .noValue
    else r.status = .value ∧ r.item.map Item.content = some v
  | none, none => r.status = .lease ∧ r.newLeaseToken = token ∧ r.item.map Item.p = some x.indicator
  | none, some l =>
    if l.leaseValue = leaseToken then r.status = .noValue
    else r.status = .miss ∧ r.newLeaseToken = leaseHotmiss ∧ r.item.map Item.p = some x.indicator

/-- The records of a key after the body of an `iqset` has arrived. -/
def iqset (now : Nat) (leaseToken : UInt64) (v : Content) (x : KeyState) : KeyState :=
  if v.data ≠ [] ∧ x.lease.any fun l => l.lease = .i && l.leaseValue = leaseToken then
    { x with
      value := (some { v with p := if x.marker.isSome then 1 else v.p }).filter (!·.expired now)
      lease := none
      marker := none }
  else x

end KeyState

section Reading

variable {c : Settings} {s₀ s : Server} {key : Bytes}

variable (h : Shows s₀ V s)

include h

/-- A change of the content of a record that is shown. -/
theorem Shows.write_content (hit : V n = some it) (hf : ∀ it, (f it).key = it.key)
    (hexp : (f it).exptime = it.exptime) : ∃ o, o.map Item.content = some (f it).content ∧
      Shows s₀ (Function.update V n o) (s.write it f) := by
  have hlive := live_eq_some.mp ((h.read n).trans hit)
  have halive : (f it).expired s₀.now = false := by
    have hdead := hlive.2
    rw [dead_of_oldestLive h.oldestLive, h.now] at hdead
    rw [Item.expired, hexp]
    exact hdead
  refine ⟨some (f it), rfl, ?_⟩
  have hs' := h.write hit hf
  rwa [Option.filter_some, halive, Bool.not_false, if_pos rfl] at hs'

theorem Shows.wlp_itemTouch (hit : V key = some it) :
    wlp (itemTouch it) (fun _ s' => ∃ V', Shows s₀ V' s' ∧ View.Step key id V V') c s := by
  rw [itemTouch, wlp_bind, wlp_get, wlp_when, wlp_itemWrite]
  refine ⟨fun _ => ?_, fun _ => ⟨V, h, rfl, fun _ _ => rfl⟩⟩
  obtain ⟨o, ho, hs'⟩ := h.write_content (f := fun it => { it with atime := s.now }) hit
    (fun _ => rfl) rfl
  refine ⟨_, hs', ?_, fun n hn => View.update_of_notMem (by simp [recordNames]) hn⟩
  rw [View.keyState_update_value, ho]
  simp [View.keyState, hit, Item.content]

/-- Answering a client that finds a lease. -/
theorem Shows.wlp_itemIqgetHeld {l : Item} {x : KeyState} (hl : V (leaseKey key) = some l)
    (hx : View.keyState V key = x) : wlp (itemIqgetHeld l x.indicator leaseToken) (fun r s' =>
      (if l.leaseValue = leaseToken then r.status = .noValue
        else r.status = .miss ∧ r.newLeaseToken = leaseHotmiss ∧
        r.item.map Item.p = some x.indicator) ∧
      ∃ V', Shows s₀ V' s' ∧
        View.Step key
          (fun x => { x with lease := some { l.content with p := x.indicator } }) V V') c s := by
  subst hx
  obtain ⟨o, ho, hs'⟩ := h.write_content
    (f := fun it => { it with p := (View.keyState V key).indicator }) hl (fun _ => rfl) rfl
  have hstep : ∃ V', Shows s₀ V' (s.write l fun it =>
    { it with p := (View.keyState V key).indicator }) ∧
      View.Step key
        (fun x => { x with lease := some { l.content with p := x.indicator } }) V V' := by
    refine ⟨_, hs', ?_, fun n hn => View.update_of_notMem (by simp [recordNames]) hn⟩
    rw [View.keyState_update_lease, ho]
    rfl
  simp only [itemIqgetHeld, wlp_bind, wlp_itemWrite]
  have hvalue : Item.leaseValue { l with p := (View.keyState V key).indicator } = l.leaseValue :=
    rfl
  rw [hvalue]
  split
  · exact .pure ⟨rfl, hstep⟩
  · exact .pure ⟨⟨rfl, rfl, rfl⟩, hstep⟩

/-- Handing out an I lease. -/
theorem Shows.wlp_itemIqgetGrant {p : UInt8} (hname : u8Name (leaseKey key) = leaseKey key) :
    wlp (itemIqgetGrant key p none) (fun r s' =>
      (r.status = .lease ∧ r.newLeaseToken = s.token ∧ r.item.map Item.p = some p) ∧
      s.leaseCurrentToken < s'.leaseCurrentToken ∧ ∃ V', Shows s₀ V' s' ∧ View.Step key (fun x =>
        { x with lease := KeyState.granted s₀.now (s₀.leaseExpiry c) .i s.token p }) V V') c s := by
  rw [itemIqgetGrant, wlp_bind, wlp_itemCreateLease, s.room_of_heap_nil h.heap]
  intro _
  simp only [if_true, whenSome_none, wlp_bind, wlp_pure]
  rw [wlp_itemStore_set (.inl rfl), if_pos (Item.storable_of_lease (by simp))]
  obtain ⟨o, ho, hs'⟩ := h.draw.allocate.link_content c { s.freshLease c key .i with p := p } hname
  refine ⟨by simp, Nat.lt_succ_self _, _, hs', ?_,
    fun n hn => View.update_of_notMem (by simp [recordNames]) hn⟩
  rw [View.keyState_update_lease, ho, KeyState.granted, ← h.leaseExpiry]
  rfl

/-- Handling `iqget` for a key with a value. -/
theorem Shows.wlp_itemIqgetValue (hit : V key = some it) :
    wlp (itemIqgetValue key it leaseToken false) (fun r s' =>
      (if (V (leaseKey key)).any (fun l => l.hasQRefLease && l.leaseValue = leaseToken)
        then r.status = .noValue else r.status = .value ∧ r.item = some it) ∧
      ∃ V', Shows s₀ V' s' ∧ View.Step key id V V') c s := by
  have hs₁ := h.reap (leaseKey key)
  rw [itemIqgetValue, wlp_bind, itemGetLease, wlp_itemGet, h.read]
  split
  · exact .pure ⟨rfl, V, hs₁, rfl, fun _ _ => rfl⟩
  · rw [if_neg (by simp), wlp_bind]
    exact (hs₁.wlp_itemTouch hit).mono fun _ s' hs' => .pure ⟨⟨rfl, rfl⟩, hs'⟩

/-- `iqget` -/
theorem Shows.wlp_itemIqget (hlen : key.length ≤ keyMaxLen) :
    wlp (itemIqget key leaseToken [] false) (fun r s' =>
      (View.keyState V key).IqgetAnswers s.token leaseToken r ∧
      (r.status = .lease → s.leaseCurrentToken < s'.leaseCurrentToken) ∧ ∃ V', Shows s₀ V' s' ∧
        View.Step key (KeyState.iqget s₀.now (s₀.leaseExpiry c) s.token) V V') c s := by
  rw [itemIqget, itemIqgetTrans, length_nil, if_pos rfl, wlp_bind, wlp_pure, wlp_bind,
    wlp_itemGet, h.read]
  cases hit : V key with
  | some it =>
    have hvalue : (View.keyState V key).value = some it.content := by simp [View.keyState, hit]
    simp only [itemIqgetPending, itemCheckEntry, wlp_bind, wlp_pure, Bool.false_eq_true, if_false]
    refine ((h.reap key).wlp_itemIqgetValue hit).mono ?_
    rintro r s' ⟨hr, V', hs', hstep⟩
    refine ⟨?_, ?_, V', hs', ?_, hstep.other⟩
    · have hany : (View.keyState V key).lease.any (fun l => l.lease = .qRef &&
        l.leaseValue = leaseToken) = (V (leaseKey key)).any (fun l =>
        l.hasQRefLease && l.leaseValue = leaseToken) := by
        rw [View.keyState, Option.any_map]
        rfl
      rw [KeyState.IqgetAnswers, hvalue]
      dsimp only
      rw [hany]
      split
      · next hown => rwa [if_pos hown] at hr
      · next hown =>
        rw [if_neg hown] at hr
        exact ⟨hr.1, by rw [hr.2]; rfl⟩
    · intro hgrant
      split at hr
      · cases hr.symm.trans hgrant
      · cases hr.1.symm.trans hgrant
    · rw [hstep.key, KeyState.iqget, hvalue]
      rfl
  | none =>
    have hvalue : (View.keyState V key).value = none := by simp [View.keyState, hit]
    have hind : pendingBit (V (pendingKey key)) = (View.keyState V key).indicator := by
      simp [KeyState.indicator, pendingBit, View.keyState, hit]
    simp only [itemIqgetPending, itemCheckEntry, itemGetPending, itemGetLease, wlp_bind,
      wlp_itemGet, wlp_pure, Bool.false_eq_true, if_false, live_reap, h.read, hind]
    have hs₁ := ((h.reap key).reap (pendingKey key)).reap (leaseKey key)
    cases hl : V (leaseKey key) with
    | none =>
      have hlease : (View.keyState V key).lease = none := by simp [View.keyState, hl]
      refine (hs₁.wlp_itemIqgetGrant (u8Name_leaseKey hlen)).mono ?_
      rintro r s' ⟨hr, htok, V', hs', hstep⟩
      refine ⟨?_, fun _ => htok, V', hs', ?_, hstep.other⟩
      · rw [KeyState.IqgetAnswers, hvalue, hlease]
        exact hr
      · rw [hstep.key, KeyState.iqget, hvalue, hlease]
        rfl
    | some l =>
      have hlease : (View.keyState V key).lease = some l.content := by simp [View.keyState, hl]
      refine (hs₁.wlp_itemIqgetHeld hl rfl).mono ?_
      rintro r s' ⟨hr, V', hs', hstep⟩
      refine ⟨?_, fun hgrant => ?_, V', hs', ?_, hstep.other⟩
      · rw [KeyState.IqgetAnswers, hvalue, hlease]
        exact hr
      · split at hr
        · cases hr.symm.trans hgrant
        · cases hr.1.symm.trans hgrant
      · rw [hstep.key, KeyState.iqget, hvalue, hlease]

/-- The lease gives way to the value, and so does the pending marker. -/
theorem Shows.wlp_itemStoreIqset_taken {l : Item} {oit : Option Item}
    (hl : V (leaseKey it.key) = some l) (hoit : ∀ o, oit = some o → o.key = it.key) : wlp (do
      itemUnlink l
      match ← itemGetPending it.key with
      | none => itemStoreLink oit it
      | some pendingIt =>
        itemUnlink pendingIt
        itemStoreLink oit { it with p := 1 }) (fun r s' => r = .stored ∧
      ∃ V', Shows s₀ V' s' ∧ View.Step it.key (fun x => { x with
        value := (some { it.content with p := if x.marker.isSome then 1 else it.p }).filter
          (!·.expired s₀.now), lease := none, marker := none }) V V') c s := by
  have hs₁ := (h.unlink hl).reap (pendingKey it.key)
  have hmarker : Function.update V (leaseKey it.key) none (pendingKey it.key) = V
    (pendingKey it.key) :=
    Function.update_of_ne leaseKey_ne_pendingKey.symm _ _
  have hother : ∀ {n o o' o''}, n ∉ recordNames it.key → Function.update (Function.update
      (Function.update V (leaseKey it.key) o) (pendingKey it.key) o') it.key o'' n = V n := by
    intro n o o' o'' hn
    simp only [recordNames, List.mem_cons, List.not_mem_nil, or_false, not_or] at hn
    simp only [Function.update_of_ne, hn, ne_eq, not_false_eq_true]
  rw [wlp_bind, wlp_itemUnlink, wlp_bind, itemGetPending, wlp_itemGet, (h.unlink hl).read, hmarker]
  cases hm : V (pendingKey it.key) with
  | none =>
    dsimp only
    rw [wlp_itemStoreLink hoit]
    obtain ⟨o, ho, hs'⟩ := hs₁.link_content c it rfl
    have hsame : Function.update V (leaseKey it.key) none = Function.update
        (Function.update V (leaseKey it.key) none) (pendingKey it.key) none :=
      (Function.update_eq_self_iff.mpr (hmarker.trans hm).symm).symm
    rw [hsame] at hs'
    refine ⟨rfl, _, hs', ?_, fun n hn => hother hn⟩
    rw [View.keyState_update_value, View.keyState_update_marker, View.keyState_update_lease, ho]
    simp [View.keyState, hm, Item.content]
  | some m =>
    dsimp only
    have hoit' : ∀ o, oit = some o → o.key = Item.key { it with p := 1 } := hoit
    rw [wlp_bind, wlp_itemUnlink, wlp_itemStoreLink hoit']
    obtain ⟨o, ho, hs'⟩ := (hs₁.unlink (hmarker.trans hm)).link_content c { it with p := 1 } rfl
    refine ⟨rfl, _, hs', ?_, fun n hn => hother hn⟩
    rw [View.keyState_update_value, View.keyState_update_marker, View.keyState_update_lease, ho]
    simp [View.keyState, hm, Item.content]

/-- The completion of an `iqset`. -/
theorem Shows.wlp_itemStore_iqset (hplain : Plain it) :
    wlp (itemStore it .iqset leaseToken) (fun r s' =>
      (r = .stored ↔ it.content.data ≠ [] ∧ (View.keyState V it.key).lease.any
        fun l => l.lease = .i && l.leaseValue = leaseToken) ∧ ∃ V', Shows s₀ V' s' ∧
        View.Step it.key (KeyState.iqset s₀.now leaseToken it.content) V V') c s := by
  -- when the lease is not taken, nothing happens
  have hrefused : ∀ {s'}, Shows s₀ V s' →
    ¬ (it.content.data ≠ [] ∧ (View.keyState V it.key).lease.any fun l => l.lease = .i &&
    l.leaseValue = leaseToken) → (StoreResult.notStored = .stored ↔
        it.content.data ≠ [] ∧ (View.keyState V it.key).lease.any
          fun l => l.lease = .i && l.leaseValue = leaseToken) ∧
      ∃ V', Shows s₀ V' s' ∧
        View.Step it.key (KeyState.iqset s₀.now leaseToken it.content) V V' := by
    intro s' hs' hnot
    refine ⟨⟨(by simp), fun hyes => absurd hyes hnot⟩, V, hs', ?_, fun _ _ => rfl⟩
    rw [KeyState.iqset, if_neg hnot]
  by_cases hbytes : it.nbyte = 0
  · rw [wlp_itemStore_of_not_storable (by simp [hplain.storable, hbytes])]
    exact hrefused h fun hyes => hyes.1 (List.length_eq_zero_iff.mp hbytes)
  rw [itemStore, it.not_storable, hplain.storable, decide_eq_true hbytes, Bool.not_true,
    if_neg Bool.false_ne_true, wlp_bind, wlp_itemGet]
  simp only [itemStoreIqset, itemGetLease, wlp_bind, wlp_itemGet, Server.live_reap, h.read,
    hbytes, if_false]
  have hs₁ := (h.reap it.key).reap (leaseKey it.key)
  cases hl : V (leaseKey it.key) with
  | none => exact .pure (hrefused hs₁ (by simp [View.keyState, hl]))
  | some l =>
    dsimp only
    split
    · next hI => exact .pure (hrefused hs₁ (by simp_all [View.keyState, Item.hasILease]))
    split
    · next htok => exact .pure (hrefused hs₁ (by simp [View.keyState, hl, Ne.symm htok]))
    next hI htok =>
    have htaken : it.content.data ≠ [] ∧ (View.keyState V it.key).lease.any
        fun l => l.lease = .i && l.leaseValue = leaseToken := by
      refine ⟨fun hnil => hbytes (List.length_eq_zero_iff.mpr hnil), ?_⟩
      simp_all [View.keyState, Item.hasILease]
    refine (hs₁.wlp_itemStoreIqset_taken hl fun o ho => ?_).mono ?_
    · exact h.key_eq ho
    · rintro r s' ⟨hr, V', hs', hstep⟩
      refine ⟨⟨fun _ => htaken, fun _ => hr⟩, V', hs', ?_, hstep.other⟩
      rw [hstep.key, KeyState.iqset, if_pos htaken]
      rfl

end Reading

/-! ## Swapping -/

namespace KeyState

/-- The pending bit that a swap moves to the new pending version. -/
def swapBit (x : KeyState) : UInt8 := x.version.elim (if x.marker.isSome then 1 else 0) (·.p)

/-- The records of a key after the body of a `swap` has arrived. -/
def swap (now exp : Nat) (leaseToken : UInt64) (v : Content) (x : KeyState) : KeyState :=
  if v.data ≠ [] ∧ x.lease.any fun l => l.leaseValue = leaseToken then
    { x with
      version := (some { data := v.data, dataflags := v.dataflags, exptime := exp
                         p := x.swapBit }).filter (!·.expired now)
      marker := if x.version.isSome then x.marker else none }
  else x

end KeyState

section Swapping

variable {c : Settings} {s₀ s : Server} {key : Bytes}

/-- What a swap replaces is dropped. -/
theorem Shows.wlp_itemSwapPending (h : Shows s₀ V s) :
    wlp (itemSwapPending key) (fun p s' => p = (View.keyState V key).swapBit ∧
        ∃ V', Shows s₀ V' s' ∧
      View.Step key (fun x => { x with
        version := none, marker := if x.version.isSome then x.marker else none }) V V') c s := by
  rw [itemSwapPending, wlp_bind, itemGetPendingVersion, wlp_itemGet, h.read]
  cases hpv : V (versionKey key) with
  | some pv =>
    simp only [wlp_bind, wlp_itemUnlink, wlp_pure]
    refine ⟨?_, _, (h.reap _).unlink hpv, ?_,
      fun n hn => View.update_of_notMem (by simp [recordNames]) hn⟩
    · simp [KeyState.swapBit, View.keyState, hpv]
    · rw [View.keyState_update_version]
      simp [View.keyState, hpv]
  | none =>
    have hs₁ := (h.reap (versionKey key)).reap (pendingKey key)
    dsimp only
    rw [wlp_bind, itemGetPending, wlp_itemGet, live_reap, h.read]
    cases hm : V (pendingKey key) with
    | some m =>
      simp only [wlp_bind, wlp_itemUnlink, wlp_pure]
      refine ⟨?_, _, hs₁.unlink hm, ?_,
        fun n hn => View.update_of_notMem (by simp [recordNames]) hn⟩
      · simp [KeyState.swapBit, View.keyState, hpv, hm]
      · rw [View.keyState_update_marker]
        simp [View.keyState, hpv]
    | none =>
      refine .pure ⟨?_, V, hs₁, ?_, fun _ _ => rfl⟩
      · simp [KeyState.swapBit, View.keyState, hpv, hm]
      · simp [View.keyState, hpv, hm]

/-- The completion of a `swap`. -/
theorem Shows.wlp_itemSwap (h : Shows s₀ V s) (hlen : it.key.length ≤ keyMaxLen) :
    wlp (itemSwap it leaseToken) (fun r s' =>
      (r = .stored ↔ (View.keyState V it.key).lease.any fun l => l.leaseValue = leaseToken) ∧
        ∃ V', Shows s₀ V' s' ∧
        View.Step it.key (KeyState.swap s₀.now (s₀.leaseExpiry c) leaseToken
        it.content) V V') c s := by
  have hs₁ := h.reap (leaseKey it.key)
  have hlease : (View.keyState V it.key).lease.any (fun l => l.leaseValue = leaseToken) =
      (V (leaseKey it.key)).any fun l => l.leaseValue = leaseToken := by
    rw [View.keyState, Option.any_map]
    rfl
  rw [itemSwap, wlp_bind, itemGetLease, wlp_itemGet, h.read]
  cases hl : V (leaseKey it.key) with
  | none =>
    refine .pure ⟨?_, V, hs₁, ?_, fun _ _ => rfl⟩
    · simp [hlease, hl]
    · rw [KeyState.swap, if_neg (by simp [hlease, hl])]
  | some l =>
    dsimp only
    split
    · next htok =>
      refine .pure ⟨?_, V, hs₁, ?_, fun _ _ => rfl⟩
      · simp [hlease, hl, htok]
      · rw [KeyState.swap, if_neg (by simp [hlease, hl, htok])]
    next htok =>
    have htok' : (View.keyState V it.key).lease.any (fun l =>
      l.leaseValue = leaseToken) = true := by
      simpa [hlease, hl] using htok
    split
    · next hbytes =>
      have hnil : it.content.data = [] := length_eq_zero_iff.mp hbytes
      refine .pure ⟨⟨fun _ => htok', fun _ => rfl⟩, V, hs₁, ?_, fun _ _ => rfl⟩
      rw [KeyState.swap, if_neg fun hyes => hyes.1 hnil]
    · next hbytes =>
      have hdata : it.content.data ≠ [] := fun hnil => hbytes (length_eq_zero_iff.mpr hnil)
      refine .bind (hs₁.wlp_itemSwapPending.mono ?_)
      rintro p s₂ ⟨hp, V₂, hs₂, hstep⟩
      rw [wlp_bind, wlp_itemCreatePendingVersion]
      intro _
      rw [wlp_bind, wlp_deref_ite]
      intro _
      have hstorable : Item.storable { s₂.freshVersion c it it.data with p := p } = true :=
        Item.storable_of_data hdata
      rw [wlp_bind, wlp_itemStore_set (.inl rfl), if_pos hstorable, wlp_pure]
      obtain ⟨o, ho, hs'⟩ := hs₂.allocate.link_content c
        { s₂.freshVersion c it it.data with p := p }
        (u8Name_versionKey hlen)
      refine ⟨⟨fun _ => htok', fun _ => rfl⟩, _, hs', ?_, fun n hn => ?_⟩
      · have hswap : (View.keyState V it.key).swap s₀.now (s₀.leaseExpiry c) leaseToken
          it.content = _ :=
          if_pos ⟨hdata, htok'⟩
        rw [hswap, View.keyState_update_version, ho, hstep.key, hp, ← hs₂.leaseExpiry]
        rfl
      · rw [View.update_of_notMem (by simp [recordNames]) hn, hstep.other n hn]

end Swapping

end Rejig
