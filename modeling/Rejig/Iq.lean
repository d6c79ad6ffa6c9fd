import Rejig.Store

/-!
# The IQ operations

The operations of `mc_items.c` behind the IQ commands.  A reader that misses is handed an *I lease*
(`iqget`) and fills the cache with `iqset`.  A writer quarantines a key with a *Q lease*: to
invalidate it (`qareg`, then `dar` or `commit`), to refresh it (`qaread`, `swap`, `commit` or `sar`)
or to change it incrementally (`iqincr`, `iqappend`, `commit`).  Refresh and increment leases come
with a pending version, which `commit` turns into the value and `release` drops.

Statistics are left out.  A call whose result the source does not test before it dereferences it is
followed by `deref`.
-/

namespace Rejig

open Prog

/-- `LEASE_HOTMISS`: the token that tells a client to back off. -/
def leaseHotmiss : UInt64 := 3

/-- `item_iq_result_t` -/
inductive IqResult where
  | value
  | noValue
  | lease
  | leaseNoValue
  | abort
  | miss
  | clientError
  | serverError
  | ok
  | notFound
deriving DecidableEq, Repr

/-- The pending bit of a key that has no item to carry it. -/
def pendingBit (pendingIt : Option Item) : UInt8 := if pendingIt.isSome then 1 else 0

/-- `item_get_and_unlease` -/
def itemGetAndUnlease (key : Bytes) (tokenVal : UInt64) : ServerM Unit := do
  whenSome (← itemGetLease key) fun leaseIt =>
    when (leaseIt.leaseValue = tokenVal) (itemUnlink leaseIt)

/-- `item_get_and_delete`; the answer is whether there was a value. -/
def itemGetAndDelete (key : Bytes) (deleteLease : Bool) : ServerM StoreResult := do
  when deleteLease do
    whenSome (← itemGetLease key) itemUnlink
    whenSome (← itemGetPendingVersion key) itemUnlink
    whenSome (← itemGetCoLease key) itemUnlink
  match ← itemGet key with
  | some it =>
    itemUnlink it
    return .exists
  | none => return .notFound

/-! ## Invalidation -/

/-- An I lease gives way to a Q lease. -/
def itemVoidILease (leaseIt : Option Item) : ServerM (Option Item) := do
  match leaseIt with
  | none => return none
  | some leaseIt =>
    if leaseIt.hasILease then
      itemUnlink leaseIt
      return none
    else return some leaseIt

/-- `item_quarantine_and_register` -/
def itemQuarantineAndRegister (tid key : Bytes) : ServerM Unit := do
  let transIt ← itemGet tid
  let leaseIt ← itemVoidILease (← itemGetLease key)
  itemAssocTidLease leaseIt key tid
  itemAssocKeyTid transIt key tid
  -- the value must not outlive the lease
  let it ← itemGet key
  let leaseIt ← itemGetLease key
  whenSome it fun it => whenSome leaseIt fun leaseIt =>
    itemWrite it fun it => { it with exptime := leaseIt.exptime }

/-- Take a transaction off the lease of a key: off the list of an invalidate lease; any other lease
is dropped. -/
def itemDropLease (tid key : Bytes) (leaseIt : Item) : ServerM Unit :=
  if leaseIt.hasQInvLease then itemRemoveTidLease leaseIt key tid else itemUnlink leaseIt

/-- The body of the loop of `item_delete_and_release`. -/
def itemDeleteAndReleaseKey (tid key : Bytes) : ServerM Unit := do
  whenSome (← itemGet key) itemUnlink
  whenSome (← itemGetLease key) (itemDropLease tid key)

/-- `item_delete_and_release`; `false` is `MC_INVALID`. -/
def itemDeleteAndRelease (tid : Bytes) : ServerM Bool := do
  match ← itemGet tid with
  | none => return false
  | some transIt =>
    let keys ← deref (trigKeylistEntries transIt.data)
    forEach (itemDeleteAndReleaseKey tid) keys
    itemUnlink transIt
    return true

/-! ## Commit and release -/

/-- Turn a pending version into the value. -/
def itemCommitApply (key : Bytes) (pvIt : Item) (pending cfgId : Int) : ServerM Unit := do
  let newIt ← deref (← itemAllocConfig key pvIt.dataflags 0 pvIt.nbyte cfgId)
  let _ ← itemStore { newIt with data := pvIt.data, p := .ofNat (pending % 256).toNat } .set

/-- Set or clear the pending marker of a key at the end of a commit; `it` is the value that the
commit found.  The one byte of the marker is never read. -/
def itemCommitPending (key : Bytes) (it : Option Item) (pending cfgId : Int) : ServerM Unit := do
  let pendingIt ← itemGetPending key
  match it, pendingIt with
  | none, none =>
    when (pending = 1) do
      let pendingIt ← deref (← itemAllocConfig (pendingKey key) 0 0 1 cfgId)
      let _ ← itemStore { pendingIt with data := [0] } .set
  | none, some pendingIt => when (pending = 0) (itemUnlink pendingIt)
  | some _, pendingIt => whenSome pendingIt itemUnlink

/-- The body of the loop of `item_commit` for a key whose Q lease was found. -/
def itemCommitLeased (tid : Bytes) (pending cfgId : Int) (key : Bytes) (leaseIt : Item)
    (pvIt : Option Item) : ServerM Unit := do
  itemDropLease tid key leaseIt
  whenSome pvIt fun pvIt => itemCommitApply key pvIt pending cfgId
  let it ← itemGet key
  whenSome it fun it => when (pvIt.isNone || leaseIt.hasQInvLease) (itemUnlink it)
  itemCommitPending key it pending cfgId
  whenSome pvIt itemUnlink

/-- The body of the loop of `item_commit`. -/
def itemCommitKey (tid : Bytes) (pending cfgId : Int) (key : Bytes) : ServerM Unit := do
  let leaseIt ← itemGetLease key
  let pvIt ← itemGetPendingVersion key
  whenSome leaseIt fun leaseIt =>
    when leaseIt.hasQLease (itemCommitLeased tid pending cfgId key leaseIt pvIt)

/-- `item_commit` -/
def itemCommit (tid : Bytes) (pending cfgId : Int) : ServerM IqResult := do
  match ← itemGet tid with
  | none => return .notFound
  | some transIt =>
    let keys ← deref (trigKeylistEntries transIt.data)
    forEach (itemCommitKey tid pending cfgId) keys
    itemUnlink transIt
    return .ok

/-- The body of the loop of `item_release`.  For an invalidate lease the source looks for the
transaction in the list of the transaction itself, and then drops the lease with all its entries. -/
def itemReleaseKey (tid : Bytes) (transIt : Item) (key : Bytes) : ServerM Unit := do
  let leaseIt ← itemGetLease key
  let pvIt ← itemGetPendingVersion key
  whenSome leaseIt fun leaseIt => when leaseIt.hasQLease do
    when leaseIt.hasQInvLease (itemRemoveTidLease transIt key tid)
    itemUnlink leaseIt
    whenSome pvIt itemUnlink

/-- `item_release` -/
def itemRelease (tid : Bytes) : ServerM IqResult := do
  match ← itemGet tid with
  | none => return .notFound
  | some transIt =>
    let keys ← deref (trigKeylistEntries transIt.data)
    forEach (itemReleaseKey tid transIt) keys
    itemUnlink transIt
    return .ok

/-! ## Refresh -/

/-- What `item_quarantine_and_read` leaves in its out parameters. -/
structure QareadResult where
  it : Option Item
  newLeaseToken : UInt64
  pending : UInt8

/-- The half of `item_quarantine_and_read` that grants a lease.  The source assigns the expiry of
the pending version a second time after the store, to the same value. -/
def itemQareadGrant (tid key : Bytes) (transIt : Option Item) : ServerM QareadResult := do
  let (leaseIt, newLeaseToken) ← itemCreateLease key .qRef
  let leaseIt ← deref leaseIt
  let _ ← itemStore leaseIt .qaread
  match ← itemGet key with
  | some origIt =>
    let pvIt ← deref (← itemCreatePendingVersion origIt origIt.data)
    let pvIt := { pvIt with p := origIt.p, exptime := leaseIt.exptime }
    let _ ← itemStore pvIt .set
    itemAssocKeyTid transIt key tid
    return ⟨some pvIt, newLeaseToken, origIt.p⟩
  | none =>
    let pendingIt ← itemGetPending key
    itemAssocKeyTid transIt key tid
    return ⟨none, newLeaseToken, pendingBit pendingIt⟩

/-- The half of `item_quarantine_and_read` for the holder of the lease. -/
def itemQareadOwn (key : Bytes) (leaseToken : UInt64) : ServerM QareadResult := do
  match ← itemGetPendingVersion key with
  | some pvIt => return ⟨some pvIt, leaseToken, pvIt.p⟩
  | none => return ⟨none, leaseToken, pendingBit (← itemGetPending key)⟩

/-- `item_quarantine_and_read` -/
def itemQuarantineAndRead (tid key : Bytes) (leaseToken : UInt64) : ServerM QareadResult := do
  let transIt ← itemGet tid
  match ← itemGetLease key with
  | none => itemQareadGrant tid key transIt
  | some leaseIt =>
    if leaseIt.hasQLease then
      if (leaseIt.hasQRefLease || leaseIt.hasQIncrLease) && leaseIt.leaseValue = leaseToken then
        itemQareadOwn key leaseToken
      else return ⟨none, leaseHotmiss, 0⟩
    else itemQareadGrant tid key transIt

/-- `item_swap_and_release` -/
def itemSwapAndRelease (it : Item) (leaseToken : UInt64) : ServerM StoreResult := do
  match ← itemGetLease it.key with
  | none => return .notFound
  | some leaseIt =>
    if leaseIt.leaseValue ≠ leaseToken then return .notFound
    else
      itemUnlink leaseIt
      if it.nbyte = 0 then return .storeError
      else
        match ← itemGet it.key with
        | none =>
          let _ ← itemStore it .set
          return .stored
        | some oit =>
          itemReplace oit it
          return .stored

/-- Drop the pending version or the pending marker that a swap replaces; the pending bit of the new
version is that of the old. -/
def itemSwapPending (key : Bytes) : ServerM UInt8 := do
  match ← itemGetPendingVersion key with
  | some pvIt =>
    itemUnlink pvIt
    return pvIt.p
  | none =>
    match ← itemGetPending key with
    | some pendingIt =>
      itemUnlink pendingIt
      return 1
    | none => return 0

/-- `item_swap` -/
def itemSwap (it : Item) (leaseToken : UInt64) : ServerM StoreResult := do
  match ← itemGetLease it.key with
  | none => return .notFound
  | some leaseIt =>
    if leaseIt.leaseValue ≠ leaseToken then return .notFound
    else if it.nbyte = 0 then return .stored
    else
      let pending ← itemSwapPending it.key
      let pvIt ← deref (← itemCreatePendingVersion it it.data)
      let _ ← itemStore { pvIt with p := pending } .set
      return .stored

/-! ## Reading -/

/-- What `item_iqget` leaves in its out parameters; a token that was not written is `0`. -/
structure IqgetResult where
  status : IqResult
  item : Option Item
  newLeaseToken : UInt64

/-- Hand out an I lease; `iset` drops the value that is there.  The source writes the pending bit of
the lease right after storing it. -/
def itemIqgetGrant (key : Bytes) (pending : UInt8) (it : Option Item) : ServerM IqgetResult := do
  let (leaseIt, newLeaseToken) ← itemCreateLease key .i
  match leaseIt with
  | none => return ⟨.serverError, none, newLeaseToken⟩
  | some leaseIt =>
    whenSome it itemUnlink
    let leaseIt := { leaseIt with p := pending }
    let _ ← itemStore leaseIt .set
    return ⟨.lease, some leaseIt, newLeaseToken⟩

/-- Answer a client that finds a lease on the key. -/
def itemIqgetHeld (leaseIt : Item) (pending : UInt8) (leaseToken : UInt64) :
    ServerM IqgetResult := do
  itemWrite leaseIt fun it => { it with p := pending }
  let leaseIt := { leaseIt with p := pending }
  if leaseIt.leaseValue = leaseToken then return ⟨.noValue, some leaseIt, 0⟩
  else return ⟨.miss, some leaseIt, leaseHotmiss⟩

/-- The part of `item_iqget` for a transaction that works on the key. -/
def itemIqgetOwn (key : Bytes) : ServerM IqgetResult := do
  match ← itemGetLease key with
  | none => return ⟨.noValue, none, 0⟩
  | some leaseIt =>
    if leaseIt.hasQInvLease then return ⟨.noValue, none, 0⟩
    else if leaseIt.hasQIncrLease then
      match ← itemGetPendingVersion key with
      | some pvIt => return ⟨.value, some pvIt, 0⟩
      | none => return ⟨.noValue, none, 0⟩
    else return ⟨.noValue, none, 0⟩

/-- The part of `item_iqget` for a key with a value. -/
def itemIqgetValue (key : Bytes) (it : Item) (leaseToken : UInt64) (override : Bool) :
    ServerM IqgetResult := do
  let leaseIt ← itemGetLease key
  if leaseIt.any fun leaseIt => leaseIt.hasQRefLease && leaseIt.leaseValue = leaseToken then
    return ⟨.noValue, none, 0⟩
  else if override then
    match leaseIt with
    | none => itemIqgetGrant key it.p (some it)
    | some leaseIt => itemIqgetHeld leaseIt it.p leaseToken
  else
    itemTouch it
    return ⟨.value, some it, 0⟩

/-- The transaction that `item_iqget` looks at, if the request names one. -/
def itemIqgetTrans (tid : Bytes) : ServerM (Option Item) :=
  if tid.length = 0 then return none else itemGet tid

/-- The pending bit that `item_iqget` reports. -/
def itemIqgetPending (key : Bytes) (it : Option Item) : ServerM UInt8 := do
  match it with
  | some it => return it.p
  | none => return pendingBit (← itemGetPending key)

/-- `item_iqget`; `override` is set by `iset`.  `ILEASE_MEET_QLEASE` is 0, so a refresh lease does
not keep others from reading the value. -/
def itemIqget (key : Bytes) (leaseToken : UInt64) (tid : Bytes) (override : Bool) :
    ServerM IqgetResult := do
  let transIt ← itemIqgetTrans tid
  let it ← itemGet key
  let pending ← itemIqgetPending key it
  if ← itemCheckEntry transIt key then itemIqgetOwn key
  else
    match it with
    | some it => itemIqgetValue key it leaseToken override
    | none =>
      match ← itemGetLease key with
      | none => itemIqgetGrant key pending none
      | some leaseIt => itemIqgetHeld leaseIt pending leaseToken

/-! ## Incremental updates -/

/-- What an incremental update leaves in its out parameters. -/
structure IqDeltaResult where
  status : IqResult
  pending : UInt8
  newLeaseToken : UInt64

/-- A change of a pending version: the result of the command, with the pending version replaced. -/
abbrev PvUpdate := (key : Bytes) → (pvIt : Item) → ServerM IqResult

/-- `_item_append_prepend_iq` -/
def itemAppendPrependIq (append : Bool) (data : Bytes) : PvUpdate := fun _ it => do
  let newData := if append then it.data ++ data else data ++ it.data
  let nit ← deref (← itemAlloc it.key it.dataflags it.exptime newData.length)
  let _ ← itemStore { nit with data := newData, p := it.p } .set
  return .lease

/-- `_item_add_delta_iq` -/
def itemAddDeltaIq (incr : Bool) (delta : UInt64) : PvUpdate := fun key _ => do
  match ← itemAddDelta (versionKey key) incr delta with
  | .eom => return .serverError
  | .nonNumeric => return .clientError
  | .ok _ => return .lease
  | .notFound => return .abort

/-- An incremental update of a key without a Q lease: grant one, and update a fresh pending
version. -/
def itemIqDeltaGrant (update : PvUpdate) (key tid : Bytes) (it transIt : Option Item) :
    ServerM IqDeltaResult := do
  let (leaseIt, newLeaseToken) ← itemCreateLease key .qInc
  let leaseIt ← deref leaseIt
  let _ ← itemStore leaseIt .set
  itemAssocKeyTid transIt key tid
  match it with
  | some it =>
    let pvIt ← deref (← itemCreatePendingVersion it it.data)
    let pvIt := { pvIt with p := it.p, exptime := leaseIt.exptime }
    let _ ← itemStore pvIt .set
    return ⟨← update key pvIt, it.p, newLeaseToken⟩
  | none => return ⟨.leaseNoValue, pendingBit (← itemGetPending key), newLeaseToken⟩

/-- An incremental update of a key with a Q lease: only for a transaction that lists the key. -/
def itemIqDeltaOwn (update : PvUpdate) (key : Bytes) (leaseIt : Item) (transIt : Option Item) :
    ServerM IqDeltaResult := do
  if !(← itemCheckEntry transIt key) then return ⟨.abort, 0, 0⟩
  else
    match ← itemGetPendingVersion key with
    | some pvIt => return ⟨← update key pvIt, pvIt.p, leaseIt.leaseValue⟩
    | none => return ⟨.leaseNoValue, pendingBit (← itemGetPending key), leaseIt.leaseValue⟩

/-- The frame that `item_iqappend_iqprepend` and `_item_iqincr_iqdecr` share; the store of a lease,
which both test, cannot fail. -/
def itemIqDelta (key tid : Bytes) (grant : (it transIt : Option Item) → ServerM IqDeltaResult)
    (own : (leaseIt : Item) → (transIt : Option Item) → ServerM IqDeltaResult) :
    ServerM IqDeltaResult := do
  let it ← itemGet key
  let transIt ← itemGet tid
  match ← itemVoidILease (← itemGetLease key) with
  | none => grant it transIt
  | some leaseIt => own leaseIt transIt

/-- `item_iqappend_iqprepend` -/
def itemIqappendIqprepend (append : Bool) (key data tid : Bytes) : ServerM IqDeltaResult :=
  let update := itemAppendPrependIq append data
  itemIqDelta key tid (itemIqDeltaGrant update key tid) (itemIqDeltaOwn update key)

/-- `_item_iqincr_iqdecr`; unlike its sibling it tests that the lease it finds is a Q lease. -/
def itemIqincrIqdecr (incr : Bool) (key : Bytes) (delta : UInt64) (tid : Bytes) :
    ServerM IqDeltaResult :=
  let update := itemAddDeltaIq incr delta
  itemIqDelta key tid (itemIqDeltaGrant update key tid) fun leaseIt transIt =>
    if leaseIt.hasQLease then itemIqDeltaOwn update key leaseIt transIt else return ⟨.lease, 0, 0⟩

end Rejig
