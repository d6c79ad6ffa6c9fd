import Rejig.Iq

/-!
# The session operations

The operations of `mc_items.c` behind the CO commands.  A session reads keys under shared leases
(`ciget`) and writes them under exclusive ones (`oqread`, `oqswap`, `oqwrite`, `oqincr`, `oqappend`,
`oqreg`); both are records under the prefix `co:` whose payload lists sessions.  A write aborts the
sessions that share the key.  `validate` and `dcommit` end a session.

Session leases go together with leases under `ls:`, so these operations meet the IQ operations
there.
-/

namespace Rejig

open Prog

/-- `item_co_result_t` -/
inductive CoResult where
  | ok
  | abort
  | notFound
  | invalid
  | retry
  | novalue
deriving DecidableEq, Repr

/-- How every session operation starts: a session that was aborted is dropped, and the operation
refused. -/
def itemSessAborted (sid : Bytes) : ServerM Bool := do
  match ← itemGet sid with
  | none => return false
  | some sessIt =>
    if sessIt.sessStatus = .abort then
      itemUnlink sessIt
      return true
    else return false

/-! ## Aborting and cleaning up -/

/-- `memcmp(sid, psid, nsid) == 0`, where `mem` is the memory from `psid` to the end of its payload.
`none` is a comparison that runs past that end. -/
def sameSession (sid mem : Bytes) : Option Bool :=
  if sid.length ≤ mem.length then some (mem.take sid.length = sid)
  else if mem = sid.take mem.length then none
  else some false

/-- The inner loop of `abort_sessions`. -/
def abortSessionsKey (coleaseIt : Item) (psid key : Bytes) : ServerM Unit := do
  whenSome (← itemGetCoLease key) fun tcoleaseIt => when (tcoleaseIt.addr ≠ coleaseIt.addr) do
    let listed ← itemCheckEntry tcoleaseIt psid
    when listed (itemRemoveSidColease tcoleaseIt key psid)
    whenSome (← itemGetLease key) itemUnlink

/-- The body of the loop of `abort_sessions`: mark another session as aborted, and take it off the
leases it holds on other keys. -/
def abortSession (coleaseIt : Item) (sid psid mem : Bytes) : ServerM Unit := do
  whenSome (← itemGet psid) fun psessIt => do
    let same ← deref (sameSession sid mem)
    when (!same) do
      itemWrite psessIt fun it => { it with sessStatus := .abort }
      let keys ← deref (trigKeylistEntries psessIt.data)
      forEach (abortSessionsKey coleaseIt psid) keys

/-- `abort_sessions` -/
def abortSessions (coleaseIt : Item) (sid : Bytes) : ServerM Unit := do
  let psids ← deref (trigKeylistEntries coleaseIt.data)
  forEach (fun p => abortSession coleaseIt sid p.1 p.2)
    (psids.zip (trigKeylistTails coleaseIt.data))

/-- The body of the loops of `clean_session` and `item_co_unlease`. -/
def cleanSessionKey (sid key : Bytes) : ServerM Unit := do
  whenSome (← itemGetLease key) itemUnlink
  whenSome (← itemGetCoLease key) fun coleaseIt => itemRemoveSidColease coleaseIt key sid
  whenSome (← itemGetPendingVersion key) itemUnlink

/-- Take a session off everything it holds, and drop it. -/
def cleanSessionKeys (sid : Bytes) (sessIt : Item) : ServerM Unit := do
  let keys ← deref (trigKeylistEntries sessIt.data)
  forEach (cleanSessionKey sid) keys
  itemUnlink sessIt

/-- `clean_session` -/
def cleanSession (sid : Bytes) : ServerM Unit := do
  whenSome (← itemGet sid) fun sessIt =>
    if sessIt.sessStatus = .abort then itemUnlink sessIt else cleanSessionKeys sid sessIt

/-- `item_co_unlease` -/
def itemCoUnlease (sid : Bytes) : ServerM CoResult := do
  match ← itemGet sid with
  | none => return .notFound
  | some sessIt =>
    if sessIt.sessStatus = .abort then
      itemUnlink sessIt
      return .abort
    else
      cleanSessionKeys sid sessIt
      return .ok

/-! ## Reading -/

/-- What `item_ciget` leaves in its out parameters. -/
structure CigetResult where
  status : CoResult
  item : Option Item
  newLeaseToken : UInt64

/-- The end of `item_ciget`: the key has neither a lease nor an exclusive session lease. -/
def itemCigetShare (sid key : Bytes) (coleaseIt : Option Item) : ServerM CigetResult := do
  itemAssocKeySid (← itemGet sid) key sid
  match ← itemGet key with
  | some it =>
    itemAssocSidColease coleaseIt key sid .cLease
    return ⟨.ok, some it, 0⟩
  | none =>
    let (leaseIt, newLeaseToken) ← itemCreateLease key .i
    whenSome leaseIt fun leaseIt => do let _ ← itemStore leaseIt .set
    itemAssocSidColease coleaseIt key sid .cLease
    return ⟨.ok, leaseIt, newLeaseToken⟩

/-- The part of `item_ciget` for a key with a Q lease.  The source passes the length of the session
identifier where the length of the session's list belongs. -/
def itemCigetQuarantined (sid key : Bytes) : ServerM CigetResult := do
  match ← itemGet sid with
  | none => return ⟨.retry, none, 0⟩
  | some sessIt =>
    if ← deref (trigCheckKeylist sessIt.data sid.length (u8Name key)) then
      return ⟨.ok, ← itemGet key, 0⟩
    else return ⟨.retry, none, 0⟩

/-- `item_ciget` -/
def itemCiget (sid key : Bytes) (leaseToken : UInt64) : ServerM CigetResult := do
  if ← itemSessAborted sid then return ⟨.abort, none, 0⟩
  else
    let coleaseIt ← itemGetCoLease key
    if coleaseIt.any (·.hasOLease) then
      if ← itemCheckEntry coleaseIt sid then return ⟨.ok, ← itemGetPendingVersion key, 0⟩
      else
        cleanSession sid
        return ⟨.abort, none, 0⟩
    else
      match ← itemGetLease key with
      | none => itemCigetShare sid key coleaseIt
      | some leaseIt =>
        if leaseIt.hasILease then
          if leaseIt.leaseValue = leaseToken then return ⟨.ok, none, 0⟩
          else return ⟨.retry, none, 0⟩
        else if leaseIt.hasQLease then itemCigetQuarantined sid key
        else itemCigetShare sid key coleaseIt

/-! ## Writing -/

/-- How a write meets the session lease of its key. -/
inductive Exclusive where
  /-- The key has no session lease now. -/
  | free
  /-- The session holds the exclusive lease. -/
  | own
  /-- Another session holds it; this one has been cleaned up. -/
  | refused
  /-- The record is no session lease; the source asserts that this does not happen. -/
  | stray

/-- The treatment of the session lease that the writing operations share: readers are aborted and
their lease dropped, another writer wins. -/
def itemExclusive (sid key : Bytes) : ServerM Exclusive := do
  match ← itemGetCoLease key with
  | none => return .free
  | some coleaseIt =>
    if coleaseIt.hasCLease then
      abortSessions coleaseIt sid
      itemUnlink coleaseIt
      return .free
    else if coleaseIt.hasOLease then
      if ← itemCheckEntry coleaseIt sid then return .own
      else
        cleanSession sid
        return .refused
    else return .stray

/-- A lease without a token, as the session operations create it. -/
def itemCreateSessionLease (key : Bytes) (kind : Lease) : ServerM Item := do
  let leaseIt ← deref (← itemCreateReservedItem (leaseKey key) [])
  let leaseIt := { leaseIt with lease := kind }
  let _ ← itemStore leaseIt .set
  return leaseIt

/-- The end of `item_oqread`. -/
def itemOqreadGrant (sid key : Bytes) : ServerM (CoResult × Option Item) := do
  let it ← itemGet key
  let leaseIt ← itemCreateSessionLease key .qRef
  whenSome it fun it => itemWrite it fun it => { it with exptime := leaseIt.exptime }
  itemAssocKeySid (← itemGet sid) key sid
  itemAssocSidColease (← itemGetCoLease key) key sid .oLeaseRef
  return (.ok, it)

/-- The second half of `item_oqread`.  When the key has a refresh lease the source releases its
reference to the lease twice, and the second time it is the pin that goes. -/
def itemOqreadLease (sid key : Bytes) : ServerM (CoResult × Option Item) := do
  match ← itemGetLease key with
  | none => itemOqreadGrant sid key
  | some leaseIt =>
    if leaseIt.hasQRefLease then
      itemWrite leaseIt fun it => { it with pinned := false }
      return (.abort, none)
    else itemOqreadGrant sid key

/-- `item_oqread` -/
def itemOqread (sid key : Bytes) : ServerM (CoResult × Option Item) := do
  if ← itemSessAborted sid then return (.abort, none)
  else
    match ← itemExclusive sid key with
    | .own => return (.ok, ← itemGet key)
    | .refused => return (.abort, none)
    | .free => itemOqreadLease sid key
    | .stray => itemOqreadLease sid key

/-- Store the item of a request as the pending version of its key. -/
def itemStorePendingVersion (it : Item) : ServerM Unit := do
  let pvIt ← deref (← itemCreatePendingVersion it it.data)
  let _ ← itemStore pvIt .set

/-- The end of `item_oqswap`. -/
def itemOqswapLeased (it : Item) : ServerM CoResult := do
  match ← itemGetLease it.key with
  | none => return .invalid
  | some leaseIt =>
    if !leaseIt.hasQRefLease then return .invalid
    else
      itemUnlink leaseIt
      if it.nbyte = 0 then return .invalid
      else
        itemStorePendingVersion it
        return .ok

/-- `item_oqswap` -/
def itemOqswap (sid : Bytes) (it : Item) : ServerM CoResult := do
  if ← itemSessAborted sid then return .abort
  else
    match ← itemGetCoLease it.key with
    | none => return .abort
    | some coleaseIt =>
      if coleaseIt.hasCLease then return .abort
      else if coleaseIt.hasOLease then
        if ← itemCheckEntry coleaseIt sid then itemOqswapLeased it
        else
          itemUnlink coleaseIt
          return .abort
      else
        itemUnlink coleaseIt
        return .invalid

/-- The pending version that `item_oqwrite` leaves: an empty body removes it. -/
def itemOqwriteVersion (it : Item) : ServerM Unit := do
  if it.nbyte = 0 then whenSome (← itemGetPendingVersion it.key) itemUnlink
  else itemStorePendingVersion it

/-- The end of `item_oqwrite`. -/
def itemOqwriteBody (sid : Bytes) (it : Item) : ServerM CoResult := do
  itemOqwriteVersion it
  itemAssocKeySid (← itemGet sid) it.key sid
  return .ok

/-- The part of `item_oqwrite` for a key without an exclusive session lease. -/
def itemOqwriteFree (sid : Bytes) (it : Item) : ServerM CoResult := do
  itemAssocSidColease none it.key sid .oLeaseRef
  itemOqwriteBody sid it

/-- `item_oqwrite` -/
def itemOqwrite (sid : Bytes) (it : Item) : ServerM CoResult := do
  if ← itemSessAborted sid then return .abort
  else
    match ← itemGetCoLease it.key with
    | none => itemOqwriteFree sid it
    | some coleaseIt =>
      if coleaseIt.hasCLease then
        abortSessions coleaseIt sid
        itemUnlink coleaseIt
        whenSome (← itemGetLease it.key) itemUnlink
        itemOqwriteFree sid it
      else if !(← itemCheckEntry coleaseIt sid) then
        cleanSession sid
        return .abort
      else
        match ← itemGetLease it.key with
        | none => itemOqwriteBody sid it
        | some leaseIt =>
          if !leaseIt.hasQRefLease then return .invalid
          else
            itemUnlink leaseIt
            itemOqwriteBody sid it

/-- The pending version that an incremental session update works on: the one that is there, or a
copy of the value. -/
def itemSessionVersion (key : Bytes) (it : Option Item) : ServerM (Option Item) := do
  match ← itemGetPendingVersion key, it with
  | some pvIt, _ => return some pvIt
  | none, none => return none
  | none, some it =>
    let pvIt ← deref (← itemCreatePendingVersion it it.data)
    let _ ← itemStore pvIt .set
    return some pvIt

/-- The update of an incremental session operation.  A key with a Q lease is passed over in
silence. -/
def itemOqDeltaUpdate (key : Bytes) (update : (pvIt : Option Item) → ServerM CoResult) :
    ServerM CoResult := do
  let it ← itemGet key
  match ← itemVoidILease (← itemGetLease key) with
  | some _ => return .ok
  | none => update (← itemSessionVersion key it)

/-- The frame that `item_oqappend_oqprepend` and `_item_oqincr_oqdecr` share. -/
def itemOqDelta (sid key : Bytes) (update : (pvIt : Option Item) → ServerM CoResult) :
    ServerM CoResult := do
  if ← itemSessAborted sid then return .abort
  else
    match ← itemExclusive sid key with
    | .refused => return .abort
    | .free =>
      let ret ← itemOqDeltaUpdate key update
      itemAssocSidColease none key sid .oLeaseRef
      itemAssocKeySid (← itemGet sid) key sid
      return ret
    | _ =>
      let ret ← itemOqDeltaUpdate key update
      itemAssocKeySid (← itemGet sid) key sid
      return ret

/-- `_item_append_prepend_co`; its callers ignore the result. -/
def itemAppendPrependCo (append : Bool) (it : Item) (data : Bytes) : ServerM Unit := do
  let newData := if append then it.data ++ data else data ++ it.data
  whenSome (← itemAlloc it.key it.dataflags it.exptime newData.length) fun nit => do
    let _ ← itemStore { nit with data := newData } .set

/-- `item_oqappend_oqprepend` -/
def itemOqappendOqprepend (append : Bool) (sid key data : Bytes) : ServerM CoResult :=
  itemOqDelta sid key fun pvIt => do
    whenSome pvIt fun pvIt => itemAppendPrependCo append pvIt data
    return .ok

/-- `_item_add_delta_co` -/
def itemAddDeltaCo (incr : Bool) (key : Bytes) (delta : UInt64) : ServerM CoResult := do
  match ← itemAddDelta (versionKey key) incr delta with
  | .eom => return .abort
  | .nonNumeric => return .abort
  | .ok _ => return .ok
  | .notFound => return .ok

/-- `item_oqincr_oqdecr`: the result, and what is left in `val`.  Whether there is a number in the
pending version is not looked at. -/
def itemOqincrOqdecr (incr : Bool) (sid key : Bytes) (delta : UInt64) :
    ServerM (CoResult × Option UInt64) := do
  let ret ← itemOqDelta sid key fun _ => itemAddDeltaCo incr key delta
  match ret, ← itemGetPendingVersion key with
  | .ok, some pvIt => return (.ok, mcStrtoullOut pvIt.data)
  | .ok, none => return (.novalue, none)
  | ret, _ => return (ret, none)

/-- The invalidate lease of a registration: a Q lease that is there stays. -/
def itemOqregLease (key : Bytes) : ServerM Unit := do
  match ← itemVoidILease (← itemGetLease key) with
  | some _ => let _ ← itemGet key
  | none =>
    let _ ← itemGet key
    let _ ← itemCreateSessionLease key .qInv

/-- The session lease of a registration, made if there is none. -/
def itemOqregColease (sid key : Bytes) : ServerM Item := do
  match ← itemGetCoLease key with
  | some coleaseIt => return coleaseIt
  | none =>
    itemAssocSidColease none key sid .oLeaseInv
    deref (← itemGetCoLease key)

/-- `item_oqreg` -/
def itemOqreg (sid key : Bytes) : ServerM CoResult := do
  if ← itemSessAborted sid then return .abort
  else
    itemOqregLease key
    let coleaseIt ← itemOqregColease sid key
    when coleaseIt.hasCLease do
      abortSessions coleaseIt sid
      itemUnlink coleaseIt
      itemAssocSidColease none key sid .oLeaseInv
    itemAssocKeySid (← itemGet sid) key sid
    return .ok

/-! ## Ending a session -/

/-- Turn the pending version of a key into its value, or drop the value when there is none. -/
def itemDcommitApply (key : Bytes) (it : Option Item) : ServerM Unit := do
  match ← itemGetPendingVersion key with
  | none => whenSome it itemUnlink
  | some pvIt =>
    let newIt ← deref (← itemAlloc key pvIt.dataflags 0 pvIt.nbyte)
    let _ ← itemStore { newIt with data := pvIt.data } .set
    itemUnlink pvIt

/-- What `item_dcommit` does to the value of a key, by the kind of the session lease. -/
def itemDcommitValue (key : Bytes) (it : Option Item) (coleaseIt : Item) : ServerM Unit :=
  if coleaseIt.hasOLeaseInv then whenSome it itemUnlink
  else if coleaseIt.hasOLeaseRef then itemDcommitApply key it
  else when coleaseIt.hasCLease <|
    whenSome it fun it => itemWrite it fun it => { it with exptime := 0 }

/-- The body of the loop of `item_dcommit`. -/
def itemDcommitKey (sid key : Bytes) : ServerM Unit := do
  let it ← itemGet key
  whenSome (← itemGetLease key) itemUnlink
  whenSome (← itemGetCoLease key) fun coleaseIt => do
    itemDcommitValue key it coleaseIt
    itemRemoveSidColease coleaseIt key sid

/-- `item_dcommit` -/
def itemDcommit (sid : Bytes) : ServerM CoResult := do
  match ← itemGet sid with
  | none => return .notFound
  | some sessIt =>
    if sessIt.sessStatus = .abort then
      itemUnlink sessIt
      return .abort
    else
      let keys ← deref (trigKeylistEntries sessIt.data)
      forEach (itemDcommitKey sid) keys
      itemUnlink sessIt
      return .ok

/-- The loop of `item_validate`: whether every session lease on the keys lists the session. -/
def itemValidateKeys (sid : Bytes) : List Bytes → ServerM Bool
  | [] => return true
  | key :: keys => do
    let coleaseIt ← itemGetCoLease key
    let listed ← itemCheckEntry coleaseIt sid
    let valid ← itemValidateKeys sid keys
    return (coleaseIt.isNone || listed) && valid

/-- `item_validate` -/
def itemValidate (sid : Bytes) : ServerM CoResult := do
  match ← itemGet sid with
  | none => return .abort
  | some sessIt =>
    if sessIt.sessStatus = .abort then
      itemUnlink sessIt
      return .abort
    else
      let keys ← deref (trigKeylistEntries sessIt.data)
      if ← itemValidateKeys sid keys then return .ok
      else
        cleanSession sid
        return .abort

end Rejig
