import Rejig.Item

/-!
# Finding, allocating, linking and unlinking items

The primitive operations of `mc_items.c` on which all commands are built, under `cache_lock`.  An
operation that takes a pointer to an item takes the item; an operation that writes through a
pointer writes to the linked item of the same identity, if there is one.
-/

namespace Rejig

open Prog

/-- Change the hash table. -/
def modifyAssoc (f : Assoc → Assoc) : ServerM Unit := modify fun s => { s with assoc := f s.assoc }

/-- `item_next_cas` -/
def itemNextCas : ServerM UInt64 := do
  if (← ask).useCas then
    modify fun s => { s with casId := s.casId + 1 }
    return .ofNat (← get).casId
  else return 0

/-- `lease_next_token` -/
def leaseNextToken : ServerM UInt64 := do
  let s ← get
  modify fun s => { s with leaseCurrentToken := s.leaseCurrentToken + 1 }
  return .ofNat s.leaseCurrentToken

/-- `TIME_MAXDELTA`: thirty days. -/
def timeMaxdelta : Int := 60 * 60 * 24 * 30

/-- The conversion of a negative number to `rel_time_t`; other numbers are themselves. -/
def relTime (t : Int) : Nat := if 0 ≤ t then t.toNat else (t % 2 ^ 32).toNat

/-- `time_reltime`, for a process that started at `started` and whose clock shows `now`. -/
def reltime (started : Int) (now : Nat) (exptime : Int) : Nat :=
  if exptime = 0 then 0
  else if timeMaxdelta < exptime then
    if exptime ≤ started then 1 else relTime (exptime - started)
  else relTime (exptime + now)

/-- `time_reltime` -/
def timeReltime (exptime : Int) : ServerM Nat := do
  return reltime (← ask).processStarted (← get).now exptime

/-- The lifetime of a lease in seconds: at least one, and one more for rounding. -/
def leaseLifetime (leaseTokenExpiry : Nat) : Nat := max (leaseTokenExpiry / 1000) 1 + 1

/-- The expiry of a lease, as every function that creates one computes it. -/
def leaseExptime : ServerM Nat := do
  timeReltime (leaseLifetime (← ask).leaseTokenExpiry)

/-! ## The table -/

/-- `_item_get`: an item that has expired or been flushed is unlinked and not returned. -/
def itemGet (key : Bytes) : ServerM (Option Item) := do
  let s ← get
  match s.find key with
  | none => return none
  | some it =>
    if s.dead it then
      modifyAssoc (·.erase key)
      return none
    else return some it

/-- `_item_link` -/
def itemLink (it : Item) : ServerM Unit := do
  let cas ← itemNextCas
  let s ← get
  modifyAssoc (·.put { it with cas := cas, atime := s.now })

/-- `_item_unlink` -/
def itemUnlink (it : Item) : ServerM Unit :=
  modifyAssoc fun t => if (t.find it.key).any (·.addr = it.addr) then t.erase it.key else t

/-- `_item_replace` -/
def itemReplace (it nit : Item) : ServerM Unit := do
  itemUnlink it
  itemLink nit

/-- Write to the fields of an item through a pointer. -/
def itemWrite (it : Item) (f : Item → Item) : ServerM Unit :=
  modifyAssoc fun t => ((t.find it.key).filter (·.addr = it.addr)).elim t fun it' => t.put (f it')

/-- `_item_touch`; `ITEM_UPDATE_INTERVAL` is 60 and the subtraction is unsigned. -/
def itemTouch (it : Item) : ServerM Unit := do
  let s ← get
  when (it.atime < (s.now + (2 ^ 32 - 60)) % 2 ^ 32)
    (itemWrite it fun it => { it with atime := s.now })

/-- `_item_flush_expired`: items as recent as `oldest_live` go, the older ones are left to
`_item_get`.  The source walks each queue from its most recent item to the first older one; an item
is queued at the end whenever its time is written, so that the ones it does not get to are older
too.  Lease records are on the reserved queue, which this function does not walk. -/
def itemFlushExpired : ServerM Unit := do
  let s ← get
  when (s.oldestLive ≠ 0) <| modifyAssoc fun t =>
    { find := fun k => (t.find k).filter fun it => it.isLeaseHolder || it.atime < s.oldestLive
      name_eq := fun h => t.name_eq (Option.filter_eq_some_iff.mp h).1 }

/-! ## Allocation -/

/-- `item_ntotal`: header, optional cas, key with its terminator, payload and line end. -/
def itemNtotal (useCas : Bool) (nkey nbyte : Nat) : Nat :=
  (if useCas then 8 else 0) + 64 + nkey % 256 + 1 + nbyte + 2

/-- `item_slabid`: whether a slab class is large enough. -/
def itemSlabid (nkey nbyte : Nat) : ServerM Bool := do
  let c ← ask
  return itemNtotal c.useCas nkey nbyte ≤ c.maxChunkSize

/-- Ask the allocator for a chunk. -/
def slabGetItem : ServerM Bool := do
  let s ← get
  match s.heap with
  | [] => return true
  | .full :: heap =>
    modify fun s => { s with heap := heap }
    return false
  | .chunk evicted :: heap =>
    modify fun s => { s with heap := heap, assoc := s.assoc.prune (!·.pinned) evicted }
    return true

/-- `_item_alloc_config`.  The payload is written by the caller.  The source does not test the slab
class it is given, so an invalid one is a fault. -/
def itemAllocConfig (key : Bytes) (dataflags exptime nbyte : Nat) (configNum : Int) :
    ServerM (Option Item) := do
  if ← itemSlabid key.length nbyte then
    if ← slabGetItem then
      let s ← get
      modify fun s => { s with nextAddr := s.nextAddr + 1 }
      return some
        { addr := s.nextAddr, key := u8Name key, key_lt := length_u8Name_lt key
          dataflags := dataflags, exptime := exptime, configNumber := configNum }
    else return none
  else fault

/-- `_item_alloc` -/
def itemAlloc (key : Bytes) (dataflags exptime nbyte : Nat) : ServerM (Option Item) :=
  itemAllocConfig key dataflags exptime nbyte (-1)

/-- `_item_create_reserved_item` with its payload. -/
def itemCreateReservedItem (key data : Bytes) : ServerM (Option Item) := do
  let exptime ← leaseExptime
  let it ← itemAlloc key 0 exptime data.length
  return it.map fun it => { it with data := data, pinned := true }

/-- `_item_create_pending_version` with its payload. -/
def itemCreatePendingVersion (it : Item) (data : Bytes) : ServerM (Option Item) := do
  let exptime ← leaseExptime
  let pvIt ← itemAlloc (versionKey it.key) it.dataflags exptime data.length
  return pvIt.map fun pvIt => { pvIt with data := data }

/-- `_item_create_lease`: the lease item and its token.  The token is drawn also when there is no
memory for the item. -/
def itemCreateLease (key : Bytes) (kind : Lease) : ServerM (Option Item × UInt64) := do
  let token ← leaseNextToken
  let buf := decimal token
  let exptime ← leaseExptime
  let it ← itemAlloc (leaseKey key) 0 exptime buf.length
  return (it.map fun it => { it with data := buf, lease := kind, pinned := true }, token)

/-! ## Records of a key -/

/-- `_item_get_lease` -/
def itemGetLease (key : Bytes) : ServerM (Option Item) := itemGet (leaseKey key)

/-- `_item_get_pending_version` -/
def itemGetPendingVersion (key : Bytes) : ServerM (Option Item) := itemGet (versionKey key)

/-- `_item_get_pending` -/
def itemGetPending (key : Bytes) : ServerM (Option Item) := itemGet (pendingKey key)

/-- `_item_get_co_lease` -/
def itemGetCoLease (key : Bytes) : ServerM (Option Item) := itemGet (coLeaseKey key)

end Rejig
