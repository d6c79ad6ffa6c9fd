import Rejig.Memory

/-!
# Storing items and keeping lists

`_item_store` with the rules of each command, the arithmetic of `incr` and `decr`, and the functions
that rebuild a record whenever an entry is added to or removed from its list.
-/

namespace Rejig

open Prog List

/-- The request types that `_item_store` distinguishes. -/
inductive ReqType where
  | iqset
  | set
  | add
  | replace
  | append
  | prepend
  | cas
  | iqget
  | delete
  | qareg
  | qaread
deriving DecidableEq, Repr

/-- `item_store_result_t` -/
inductive StoreResult where
  | notStored
  | stored
  | exists
  | notFound
  | storeError
deriving DecidableEq, Repr

/-- The end of `_item_store` when the item is to be stored. -/
def itemStoreLink (oit : Option Item) (it : Item) : ServerM StoreResult := do
  match oit with
  | some oit =>
    itemReplace oit it
    return .stored
  | none =>
    itemLink it
    return .stored

/-- The case `REQ_IQSET` of `_item_store`, which is the same whether there is an old item or not. -/
def itemStoreIqset (oit : Option Item) (it : Item) (leaseToken : UInt64) : ServerM StoreResult := do
  match ← itemGetLease it.key with
  | none => return .notStored
  | some leaseIt =>
    if !leaseIt.hasILease then return .notStored
    else if leaseToken ≠ leaseIt.leaseValue then return .notStored
    else
      itemUnlink leaseIt
      if it.nbyte = 0 then return .notStored
      else
        match ← itemGetPending it.key with
        | none => itemStoreLink oit it
        | some pendingIt =>
          itemUnlink pendingIt
          itemStoreLink oit { it with p := 1 }

/-- The cases `REQ_APPEND` and `REQ_PREPEND` of `_item_store` with an old item. -/
def itemStoreConcat (oit : Item) (data : Bytes) (ralign : Bool) : ServerM StoreResult := do
  if !(← itemSlabid oit.key.length data.length) then return .notStored
  else if oit.nbyte = 0 then return .notStored
  else
    match ← itemAlloc oit.key oit.dataflags oit.exptime data.length with
    | none => return .notStored
    | some nit => itemStoreLink (some oit) { nit with data := data, ralign := ralign }

/-- `_item_store`; `leaseToken` is the token that the connection presented. -/
def itemStore (it : Item) (type : ReqType) (leaseToken : UInt64 := 0) : ServerM StoreResult := do
  if it.nbyte = 0 && !it.isLeaseHolder && !it.hasCoLease then return .notStored
  else
    let oit ← itemGet it.key
    match type, oit with
    | .iqset, oit => itemStoreIqset oit it leaseToken
    | .set, oit => itemStoreLink oit it
    | .add, none => itemStoreLink none it
    | .add, some oit =>
      if oit.nbyte = 0 then itemStoreLink (some oit) it
      else
        itemTouch oit
        return .notStored
    | .replace, none => return .notStored
    | .replace, some oit => if oit.nbyte = 0 then return .notStored else itemStoreLink (some oit) it
    | .append, none => return .notStored
    | .append, some oit => itemStoreConcat oit (oit.data ++ it.data) false
    | .prepend, none => return .notStored
    | .prepend, some oit => itemStoreConcat oit (it.data ++ oit.data) true
    | .cas, none => return .notFound
    | .cas, some oit => if it.cas ≠ oit.cas then return .exists else itemStoreLink (some oit) it
    | .iqget, none => itemStoreLink none it
    | .iqget, some _ => return .notStored
    | .delete, oit => itemStoreLink oit it
    | .qareg, oit => itemStoreLink oit it
    | .qaread, oit => itemStoreLink oit it

/-! ## Increments -/

/-- `item_delta_result_t`, with the text that `DELTA_OK` leaves in the buffer. -/
inductive DeltaResult where
  | ok (buf : Bytes)
  | nonNumeric
  | eom
  | notFound
deriving DecidableEq, Repr

/-- The new value of an increment or decrement; both wrap as `uint64_t` does. -/
def addDelta (incr : Bool) (value delta : UInt64) : UInt64 :=
  if incr then value + delta else if value < delta then 0 else value - delta

/-- The payload after writing `buf` in place.  The bytes go where the old payload starts; the
payload of a right-aligned item ends where it ended, so there the new payload is what then lies in
the last `buf.length` bytes. -/
def inPlaceData (it : Item) (buf : Bytes) : Bytes :=
  if it.ralign then (buf ++ it.data.drop buf.length).drop (it.nbyte - buf.length) else buf

/-- The payload is as long as the number that was written, if this is no longer than the old one. -/
theorem length_inPlaceData {it : Item} {buf : Bytes} (h : buf.length ≤ it.nbyte) :
    (inPlaceData it buf).length = buf.length := by
  have hlen : buf.length ≤ it.data.length := h
  rw [inPlaceData]
  split
  · simp only [length_drop, length_append, Item.nbyte]
    omega
  · rfl

theorem inPlaceData_ne_nil {it : Item} {buf : Bytes} (hbuf : buf ≠ []) :
    inPlaceData it buf ≠ [] := by
  have hpos : 0 < buf.length := length_pos_of_ne_nil hbuf
  rw [inPlaceData]
  split
  · refine ne_nil_of_length_pos ?_
    simp only [length_drop, length_append, Item.nbyte]
    omega
  · exact hbuf

/-- `_item_add_delta` -/
def itemAddDelta (key : Bytes) (incr : Bool) (delta : UInt64) : ServerM DeltaResult := do
  match ← itemGet key with
  | none => return .notFound
  | some it =>
    match mcStrtoullLen it.data with
    | none => return .nonNumeric
    | some value =>
      let buf := decimal (addDelta incr value delta)
      if it.nbyte < buf.length then
        match ← itemAlloc it.key it.dataflags it.exptime buf.length with
        | none => return .eom
        | some newIt =>
          itemReplace it { newIt with data := buf, p := it.p }
          return .ok buf
      else
        let cas ← itemNextCas
        itemWrite it fun it => { it with cas := cas, data := inPlaceData it buf }
        return .ok buf

/-! ## Lists -/

/-- Whether the list of a record has an entry; a null record has none. -/
def itemCheckEntry (it : Option Item) (entry : Bytes) : ServerM Bool :=
  match it with
  | none => pure false
  | some it => deref (trigCheckKeylist it.data it.nbyte (u8Name entry))

/-- Add an entry to the list of a record, unless it is there: a new record with the longer list and
the given flags replaces the old one. -/
def itemAddEntry (it : Option Item) (name entry : Bytes) (lease : Lease) (co : CoFlag) :
    ServerM Unit := do
  let present ← itemCheckEntry it entry
  when (!present) do
    let data ← deref (trigKeylistAddkey (it.elim [] Item.data) (u8Name entry))
    let newIt ← deref (← itemCreateReservedItem name data)
    let _ ← itemStore { newIt with lease := lease, co := co } .set

/-- `_item_assoc_key_tid` -/
def itemAssocKeyTid (transIt : Option Item) (key tid : Bytes) : ServerM Unit :=
  itemAddEntry transIt tid key .none .sess

/-- `_item_assoc_key_sid`; a new record is `ALIVE`. -/
def itemAssocKeySid (sessIt : Option Item) (key sid : Bytes) : ServerM Unit :=
  itemAddEntry sessIt sid key .none .sess

/-- `_item_assoc_sid_colease` -/
def itemAssocSidColease (coleaseIt : Option Item) (key sid : Bytes) (type : CoFlag) :
    ServerM Unit :=
  itemAddEntry coleaseIt (coLeaseKey key) sid .none type

/-- `_item_assoc_tid_lease` -/
def itemAssocTidLease (leaseIt : Option Item) (key tid : Bytes) : ServerM Unit :=
  itemAddEntry leaseIt (leaseKey key) tid .qInv .none

/-- The session flags that a list keeps when it is rebuilt. -/
def Item.listCo (it : Item) : CoFlag := if it.hasCLease || it.hasOLease then it.co else .none

/-- The lease flags that a list keeps when it is rebuilt. -/
def Item.listLease (it : Item) : Lease :=
  if !(it.hasCLease || it.hasOLease) && it.hasQLease then .qInv else .none

/-- `_item_remove_entry_from_list`: the record goes with its last entry, and is rebuilt without the
entry otherwise. -/
def itemRemoveEntryFromList (it : Option Item) (name entry : Bytes) : ServerM Unit :=
  whenSome it fun it => do
    let present ← itemCheckEntry it entry
    when present do
      if it.nbyte = (u8Name entry).length + 1 then itemUnlink it
      else
        let data ← deref (trigKeylistRmvkey it.data (u8Name entry))
        let newIt ← deref (← itemCreateReservedItem name data)
        let _ ← itemStore { newIt with lease := it.listLease, co := it.listCo } .set

/-- `_item_remove_sid_colease` -/
def itemRemoveSidColease (coleaseIt : Option Item) (key sid : Bytes) : ServerM Unit :=
  itemRemoveEntryFromList coleaseIt (coLeaseKey key) sid

/-- `_item_remove_tid_lease` -/
def itemRemoveTidLease (leaseIt : Option Item) (key tid : Bytes) : ServerM Unit :=
  itemRemoveEntryFromList leaseIt (leaseKey key) tid

end Rejig
