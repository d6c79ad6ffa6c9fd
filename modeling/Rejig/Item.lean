import Rejig.KeyList
import Rejig.Lib.Prog
import Rejig.Lib.Slots

/-!
# Items and the server state

Everything the cache keeps is an *item* in one hash table: the values of user keys, and, under the
key with a three-letter prefix, the lease on the key (`ls:`), its pending version (`nv:`), the
marker that it has a pending write (`pd:`) and its session lease (`co:`).  A transaction or a
session is an item too, under its own identifier, whose payload lists the keys it works on.

## What is transcribed and what is left out

`Item` has the fields of `struct item` that an operation reads or writes.  A pointer to an item is
modelled by the item as it was when the pointer was taken, together with `addr`, the identity of the
memory it lies in: two records with the same `addr` are the same item.  The lease bits of `flags`
and the bits of `coflags` are set once, on a fresh item, and never two of a kind, so each group is
an enumeration.

Reference counts are not modelled.  What they decide here is which items an allocation may reuse,
and between two operations the only references that remain are the pins of lease, transaction and
session records; `pinned` is that bit.  The allocator is an oracle: for each allocation
`Server.heap` says whether it fails, and which unpinned items it evicts.

The clock is a natural number: the model does not follow `rel_time_t` past `2 ^ 32` seconds.
-/

namespace Rejig

/-! ## Names -/

/-- `mc_get_lease_key`: the name of the lease on a key. -/
def leaseKey (key : Bytes) : Bytes := 0x6c :: 0x73 :: 0x3a :: key

/-- `mc_get_version_key`: the name of the pending version of a key. -/
def versionKey (key : Bytes) : Bytes := 0x6e :: 0x76 :: 0x3a :: key

/-- `mc_get_pending_key`: the name of the pending marker of a key. -/
def pendingKey (key : Bytes) : Bytes := 0x70 :: 0x64 :: 0x3a :: key

/-- `mc_get_co_lease_key`: the name of the session lease on a key. -/
def coLeaseKey (key : Bytes) : Bytes := 0x63 :: 0x6f :: 0x3a :: key

/-- The prefixes `ls:`, `nv:`, `pd:`, `co:` and `pt:`. -/
def reservedPrefixes : List Bytes :=
  [leaseKey [], versionKey [], pendingKey [], coLeaseKey [], [0x70, 0x74, 0x3a]]

/-- A name that starts with none of the prefixes of the server's own records. -/
def Unprefixed (name : Bytes) : Prop := name.take 3 ∉ reservedPrefixes

instance instDecidableUnprefixed (name : Bytes) : Decidable (Unprefixed name) :=
  inferInstanceAs (Decidable (_ ∉ _))

/-- A length passes through a `uint8_t` on its way into an item or a list entry. -/
def u8Name (name : Bytes) : Bytes := name.take (name.length % 256)

theorem length_u8Name_lt (name : Bytes) : (u8Name name).length < 256 := by
  have := Nat.mod_lt name.length (show 0 < 256 by decide)
  simp only [u8Name, List.length_take]
  omega

/-! ## Items -/

/-- The lease bits of `item_flags_t`. -/
inductive Lease where
  | none
  | i
  | qInv
  | qRef
  | qInc
deriving DecidableEq, Repr

/-- The bits of `item_coflags_t`. -/
inductive CoFlag where
  | none
  | cLease
  | oLeaseInv
  | oLeaseRef
  | sess
deriving DecidableEq, Repr

/-- `ALIVE` and `ABORT` -/
inductive SessStatus where
  | alive
  | abort
deriving DecidableEq, Repr

/-- `struct item` -/
structure Item where
  /-- The identity of the memory the item lies in. -/
  addr : Nat
  key : Bytes
  /-- `nkey` is a `uint8_t`. -/
  key_lt : key.length < 256 := by decide
  /-- The payload; `nbyte` is its length. -/
  data : Bytes := []
  dataflags : Nat := 0
  /-- Expiry time in seconds, `0` for never. -/
  exptime : Nat := 0
  /-- Time of the last access. -/
  atime : Nat := 0
  cas : UInt64 := 0
  /-- `ITEM_RALIGN` -/
  ralign : Bool := false
  lease : Lease := .none
  co : CoFlag := .none
  /-- Whether the value is a pending value. -/
  p : UInt8 := 0
  sessStatus : SessStatus := .alive
  configNumber : Int := -1
  /-- The item carries a reference of its own and is not evicted. -/
  pinned : Bool := false
deriving DecidableEq, Repr

namespace Item

/-- `nbyte` -/
def nbyte (it : Item) : Nat := it.data.length

/-- `item_has_i_lease` -/
def hasILease (it : Item) : Bool := it.lease = .i

/-- `item_has_q_inv_lease` -/
def hasQInvLease (it : Item) : Bool := it.lease = .qInv

/-- `item_has_q_ref_lease` -/
def hasQRefLease (it : Item) : Bool := it.lease = .qRef

/-- `item_has_q_incr_lease` -/
def hasQIncrLease (it : Item) : Bool := it.lease = .qInc

/-- `item_has_q_lease` -/
def hasQLease (it : Item) : Bool := it.hasQInvLease || it.hasQRefLease || it.hasQIncrLease

/-- `item_is_lease_holder` -/
def isLeaseHolder (it : Item) : Bool := it.hasILease || it.hasQLease

theorem not_hasILease_of_hasQLease {l : Item} (h : l.hasQLease = true) : l.hasILease = false := by
  cases hl : l.lease <;> simp_all [hasILease, hasQLease, hasQInvLease, hasQRefLease, hasQIncrLease]

/-- `item_has_c_lease` -/
def hasCLease (it : Item) : Bool := it.co = .cLease

/-- `item_has_o_lease_inv` -/
def hasOLeaseInv (it : Item) : Bool := it.co = .oLeaseInv

/-- `item_has_o_lease_ref` -/
def hasOLeaseRef (it : Item) : Bool := it.co = .oLeaseRef

/-- `item_has_o_lease` -/
def hasOLease (it : Item) : Bool := it.hasOLeaseInv || it.hasOLeaseRef

/-- `item_has_co_lease` -/
def hasCoLease (it : Item) : Bool := it.hasCLease || it.hasOLease

/-- `_item_lease_value`: the token in the payload, or `-1` when the payload is no number. -/
def leaseValue (it : Item) : UInt64 := (mcStrtoullLen it.data).getD (.ofNat uint64Max)

/-- The expiry test of `_item_get`. -/
def expired (now : Nat) (it : Item) : Bool := it.exptime ≠ 0 && it.exptime ≤ now

/-- The `flush_all` test of `_item_get`. -/
def flushed (now oldestLive : Nat) (it : Item) : Bool :=
  oldestLive ≠ 0 && oldestLive ≤ now && it.atime ≤ oldestLive

end Item

/-! ## The server -/

/-- What the allocator does with the next allocation. -/
inductive HeapAnswer where
  /-- There is no memory. -/
  | full
  /-- The allocation succeeds; the named items may be reused or evicted for it. -/
  | chunk (evicted : List Bytes)
deriving DecidableEq, Repr

/-- The fields of `struct settings` and of the process that do not change while it runs. -/
structure Settings where
  useCas : Bool := true
  /-- Expiry time of leases in milliseconds. -/
  leaseTokenExpiry : Nat := 50
  /-- `process_started` in seconds. -/
  processStarted : Int := 0
  /-- The chunk size of the largest slab class. -/
  maxChunkSize : Nat := 1048576

/-- The hash table. -/
abbrev Assoc := Slots Bytes Item Item.key

/-- The state of the server. -/
structure Server where
  assoc : Assoc
  /-- `time_now()` -/
  now : Nat
  /-- `settings.oldest_live` -/
  oldestLive : Nat
  /-- `lease_current_token`; the counter of the source is this number modulo `2 ^ 64`. -/
  leaseCurrentToken : Nat
  /-- `cas_id`; the counter of the source is this number modulo `2 ^ 64`. -/
  casId : Nat
  configurationNumber : Int
  /-- The identity of the next item. -/
  nextAddr : Nat
  /-- The answers of the allocator; when they run out every allocation succeeds. -/
  heap : List HeapAnswer

namespace Server

/-- The item under a name, expired or not. -/
def find (s : Server) (name : Bytes) : Option Item := s.assoc.find name

/-- Nothing is found under a name that does not fit its length byte. -/
theorem length_lt_of_find {s : Server} {name : Bytes} {it : Item} (h : s.find name = some it) :
    name.length < 256 :=
  s.assoc.name_eq h ▸ it.key_lt

/-- An item that `_item_get` would no longer return. -/
def dead (s : Server) (it : Item) : Bool := it.expired s.now || it.flushed s.now s.oldestLive

/-- The item that `_item_get` would return. -/
def live (s : Server) (name : Bytes) : Option Item := (s.find name).filter (!s.dead ·)

/-- A server that has just started: `LEASE_START` is 5. -/
def start : Server where
  assoc := .empty
  now := 2
  oldestLive := 0
  leaseCurrentToken := 5
  casId := 0
  configurationNumber := 0
  nextAddr := 0
  heap := []

end Server

/-- The operations of `mc_items.c`. -/
abbrev ServerM := Prog Settings Server

end Rejig
