import Rejig.Ascii

/-!
# What the primitive operations do

Each primitive operation is a function on the state: `_item_get` leaves `Server.reap`,
`_item_unlink` leaves `Server.unlink`, and so on.  The rules for `wlp` in this module execute the
primitive operations in these terms, and the lemmas on `find` and `live` say what is in the table
afterwards.

`live` is what an operation can see of the table.  Reaping does not change it, so to the operations
an item that has expired is the same as no item.
-/

namespace Rejig

open Prog Option

variable {Q : Option Item → Server → Prop} {data key : Bytes} {f : Item → Item}
  {dataflags exptime nbyte : Nat} {leaseToken : UInt64} {type : ReqType}

namespace Server

/-- The state after `_item_get`: an item that has expired or been flushed is unlinked. -/
@[simps now oldestLive leaseCurrentToken casId configurationNumber nextAddr heap]
def reap (s : Server) (key : Bytes) : Server :=
  { s with assoc := if (s.find key).any s.dead then s.assoc.erase key else s.assoc }

/-- The state after `_item_unlink`. -/
@[simps now oldestLive leaseCurrentToken casId configurationNumber nextAddr heap]
def unlink (s : Server) (it : Item) : Server :=
  { s with
    assoc := if (s.find it.key).any (·.addr = it.addr) then s.assoc.erase it.key else s.assoc }

/-- An item as it is once it is linked. -/
@[simps addr key data dataflags exptime atime ralign lease co p sessStatus configNumber pinned]
def stamp (c : Settings) (s : Server) (it : Item) : Item :=
  { it with cas := if c.useCas then .ofNat (s.casId + 1) else 0, atime := s.now }

/-- The state after `_item_link`. -/
@[simps now oldestLive leaseCurrentToken configurationNumber nextAddr heap]
def link (c : Settings) (s : Server) (it : Item) : Server :=
  { s with assoc := s.assoc.put (s.stamp c it), casId := if c.useCas then s.casId + 1 else s.casId }

/-- The state after a write through a pointer. -/
@[simps now oldestLive leaseCurrentToken casId configurationNumber nextAddr heap]
def write (s : Server) (it : Item) (f : Item → Item) : Server :=
  { s with assoc := ((s.find it.key).filter (·.addr = it.addr)).elim s.assoc fun it' =>
      s.assoc.put (f it') }

/-- Whether the next allocation succeeds. -/
def room (s : Server) : Bool := s.heap.head? ≠ some .full

/-- The items that may be evicted by the next allocation. -/
def evicted (s : Server) : List Bytes :=
  match s.heap with
  | .chunk evicted :: _ => evicted
  | _ => []

/-- The state after an allocation. -/
@[simps now oldestLive leaseCurrentToken casId configurationNumber heap]
def allocate (s : Server) : Server :=
  { s with
    assoc := s.assoc.prune (!·.pinned) s.evicted
    heap := s.heap.tail
    nextAddr := if s.room then s.nextAddr + 1 else s.nextAddr }

/-- The state after a token has been drawn. -/
@[simps now oldestLive leaseCurrentToken casId configurationNumber nextAddr heap]
def draw (s : Server) : Server := { s with leaseCurrentToken := s.leaseCurrentToken + 1 }

/-- The next token. -/
def token (s : Server) : UInt64 := .ofNat s.leaseCurrentToken

/-- The expiry of a lease created now. -/
def leaseExpiry (c : Settings) (s : Server) : Nat :=
  reltime c.processStarted s.now (leaseLifetime c.leaseTokenExpiry)

/-- An item fresh from the allocator. -/
@[simps]
def fresh (s : Server) (key : Bytes) (dataflags exptime : Nat) (configNum : Int) : Item where
  addr := s.nextAddr
  key := u8Name key
  key_lt := length_u8Name_lt key
  dataflags := dataflags
  exptime := exptime
  configNumber := configNum

/-- A fresh lease, transaction or session record. -/
@[simps]
def freshReserved (c : Settings) (s : Server) (key data : Bytes) (lease : Lease := .none)
    (co : CoFlag := .none) : Item where
  addr := s.nextAddr
  key := u8Name key
  key_lt := length_u8Name_lt key
  data := data
  exptime := s.leaseExpiry c
  lease := lease
  co := co
  pinned := true

/-- A fresh pending version of an item. -/
@[simps]
def freshVersion (c : Settings) (s : Server) (it : Item) (data : Bytes) : Item where
  addr := s.nextAddr
  key := u8Name (versionKey it.key)
  key_lt := length_u8Name_lt _
  data := data
  dataflags := it.dataflags
  exptime := s.leaseExpiry c

/-- A fresh lease with the next token. -/
@[simps]
def freshLease (c : Settings) (s : Server) (key : Bytes) (kind : Lease) : Item where
  addr := s.nextAddr
  key := u8Name (leaseKey key)
  key_lt := length_u8Name_lt _
  data := decimal s.token
  exptime := s.leaseExpiry c
  lease := kind
  pinned := true

end Server

/-- Whether there is a slab class for an item. -/
def Settings.fits (c : Settings) (nkey nbyte : Nat) : Bool :=
  itemNtotal c.useCas nkey nbyte ≤ c.maxChunkSize

/-! ## Rules of execution -/

section Rules

variable {c : Settings} {s : Server}

@[simp] theorem wlp_modifyAssoc {f : Assoc → Assoc} {Q : Unit → Server → Prop} :
    wlp (modifyAssoc f) Q c s ↔ Q () { s with assoc := f s.assoc } := wlp_modify

@[simp] theorem wlp_itemGet : wlp (itemGet key) Q c s ↔ Q (s.live key) (s.reap key) := by
  simp only [itemGet, wlp_bind, wlp_get, Server.live, Server.reap]
  cases h : s.find key with
  | none => simp
  | some it => cases hd : s.dead it <;> simp [hd, filter_some]

@[simp] theorem wlp_itemUnlink {it : Item} {Q : Unit → Server → Prop} :
    wlp (itemUnlink it) Q c s ↔ Q () (s.unlink it) := wlp_modifyAssoc

theorem wp_itemGet : wp (itemGet key) Q c s ↔ Q (s.live key) (s.reap key) := by
  rw [wp_iff_not_wlp, wlp_itemGet, not_not]

theorem wp_itemUnlink {it : Item} {Q : Unit → Server → Prop} :
    wp (itemUnlink it) Q c s ↔ Q () (s.unlink it) := by
  rw [wp_iff_not_wlp, wlp_itemUnlink, not_not]

@[simp] theorem wlp_itemNextCas {Q : UInt64 → Server → Prop} :
    wlp itemNextCas Q c s ↔ Q (if c.useCas then .ofNat (s.casId + 1) else 0)
      { s with casId := if c.useCas then s.casId + 1 else s.casId } := by
  cases h : c.useCas <;> simp [itemNextCas, h]

@[simp] theorem wlp_itemLink {it : Item} {Q : Unit → Server → Prop} :
    wlp (itemLink it) Q c s ↔ Q () (s.link c it) := by
  simp [itemLink, Server.link, Server.stamp]

@[simp] theorem wlp_itemWrite {it : Item} {Q : Unit → Server → Prop} :
    wlp (itemWrite it f) Q c s ↔ Q () (s.write it f) := wlp_modifyAssoc

@[simp] theorem wlp_timeReltime {exptime : Int} {Q : Nat → Server → Prop} :
    wlp (timeReltime exptime) Q c s ↔ Q (reltime c.processStarted s.now exptime) s := by
  simp [timeReltime]

@[simp] theorem wlp_leaseExptime {Q : Nat → Server → Prop} :
    wlp leaseExptime Q c s ↔ Q (s.leaseExpiry c) s := by
  simp [leaseExptime, Server.leaseExpiry]

@[simp] theorem wlp_leaseNextToken {Q : UInt64 → Server → Prop} :
    wlp leaseNextToken Q c s ↔ Q s.token s.draw := by
  simp [leaseNextToken, Server.token, Server.draw]

@[simp] theorem wlp_itemSlabid {nkey : Nat} {Q : Bool → Server → Prop} :
    wlp (itemSlabid nkey nbyte) Q c s ↔ Q (c.fits nkey nbyte) s := by
  simp [itemSlabid, Settings.fits]

theorem wlp_slabGetItem {Q : Bool → Server → Prop} : wlp slabGetItem Q c s ↔
      Q s.room { s.allocate with nextAddr := s.nextAddr } := by
  simp only [slabGetItem, wlp_bind, wlp_get, Server.allocate, Server.room, Server.evicted]
  cases s with
  | mk assoc now oldestLive leaseCurrentToken casId configurationNumber nextAddr heap =>
    cases heap with
    | nil => simp
    | cons a heap => cases a <;> simp

@[simp] theorem wlp_itemAllocConfig {configNum : Int} :
    wlp (itemAllocConfig key dataflags exptime nbyte configNum) Q c s ↔
      (c.fits key.length nbyte →
        Q (if s.room then some (s.fresh key dataflags exptime configNum) else none)
        s.allocate) := by
  simp only [itemAllocConfig, wlp_bind, wlp_itemSlabid]
  cases c.fits key.length nbyte with
  | false => simp
  | true =>
    simp only [if_true, wlp_bind, wlp_slabGetItem]
    cases h : s.room <;> simp [h, Server.allocate, Server.fresh]

@[simp] theorem wlp_itemAlloc : wlp (itemAlloc key dataflags exptime nbyte) Q c s ↔
      (c.fits key.length nbyte →
        Q (if s.room then some (s.fresh key dataflags exptime (-1)) else none) s.allocate) :=
  wlp_itemAllocConfig

@[simp] theorem wlp_itemCreateReservedItem : wlp (itemCreateReservedItem key data) Q c s ↔
      (c.fits key.length data.length →
        Q (if s.room then some (s.freshReserved c key data) else none) s.allocate) := by
  simp only [itemCreateReservedItem, wlp_bind, wlp_leaseExptime, wlp_itemAlloc, wlp_pure]
  cases h : s.room <;> simp [Server.freshReserved, Server.fresh]

@[simp] theorem wlp_itemCreatePendingVersion {it : Item} :
    wlp (itemCreatePendingVersion it data) Q c s ↔
      (c.fits (versionKey it.key).length data.length →
        Q (if s.room then some (s.freshVersion c it data) else none) s.allocate) := by
  simp only [itemCreatePendingVersion, wlp_bind, wlp_leaseExptime, wlp_itemAlloc, wlp_pure]
  cases h : s.room <;> simp [Server.freshVersion, Server.fresh]

@[simp] theorem wlp_itemCreateLease {kind : Lease} {Q : Option Item × UInt64 → Server → Prop} :
    wlp (itemCreateLease key kind) Q c s ↔
      (c.fits (leaseKey key).length (decimal s.token).length →
        Q (if s.room then some (s.freshLease c key kind) else none, s.token) s.draw.allocate) := by
  simp only [itemCreateLease, wlp_bind, wlp_leaseNextToken, wlp_leaseExptime, wlp_itemAlloc,
    wlp_pure]
  have hroom : s.draw.room = s.room := rfl
  have hexp : s.draw.leaseExpiry c = s.leaseExpiry c := rfl
  rw [hroom, hexp]
  cases h : s.room <;> simp [Server.freshLease, Server.fresh]

end Rules

/-! ## The table afterwards -/

namespace Server

variable (c : Settings) (s : Server) (it : Item) (key n : Bytes)

@[simp] theorem dead_reap : (s.reap key).dead = s.dead := rfl

@[simp] theorem dead_unlink : (s.unlink it).dead = s.dead := rfl

@[simp] theorem dead_link : (s.link c it).dead = s.dead := rfl

@[simp] theorem dead_write (f : Item → Item) : (s.write it f).dead = s.dead := rfl

@[simp] theorem dead_allocate : s.allocate.dead = s.dead := rfl

@[simp] theorem dead_draw : s.draw.dead = s.dead := rfl

variable {s it key n}

theorem live_eq_some : s.live n = some it ↔ s.find n = some it ∧ s.dead it = false := by
  simp [live, filter_eq_some_iff]

theorem key_of_find (h : s.find n = some it) : it.key = n := s.assoc.name_eq h

theorem key_of_live (h : s.live n = some it) : it.key = n := key_of_find (live_eq_some.mp h).1

theorem live_of_find_none (h : s.find n = none) : s.live n = none := by
  simp [live, h]

variable (s key n)

theorem find_reap : (s.reap key).find n = if n = key then s.live n else s.find n := by
  rw [find, reap, live]
  by_cases hn : n = key
  · subst hn
    cases h : s.find n with
    | none => simpa [find] using h
    | some it => cases hd : s.dead it <;> simp_all [find, filter_some]
  · cases h : (s.find key).any s.dead <;> simp [hn, find]

@[simp] theorem find_reap_self : (s.reap key).find key = s.live key := by
  simp [find_reap]

@[simp] theorem live_reap : (s.reap key).live n = s.live n := by
  rw [live, find_reap, dead_reap]
  by_cases hn : n = key <;> simp [live, hn]

variable (it)

theorem find_link : (s.link c it).find n =
    if n = it.key then some (s.stamp c it) else s.find n := by
  simp [find, link, Slots.find_put]

theorem live_link : (s.link c it).live n =
    if n = it.key then (some (s.stamp c it)).filter (!s.dead ·) else s.live n := by
  rw [live, find_link, dead_link]
  split <;> rfl

/-- Linking an item does not depend on what was there. -/
theorem link_reap : (s.reap it.key).link c it = s.link c it := by
  have h : (s.assoc.erase it.key).put (s.stamp c it) = s.assoc.put (s.stamp c it) :=
    s.assoc.put_erase (s.stamp c it)
  cases hd : (s.find it.key).any s.dead <;> simp [link, reap, hd, stamp] at h ⊢
  exact h

theorem find_unlink : (s.unlink it).find n = if n = it.key then (s.find n).filter
      (·.addr ≠ it.addr) else s.find n := by
  rw [find, unlink]
  by_cases hn : n = it.key
  · subst hn
    cases h : s.find it.key with
    | none => simpa [find] using h
    | some it' => by_cases ha : it'.addr = it.addr <;> simp_all [find, filter_some]
  · cases h : (s.find it.key).any (·.addr = it.addr) <;> simp [hn, find]

variable {it}

theorem link_unlink {it' : Item} (hk : it'.key = it.key) :
    (s.unlink it').link c it = s.link c it := by
  have h : (s.assoc.erase it.key).put (s.stamp c it) = s.assoc.put (s.stamp c it) :=
    s.assoc.put_erase (s.stamp c it)
  cases hd : (s.find it.key).any (·.addr = it'.addr) <;> simp [link, unlink, hk, hd, stamp] at h ⊢
  exact h

theorem find_unlink_of_find (h : s.find it.key = some it) :
    (s.unlink it).find n = if n = it.key then none else s.find n := by
  rw [find_unlink]
  split
  · next hn => simp [hn, h, filter_some]
  · rfl

theorem live_unlink_of_live (h : s.live it.key = some it) :
    (s.unlink it).live n = if n = it.key then none else s.live n := by
  rw [live, find_unlink_of_find _ _ (live_eq_some.mp h).1, dead_unlink]
  split <;> rfl

variable (it) in
theorem find_write (hf : ∀ it', (f it').key = it'.key) : (s.write it f).find n = if n = it.key then
      (s.find n).map fun it' => if it'.addr = it.addr then f it' else it' else s.find n := by
  have hw : (s.write it f).find n =
      (((s.find it.key).filter (·.addr = it.addr)).elim s.assoc fun it' =>
        s.assoc.put (f it')).find n :=
    rfl
  rw [hw]
  cases h : s.find it.key with
  | none => split <;> simp_all [find]
  | some it' =>
    have hk : it'.key = it.key := key_of_find h
    by_cases ha : it'.addr = it.addr <;> by_cases hn : n = it.key <;>
      simp_all [filter_some, Slots.find_put, find]

/-- A write through a pointer to the item that is there. -/
theorem find_write_of_find (hf : ∀ it', (f it').key = it'.key) (h : s.find it.key = some it) :
    (s.write it f).find n = if n = it.key then some (f it) else s.find n := by
  rw [find_write _ _ _ hf]
  split
  · next hn => simp [hn, h]
  · rfl

/-- An allocation keeps an item or evicts it, and does not evict what is pinned. -/
theorem find_allocate_eq_or : s.allocate.find n = s.find n ∨
    ∃ it, s.find n = some it ∧ it.pinned = false ∧ s.allocate.find n = none := by
  rcases Slots.find_prune_eq_or (!·.pinned) s.assoc s.evicted n with h | ⟨it, h, hp, hn⟩
  · exact Or.inl h
  · exact Or.inr ⟨it, h, by simpa using hp, hn⟩

@[simp] theorem find_draw : s.draw.find n = s.find n := rfl

@[simp] theorem live_draw : s.draw.live n = s.live n := rfl

/-- Without an answer of the allocator there is room and nothing is evicted. -/
theorem room_of_heap_nil (h : s.heap = []) : s.room = true := by
  simp [room, h]

theorem find_allocate_of_heap_nil (h : s.heap = []) : s.allocate.find n = s.find n := by
  simp [find, allocate, evicted, h]

theorem live_allocate_of_heap_nil (h : s.heap = []) : s.allocate.live n = s.live n := by
  rw [live, find_allocate_of_heap_nil s n h, dead_allocate]
  rfl

end Server

/-! ## Storing -/

/-- What `_item_store` does not refuse at once. -/
def Item.storable (it : Item) : Bool := it.nbyte ≠ 0 || it.isLeaseHolder || it.hasCoLease

theorem Item.storable_of_lease {it : Item} (h : it.lease ≠ .none) : it.storable = true := by
  cases hl : it.lease <;>
    simp_all [storable, isLeaseHolder, hasILease, hasQLease, hasQInvLease, hasQRefLease,
      hasQIncrLease]

section Storing

variable {c : Settings} {s : Server} {it : Item} {Q : StoreResult → Server → Prop}

theorem wlp_itemStoreLink {oit : Option Item} (hk : ∀ o, oit = some o → o.key = it.key) :
    wlp (itemStoreLink oit it) Q c s ↔ Q .stored (s.link c it) := by
  cases oit with
  | none => simp [itemStoreLink]
  | some o => simp [itemStoreLink, itemReplace, s.link_unlink c (hk o rfl)]

theorem Item.not_storable (it : Item) :
    (it.nbyte = 0 && !it.isLeaseHolder && !it.hasCoLease) = !it.storable := by
  simp [Item.storable, Bool.not_or]

/-- An empty item is refused, whatever the command. -/
theorem wlp_itemStore_of_not_storable (h : it.storable = false) :
    wlp (itemStore it type leaseToken) Q c s ↔ Q .notStored s := by
  rw [itemStore, it.not_storable, h, Bool.not_false, if_pos rfl, wlp_pure]

/-- The stores that take place whatever was there. -/
theorem wlp_itemStore_set (ht : type = .set ∨ type = .qaread) :
    wlp (itemStore it type leaseToken) Q c s ↔
      if it.storable then Q .stored (s.link c it) else Q .notStored s := by
  have hk : ∀ o, s.live it.key = some o → o.key = it.key := fun o ho => Server.key_of_live ho
  rw [itemStore, it.not_storable]
  cases it.storable with
  | false => simp
  | true =>
    rcases ht with rfl | rfl <;>
      simp [wlp_itemStoreLink hk, s.link_reap c it]

section

variable {A : Type} {R : A → Server → Prop}

/-- What has just been allocated is stored, unless it is empty. -/
theorem wlp_deref_store {b : Bool} {g : Item → Item} {f : Item → ServerM A}
    (hlink : wlp (f it) R c (s.link c (g it))) (hskip : wlp (f it) R c s) :
    wlp (deref (if b then some it else none) >>= fun it => itemStore (g it) .set >>= fun _ =>
        f it) R c s := by
  rw [wlp_bind, wlp_deref_ite]
  intro _
  rw [wlp_bind, wlp_itemStore_set (.inl rfl)]
  split
  · exact hlink
  · exact hskip

/-- A lease is created and stored. -/
theorem wlp_store_lease {kind : Lease} {g : Option Item × UInt64 → ServerM A} {f : Item → ServerM A}
    (hg : ∀ l, g (l, s.token) = deref l >>= fun l => itemStore l type >>= fun _ => f l)
    (ht : type = .set ∨ type = .qaread) (hkind : kind ≠ .none)
    (h : wlp (f (s.freshLease c key kind)) R c (s.draw.allocate.link c (s.freshLease c key kind))) :
    wlp (itemCreateLease key kind >>= g) R c s := by
  rw [wlp_bind, wlp_itemCreateLease]
  intro _
  rw [hg, wlp_bind, wlp_deref_ite]
  intro _
  rw [wlp_bind, wlp_itemStore_set ht, if_pos (Item.storable_of_lease hkind)]
  exact h

/-- The frame of the operations that end a transaction: a loop over the keys that it lists, and its
record goes. -/
abbrev finish (tid : Bytes) (a b : A) (pass : Item → Bytes → ServerM Unit) : ServerM A := do
  match ← itemGet tid with
  | none => return a
  | some transIt =>
    let keys ← deref (trigKeylistEntries transIt.data)
    forEach (pass transIt) keys
    itemUnlink transIt
    return b

end

end Storing

end Rejig
