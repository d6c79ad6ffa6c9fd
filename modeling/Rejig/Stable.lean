import Rejig.History

/-!
# Invariants of all operations

The operations of `mc_items.c` are put together from a few primitive ones.  A property `I` of the
state that these keep is kept by every operation, whatever clients send, as long as the items that
the operations link are among those that `I` lets be linked.  A property `L` of items says which
these are, and a property `K` says what `I` knows of every item that is found.

What an operation links depends on the names that it is given and on the lists that it finds.
`keys` and `ids` say which names are used for keys and which for transactions and sessions; `K` has
to see to it that the lists in the table contain such names only.  `F` is what is known of the flags
of values, which pending versions inherit, and `A` what is known of the memory that the allocator
hands out.

`Stable` collects these conditions.  The operations that give a key its value have one more
condition each, about the value.
-/

namespace Rejig

open Prog Server Option List

variable {entry key n name sid tid : Bytes} {s : Server} {B : Type} {c : Settings}
  {leaseToken : UInt64} {coleaseIt transIt : Option Item} {f : Item → Item} {pvIt : Item}
  {req : Request} {type : ReqType}

/-! ## Items and states -/

theorem length_u8Name (n : Bytes) : (u8Name n).length = n.length % 256 := by
  rw [u8Name, length_take]
  exact Nat.min_eq_left (Nat.mod_le _ _)

theorem Settings.fits_u8Name {nbyte : Nat} :
    c.fits (u8Name n).length nbyte = c.fits n.length nbyte := by
  rw [fits, fits, itemNtotal, itemNtotal, length_u8Name, Nat.mod_mod]

/-- What a write through a pointer leaves alone, other than that of an increment or a touch. -/
structure Item.Marked (it it' : Item) : Prop where
  addr : it'.addr = it.addr := by rfl
  key : it'.key = it.key := by rfl
  data : it'.data = it.data := by rfl
  dataflags : it'.dataflags = it.dataflags := by rfl
  cas : it'.cas = it.cas := by rfl
  ralign : it'.ralign = it.ralign := by rfl
  lease : it'.lease = it.lease := by rfl
  co : it'.co = it.co := by rfl
  configNumber : it'.configNumber = it.configNumber := by rfl
  atime : it'.atime = it.atime := by rfl

theorem Item.Marked.isLeaseHolder {it it' : Item} (hm : it.Marked it') :
    it'.isLeaseHolder = it.isLeaseHolder := by
  simp only [Item.isLeaseHolder, Item.hasILease, Item.hasQLease, Item.hasQInvLease,
    Item.hasQRefLease, Item.hasQIncrLease, hm.lease]

/-- What else is written to an item does not matter. -/
theorem Item.marked (it : Item) {exptime : Nat} {p : UInt8} {sessStatus : SessStatus}
    {pinned : Bool} :
    it.Marked { it with exptime := exptime, p := p, sessStatus := sessStatus, pinned := pinned } :=
  ⟨rfl, rfl, rfl, rfl, rfl, rfl, rfl, rfl, rfl, rfl⟩

/-- An item that has just been allocated, whatever is then written to it.  The addresses below `b`
have been handed out. -/
structure Item.Made (c : Settings) (A : Nat → Prop) (b : Nat) (name : Bytes) (dataflags : Nat)
    (configNum : Int) (it : Item) : Prop where
  addr : A it.addr
  addr_lt : it.addr < b
  key : it.key = u8Name name
  dataflags : it.dataflags = dataflags
  configNumber : it.configNumber = configNum
  fits : c.fits name.length it.nbyte = true

/-- What is written to an item of `nbyte` bytes that has just been allocated. -/
structure Item.Filled (nbyte : Nat) (it it' : Item) : Prop where
  addr : it'.addr = it.addr := by rfl
  key : it'.key = it.key := by rfl
  dataflags : it'.dataflags = it.dataflags := by rfl
  configNumber : it'.configNumber = it.configNumber := by rfl
  nbyte : it'.nbyte = nbyte := by rfl

/-- Items are lost, and nothing else happens to the table. -/
structure Server.Shrinks (s s' : Server) : Prop where
  find : ∀ {n it}, s'.find n = some it → s.find n = some it
  casId : s'.casId = s.casId
  nextAddr : s.nextAddr ≤ s'.nextAddr
  now : s'.now = s.now
  oldestLive : s'.oldestLive = s.oldestLive

/-- The state after an increment in place. -/
def Server.place (c : Settings) (s : Server) (it : Item) (buf : Bytes) : Server :=
  ({ s with casId := if c.useCas then s.casId + 1 else s.casId } : Server).write it fun it =>
    { it with cas := if c.useCas then .ofNat (s.casId + 1) else 0, data := inPlaceData it buf }

theorem Server.find_place {it : Item} (buf n : Bytes) (hit : s.find it.key = some it) :
    (s.place c it buf).find n = if n = it.key then
      some
        { it with cas := if c.useCas then .ofNat (s.casId + 1) else 0, data := inPlaceData it buf }
    else s.find n :=
  find_write_of_find { s with casId := if c.useCas then s.casId + 1 else s.casId } n
    (f := fun it =>
      { it with cas := if c.useCas then .ofNat (s.casId + 1) else 0, data := inPlaceData it buf })
    (fun _ => rfl) hit

/-- The time that `flush_all` writes to `oldest_live`. -/
def Server.cut (c : Settings) (s : Server) (exptime : Int) : Nat :=
  (if 0 < exptime then reltime c.processStarted s.now exptime else s.now) - 1

/-- The state after `flush_all`. -/
def Server.flush (s : Server) (cut : Nat) : Server where
  assoc :=
    { find := fun n => (s.find n).filter fun it => cut = 0 || it.isLeaseHolder || it.atime < cut
      name_eq := fun h => s.assoc.name_eq (filter_eq_some_iff.mp h).1 }
  now := s.now
  oldestLive := cut
  leaseCurrentToken := s.leaseCurrentToken
  casId := s.casId
  configurationNumber := s.configurationNumber
  nextAddr := s.nextAddr
  heap := s.heap

theorem Server.find_of_flush {cut : Nat} {it : Item} (h : (s.flush cut).find n = some it) :
    s.find n = some it := (filter_eq_some_iff.mp h).1

/-- With the time 0 nothing is flushed, now or later. -/
theorem Server.flush_zero (s : Server) : s.flush 0 = { s with oldestLive := 0 } := by
  rw [Server.flush]
  congr 1
  ext1 n
  show (s.find n).filter _ = s.find n
  cases s.find n <;> simp

theorem wlp_ascProcessFlushall {exptime : Int} {Q : Outcome → Server → Prop} :
    wlp (ascProcessFlushall exptime) Q c s ↔ Q (.reply .ok) (s.flush (s.cut c exptime)) := by
  rw [ascProcessFlushall, wlp_bind, wlp_timeReltime, wlp_bind, wlp_modify, wlp_bind,
    itemFlushExpired, wlp_bind, wlp_get, ← Server.cut]
  by_cases hcut : s.cut c exptime = 0
  · rw [hcut, s.flush_zero]
    simp
  · have hflush : s.flush (s.cut c exptime) = { s with
        oldestLive := s.cut c exptime
        assoc :=
          { find := fun n =>
              (s.find n).filter fun it => it.isLeaseHolder || it.atime < s.cut c exptime
            name_eq := fun h => s.assoc.name_eq (filter_eq_some_iff.mp h).1 } } := by
      simp [Server.flush, hcut]
    simp [hflush, hcut, Server.find]

/-- All items in the table satisfy a property. -/
def Server.All (P : Item → Prop) (s : Server) : Prop := ∀ n it, s.find n = some it → P it

namespace Server.All

variable {P : Item → Prop} {it : Item}

variable (h : s.All P)

include h

theorem link (hit : P (s.stamp c it)) : (s.link c it).All P := by
  intro n it' hn
  rw [find_link] at hn
  split at hn
  · cases hn
    exact hit
  · exact h n it' hn

theorem write (hk : ∀ it, (f it).key = it.key) (hf : ∀ it, P it → P (f it)) :
    (s.write it f).All P := by
  intro n it' hn
  rw [find_write _ _ _ hk] at hn
  split at hn
  · obtain ⟨o, ho, rfl⟩ := map_eq_some_iff.mp hn
    split
    · exact hf o (h n o ho)
    · exact h n o ho
  · exact h n it' hn

theorem place {buf : Bytes} (hfind : s.find it.key = some it)
    (hit : ∀ cas, P { it with cas := cas, data := inPlaceData it buf }) :
    (s.place c it buf).All P := by
  intro n it' hn
  rw [find_place _ _ hfind] at hn
  split at hn
  · cases hn
    exact hit _
  · exact h n it' hn

/-- `flush_all` only loses items. -/
theorem flush (cut : Nat) : (s.flush cut).All P :=
  fun n it hit => h n it (find_of_flush hit)

end Server.All

namespace Server.Shrinks

variable (s : Server)

theorem reap (key : Bytes) : s.Shrinks (s.reap key) where
  find {n it} hit := by
    rw [find_reap] at hit
    split at hit
    · exact (live_eq_some.mp hit).1
    · exact hit
  casId := rfl
  nextAddr := le_rfl
  now := rfl
  oldestLive := rfl

theorem unlink (it : Item) : s.Shrinks (s.unlink it) where
  find {n it} hit := by
    rw [find_unlink] at hit
    split at hit
    · exact (filter_eq_some_iff.mp hit).1
    · exact hit
  casId := rfl
  nextAddr := le_rfl
  now := rfl
  oldestLive := rfl

theorem allocate : s.Shrinks s.allocate where
  find {n it} hit := by
    rcases s.find_allocate_eq_or n with heq | ⟨_, _, _, hnone⟩
    · rwa [← heq]
    · rw [hnone] at hit
      cases hit
  casId := rfl
  nextAddr := by
    rw [Server.allocate]
    split
    · exact Nat.le_succ _
    · exact le_rfl
  now := rfl
  oldestLive := rfl

theorem draw : s.Shrinks s.draw := ⟨id, rfl, le_rfl, rfl, rfl⟩

end Server.Shrinks

/-! ## The conditions -/

/-- An invariant `I` of the primitive operations.  Items with `L` may be linked, and those that are
found have `K`.  `I` and `L` may refer to a number `b` of addresses that have been handed out. -/
structure Stable (c : Settings) (keys ids : Bytes → Prop) (F : Nat → Prop) (A : Nat → Prop)
    (K : Item → Prop) (L : Nat → Item → Prop) (I : Nat → Server → Prop) : Prop where
  found : ∀ {b s n it}, I b s → s.find n = some it → K it
  shrink : ∀ {b s s'}, I b s → s.Shrinks s' → I b s'
  fresh : ∀ {b s}, I b s → A s.nextAddr
  grow : ∀ {b s}, I b s → I (max b s.nextAddr) s
  less : ∀ {b b' s}, b ≤ b' → I b' s → I b s
  link : ∀ {b s it}, I b s → L b it → I b (s.link c it)
  mark : ∀ {b s it} {f : Item → Item}, I b s → (∀ it : Item, it.Marked (f it)) → I b (s.write it f)
  /-- An item that has just been found is touched. -/
  touch : ∀ {b s it}, I b s → s.live it.key = some it →
    I b (s.write it fun it => { it with atime := s.now })
  tick : ∀ {b s} (seconds : Nat), I b s → I b { s with now := s.now + seconds }
  marked : ∀ {b} {it it' : Item}, L b it → it.Marked it' → L b it'
  flags : ∀ {it}, K it → F it.dataflags
  /-- A pending version is incremented in place. -/
  place : ∀ {b s key it buf}, I b s → keys key → it.key = versionKey key →
    s.find it.key = some it → buf ≠ [] →
    buf.length ≤ it.nbyte → I b (s.place c it buf)
  /-- The list of a transaction or a session gets a key. -/
  list : ∀ {b name key old it}, ids name → keys key →
    (∀ o : Item, old = some o → K o ∧ o.key = name) →
    it.Made c A b name 0 (-1) → Extended old key it.data → L b it
  /-- A session lease gets a session. -/
  share : ∀ {b key sid old it}, keys key → ids sid →
    (∀ o : Item, old = some o → K o ∧ o.key = coLeaseKey key) →
    it.Made c A b (coLeaseKey key) 0 (-1) → Extended old sid it.data → L b it
  /-- A session lease loses a session. -/
  unshare : ∀ {b key sid o it}, keys key → K o → o.key = coLeaseKey key → o.Has sid →
    it.Made c A b (coLeaseKey key) 0 (-1) → trigKeylistRmvkey o.data (u8Name sid) = some it.data →
      it.storable = true → L b it
  lease : ∀ {b key it}, keys key → it.Made c A b (leaseKey key) 0 (-1) → it.storable = true → L b it
  version : ∀ {b key flags it}, keys key → F flags → it.Made c A b (versionKey key) flags (-1) →
    it.data ≠ [] →
    Plain it → L b it
  marker : ∀ {b key configNum it}, keys key → it.Made c A b (pendingKey key) 0 configNum →
    it.data ≠ [] →
    Plain it → L b it
  /-- Lists of transactions and sessions contain keys. -/
  listed : ∀ {it ks}, K it → ids it.key → trigKeylistEntries it.data = some ks →
    ∀ key ∈ ks, keys key
  /-- Session leases list sessions. -/
  shared : ∀ {key it ks}, K it → keys key → it.key = coLeaseKey key →
    trigKeylistEntries it.data = some ks →
    ∀ sid ∈ ks, ids sid

theorem Plain.data_ne_nil {it : Item} (h : Plain it) (hs : it.storable = true) : it.data ≠ [] := by
  rw [h.storable] at hs
  exact ne_nil_of_length_pos (Nat.pos_of_ne_zero (of_decide_eq_true hs))

namespace Stable

variable {keys ids : Bytes → Prop} {F A : Nat → Prop} {K : Item → Prop} {L : Nat → Item → Prop}
  {I : Nat → Server → Prop} {b : Nat}

/-! ## Primitive operations -/

theorem keeps_itemCheckEntry (it : Option Item) (entry : Bytes) :
    Keeps (I b) c (itemCheckEntry it entry) := by
  cases it with
  | none => exact .pure _
  | some it => exact .deref _

section Primitive

variable (h : Stable c keys ids F A K L I)

include h

/-- What is found satisfies `K`. -/
theorem found_itemGet (key : Bytes) : ∀ s, I b s →
    wlp (itemGet key) (fun o s' => I b s' ∧ ∀ it, o = some it → K it ∧ it.key = key) c s :=
  fun s hs => wlp_itemGet.mpr ⟨h.shrink hs (.reap s key), fun _ hit =>
    ⟨h.found hs (live_eq_some.mp hit).1, key_of_live hit⟩⟩

theorem keeps_itemGet (key : Bytes) : Keeps (I b) c (itemGet key) :=
  fun s hs => wlp_itemGet.mpr (h.shrink hs (.reap s key))

theorem keeps_itemUnlink (it : Item) : Keeps (I b) c (itemUnlink it) :=
  fun s hs => wlp_itemUnlink.mpr (h.shrink hs (.unlink s it))

theorem keeps_unlinkSome (it : Option Item) : Keeps (I b) c (whenSome it itemUnlink) :=
  .whenSome fun it _ => h.keeps_itemUnlink it

/-- Dropping what is under a name. -/
theorem keeps_drop (n : Bytes) : Keeps (I b) c (do whenSome (← itemGet n) itemUnlink) :=
  .bind (h.keeps_itemGet n) h.keeps_unlinkSome

theorem keeps_itemWrite (it : Item) (hf : ∀ it : Item, it.Marked (f it)) :
    Keeps (I b) c (itemWrite it f) :=
  fun _ hs => wlp_itemWrite.mpr (h.mark hs hf)

theorem keeps_itemTouch {it : Item} (hs : I b s) (hit : s.live it.key = some it) :
    wlp (itemTouch it) (fun _ => I b) c s := by
  rw [itemTouch, wlp_bind, wlp_get, wlp_when]
  exact ⟨fun _ => wlp_itemWrite.mpr (h.touch hs hit), fun _ => hs⟩

theorem keeps_itemReplace (oit : Item) {it : Item} (hit : L b it) :
    Keeps (I b) c (itemReplace oit it) :=
  .bind (h.keeps_itemUnlink oit) fun _ _ hs => wlp_itemLink.mpr (h.link hs hit)

theorem keeps_itemStoreLink (oit : Option Item) {it : Item} (hit : L b it) :
    Keeps (I b) c (itemStoreLink oit it) := by
  cases oit with
  | none => exact .bind (fun _ hs => wlp_itemLink.mpr (h.link hs hit)) fun _ => .pure _
  | some oit => exact .bind (h.keeps_itemReplace oit hit) fun _ => .pure _

/-- `_item_store` makes its test itself, so `L` is needed only of an item that passes. -/
theorem keeps_itemStore_set {it : Item} (hit : it.storable = true → L b it)
    (htype : type = .set ∨ type = .qaread) :
    Keeps (I b) c (itemStore it type leaseToken) := by
  intro s hs
  rw [wlp_itemStore_set htype]
  split
  · next hst => exact h.link hs (hit hst)
  · exact hs

/-- Storing the pending version of a key. -/
theorem keeps_itemStore_version {flags : Nat} {it : Item} (hkey : keys key) (hflags : F flags)
    (hmade : it.Made c A b (versionKey key) flags (-1)) (hplain : Plain it) :
    Keeps (I b) c (itemStore it .set) :=
  h.keeps_itemStore_set (fun hst => h.version hkey hflags hmade (hplain.data_ne_nil hst) hplain)
    (.inl rfl)

/-! ## Allocation -/

/-- What has been allocated has an address that is handed out from then on. -/
theorem bind_made {C : Type} {m : ServerM B} {k : B → ServerM C} {P : Nat → B → Prop}
    (hm : ∀ s, I b s → wlp m (fun a s' => ∃ b', b ≤ b' ∧ I b' s' ∧ P b' a) c s)
    (hk : ∀ b a, P b a → Keeps (I b) c (k a)) : Keeps (I b) c (m >>= k) := by
  intro s hs
  refine .bind ((hm s hs).mono fun a s₁ ⟨b', hle, hs₁, ha⟩ => ?_)
  exact (hk b' a ha s₁ hs₁).mono fun _ _ => h.less hle

/-- The state after an allocation. -/
theorem allocate (hs : I b s) : I (max b s.allocate.nextAddr) s.allocate :=
  h.grow (h.shrink hs (.allocate s))

omit h in
theorem addr_lt_allocate (hroom : s.room = true) : s.nextAddr < max b s.allocate.nextAddr := by
  refine lt_max_of_lt_right ?_
  rw [Server.allocate, hroom]
  exact Nat.lt_succ_self _

theorem made_itemAllocConfig (key : Bytes) (dataflags exptime nbyte : Nat) (configNum : Int) :
    ∀ s, I b s →
    wlp (itemAllocConfig key dataflags exptime nbyte configNum) (fun o s' =>
        ∃ b', b ≤ b' ∧ I b' s' ∧
      ∀ it, o = some it → Plain it ∧ ∀ it', it.Filled nbyte it' →
        it'.Made c A b' key dataflags configNum) c s := by
  refine fun s hs => wlp_itemAllocConfig.mpr fun hfits =>
    ⟨_, le_max_left _ _, h.allocate hs, fun it hit => ?_⟩
  split at hit
  · next hroom =>
    cases hit
    refine ⟨⟨rfl, rfl⟩, fun it' hit' => ⟨?_, ?_, hit'.key, hit'.dataflags, hit'.configNumber,
      hit'.nbyte.symm ▸ hfits⟩⟩
    · exact hit'.addr.symm ▸ h.fresh hs
    · exact hit'.addr.symm ▸ addr_lt_allocate hroom
  · cases hit

theorem made_itemCreateReservedItem (key data : Bytes) : ∀ s, I b s →
    wlp (itemCreateReservedItem key data) (fun o s' => ∃ b', b ≤ b' ∧ I b' s' ∧
      ∀ it, o = some it → it.Made c A b' key 0 (-1) ∧ it.data = data) c s := by
  refine fun s hs => wlp_itemCreateReservedItem.mpr fun hfits =>
    ⟨_, le_max_left _ _, h.allocate hs, fun it hit => ?_⟩
  split at hit
  · next hroom =>
    cases hit
    exact ⟨⟨h.fresh hs, addr_lt_allocate hroom, rfl, rfl, rfl, hfits⟩, rfl⟩
  · cases hit

theorem made_itemCreatePendingVersion (it : Item) (data : Bytes) : ∀ s, I b s →
    wlp (itemCreatePendingVersion it data) (fun o s' => ∃ b', b ≤ b' ∧ I b' s' ∧
        ∀ pvIt, o = some pvIt →
      pvIt.Made c A b' (versionKey it.key) it.dataflags (-1) ∧ Plain pvIt) c s := by
  refine fun s hs => wlp_itemCreatePendingVersion.mpr fun hfits =>
    ⟨_, le_max_left _ _, h.allocate hs, fun pvIt hit => ?_⟩
  split at hit
  · next hroom =>
    cases hit
    exact ⟨⟨h.fresh hs, addr_lt_allocate hroom, rfl, rfl, rfl, hfits⟩, rfl, rfl⟩
  · cases hit

theorem made_itemCreateLease (hkey : keys key) (kind : Lease) : ∀ s, I b s →
    wlp (itemCreateLease key kind) (fun r s' => ∃ b', b ≤ b' ∧ I b' s' ∧ ∀ it, r.1 = some it →
        L b' it) c s := by
  refine fun s hs => wlp_itemCreateLease.mpr fun hfits => ?_
  have hdraw : I b s.draw := h.shrink hs (.draw s)
  refine ⟨_, le_max_left _ _, h.allocate hdraw, fun it hit => ?_⟩
  split at hit
  · next hroom =>
    cases hit
    refine h.lease hkey ⟨h.fresh hs, addr_lt_allocate (s := s.draw) hroom, rfl, rfl, rfl, hfits⟩ ?_
    simp [Item.storable, Item.nbyte, decimal_ne_nil]
  · cases hit

/-! ## Storing values -/

theorem keeps_itemStoreIqset (oit : Option Item) {it : Item} (leaseToken : UInt64) (hit : L b it) :
    Keeps (I b) c (itemStoreIqset oit it leaseToken) := by
  refine .bind (h.keeps_itemGet _) fun l => ?_
  cases l with
  | none => exact .pure _
  | some l =>
    dsimp only
    split
    · exact .pure _
    split
    · exact .pure _
    refine .bind (h.keeps_itemUnlink l) fun _ => ?_
    split
    · exact .pure _
    refine .bind (h.keeps_itemGet _) fun pendingIt => ?_
    cases pendingIt with
    | none => exact h.keeps_itemStoreLink oit hit
    | some pendingIt =>
      exact .bind (h.keeps_itemUnlink pendingIt) fun _ =>
        h.keeps_itemStoreLink oit (h.marked hit it.marked)

theorem keeps_itemStoreConcat {oit : Item} {data : Bytes} {ralign : Bool}
    (hit : ∀ (b : Nat) (it : Item), it.Made c A b oit.key oit.dataflags (-1) → Plain it →
      it.data = data →
      oit.nbyte ≠ 0 → L b it) : Keeps (I b) c (itemStoreConcat oit data ralign) := by
  refine .bind (fun _ hs => wlp_itemSlabid.mpr hs) fun _ => ?_
  split
  · exact .pure _
  split
  · exact .pure _
  next hne =>
  refine h.bind_made (h.made_itemAllocConfig _ _ _ _ _) fun _ nit hnit => ?_
  cases nit with
  | none => exact .pure _
  | some nit =>
    obtain ⟨hplain, hmade⟩ := hnit nit rfl
    exact h.keeps_itemStoreLink _ (hit _ _ (hmade _ ⟨rfl, rfl, rfl, rfl, rfl⟩) hplain rfl hne)

/-- `_item_store`, when the item of the request may be linked and so may what `append` and `prepend`
make of it and the item that is there. -/
theorem keeps_itemStore {it : Item} (hs : I b s) (hit : it.storable = true → L b it)
    (hconcat : type = .append ∨ type = .prepend → ∀ (b : Nat) (oit nit : Item),
      s.live it.key = some oit →
      nit.Made c A b oit.key oit.dataflags (-1) → Plain nit → oit.nbyte ≠ 0 →
      nit.nbyte = oit.nbyte + it.nbyte →
        L b nit) : wlp (itemStore it type leaseToken) (fun _ => I b) c s := by
  rw [itemStore, it.not_storable]
  cases hst : it.storable with
  | false => exact .pure hs
  | true =>
    have hL := hit hst
    have hs₁ : I b (s.reap it.key) := h.shrink hs (.reap s it.key)
    simp only [Bool.not_true, Bool.false_eq_true, if_false, wlp_bind, wlp_itemGet]
    cases type with
    | iqset => exact h.keeps_itemStoreIqset _ leaseToken hL _ hs₁
    | add =>
      cases hoit : s.live it.key with
      | none => exact h.keeps_itemStoreLink none hL _ hs₁
      | some oit =>
        dsimp only
        split
        · exact h.keeps_itemStoreLink _ hL _ hs₁
        · have hlive : (s.reap it.key).live oit.key = some oit := by
            rw [live_reap, key_of_live hoit, hoit]
          exact .bind ((h.keeps_itemTouch hs₁ hlive).mono fun _ _ hs₂ => .pure hs₂)
    | replace =>
      cases s.live it.key with
      | none => exact .pure hs₁
      | some oit =>
        dsimp only
        split
        · exact .pure hs₁
        · exact h.keeps_itemStoreLink _ hL _ hs₁
    | append =>
      cases hoit : s.live it.key with
      | none => exact .pure hs₁
      | some oit =>
        refine h.keeps_itemStoreConcat (fun b nit hmade hplain hdata hne => ?_) _ hs₁
        exact hconcat (.inl rfl) b oit nit hoit hmade hplain hne (by simp [Item.nbyte, hdata])
    | prepend =>
      cases hoit : s.live it.key with
      | none => exact .pure hs₁
      | some oit =>
        refine h.keeps_itemStoreConcat (fun b nit hmade hplain hdata hne => ?_) _ hs₁
        exact hconcat (.inr rfl) b oit nit hoit hmade hplain hne
          (by simp [Item.nbyte, hdata, Nat.add_comm])
    | cas =>
      cases s.live it.key with
      | none => exact .pure hs₁
      | some oit =>
        dsimp only
        split
        · exact .pure hs₁
        · exact h.keeps_itemStoreLink _ hL _ hs₁
    | iqget =>
      cases s.live it.key with
      | none => exact h.keeps_itemStoreLink none hL _ hs₁
      | some oit => exact .pure hs₁
    | set | delete | qareg | qaread => exact h.keeps_itemStoreLink _ hL _ hs₁

/-- `_item_add_delta`, when the item may be incremented in place and replaced. -/
theorem keeps_itemAddDelta {incr : Bool} {delta : UInt64} (hs : I b s)
    (hplace : ∀ (it : Item) (buf : Bytes), it.key = key → s.live key = some it → buf ≠ [] →
      buf.length ≤ it.nbyte → I b ((s.reap key).place c it buf))
    (hnew : ∀ (b : Nat) (it newIt : Item) (value : UInt64), s.live key = some it →
      mcStrtoullLen it.data = some value →
      newIt.Made c A b it.key it.dataflags (-1) → Plain newIt →
      newIt.data = decimal (addDelta incr value delta) →
        it.nbyte < newIt.nbyte → L b newIt) : wlp (itemAddDelta key incr delta) (fun _ =>
        I b) c s := by
  have hs₁ : I b (s.reap key) := h.shrink hs (.reap s key)
  rw [itemAddDelta, wlp_bind, wlp_itemGet]
  cases hit : s.live key with
  | none => exact .pure hs₁
  | some it =>
    dsimp only
    split
    · exact .pure hs₁
    next value hvalue =>
    split
    · next hgrows =>
      refine .bind ((h.made_itemAllocConfig _ _ _ _ _ _ hs₁).mono ?_)
      rintro o s₂ ⟨b', hle, hs₂, hmade⟩
      cases o with
      | none => exact .pure (h.less hle hs₂)
      | some newIt =>
        obtain ⟨hplain, hmade⟩ := hmade newIt rfl
        refine (Keeps.bind (h.keeps_itemReplace it ?_) (fun _ => .pure _) _ hs₂).mono fun _ _ =>
          h.less hle
        exact hnew b' it _ value hit hvalue (hmade _ ⟨rfl, rfl, rfl, rfl, rfl⟩) hplain rfl hgrows
    · next hle =>
      simp only [wlp_bind, wlp_itemNextCas, wlp_itemWrite, wlp_pure]
      exact hplace it _ (key_of_live hit) hit (decimal_ne_nil _) (Nat.le_of_not_lt hle)

/-- Increments of pending versions. -/
theorem keeps_itemAddDelta_version (hkey : keys key) (incr : Bool) (delta : UInt64) :
    Keeps (I b) c (itemAddDelta (versionKey key) incr delta) := by
  refine fun s hs => h.keeps_itemAddDelta hs ?_ ?_
  · intro it buf hk hit hbuf hle
    have hfind : (s.reap (versionKey key)).find it.key = some it := by
      rw [hk, find_reap_self, hit]
    exact h.place (h.shrink hs (.reap s _)) hkey hk hfind hbuf hle
  · intro b it newIt value hit _ hmade hplain hdata _
    have hK : K it := h.found hs (live_eq_some.mp hit).1
    rw [key_of_live hit] at hmade
    exact h.version hkey (h.flags hK) hmade (hdata ▸ decimal_ne_nil _) hplain

/-! ## Lists -/

theorem keeps_itemAddEntry {it : Option Item} {lease : Lease} {co : CoFlag}
    (hL : ∀ (b : Nat) (newIt : Item), newIt.Made c A b name 0 (-1) → newIt.lease = lease →
      Extended it entry newIt.data → L b newIt) :
    Keeps (I b) c (itemAddEntry it name entry lease co) := by
  refine fun s hs => wlp_itemAddEntry (fun _ _ _ => hs) fun data hdata hfits hroom => ?_
  have hL' := hL _ (s.freshReserved c name data lease co)
    ⟨h.fresh hs, addr_lt_allocate (b := b) hroom, rfl, rfl, rfl, hfits⟩
  exact h.less (le_max_left _ _) (h.link (h.allocate hs) (hL' rfl hdata))

theorem keeps_itemAssocKeyTid (htid : ids tid) (hkey : keys key)
    (hold : ∀ o, transIt = some o → K o ∧ o.key = tid) :
    Keeps (I b) c (itemAssocKeyTid transIt key tid) :=
  h.keeps_itemAddEntry fun _ _ hmade _ hext => h.list htid hkey hold hmade hext

theorem keeps_itemAssocKeySid {sessIt : Option Item} (hsid : ids sid) (hkey : keys key)
    (hold : ∀ o, sessIt = some o → K o ∧ o.key = sid) :
    Keeps (I b) c (itemAssocKeySid sessIt key sid) :=
  h.keeps_itemAddEntry fun _ _ hmade _ hext => h.list hsid hkey hold hmade hext

theorem keeps_itemAssocSidColease {type : CoFlag} (hsid : ids sid) (hkey : keys key)
    (hold : ∀ o, coleaseIt = some o → K o ∧ o.key = coLeaseKey key) :
    Keeps (I b) c (itemAssocSidColease coleaseIt key sid type) :=
  h.keeps_itemAddEntry fun _ _ hmade _ hext => h.share hkey hsid hold hmade hext

/-- A session lease is made. -/
theorem keeps_newColease {type : CoFlag} (hsid : ids sid) (hkey : keys key) :
    Keeps (I b) c (itemAssocSidColease none key sid type) := by
  refine h.keeps_itemAssocSidColease hsid hkey ?_
  rintro o ⟨⟩

theorem keeps_itemAssocTidLease (leaseIt : Option Item) (tid : Bytes) (hkey : keys key) :
    Keeps (I b) c (itemAssocTidLease leaseIt key tid) :=
  h.keeps_itemAddEntry fun _ _ hmade hlease _ =>
    h.lease hkey hmade (Item.storable_of_lease (hlease ▸ nofun))

theorem keeps_itemRemoveEntryFromList {it : Item}
    (hL : ∀ (b : Nat) (newIt : Item), newIt.Made c A b name 0 (-1) → it.Has entry →
      trigKeylistRmvkey it.data (u8Name entry) = some newIt.data → newIt.storable = true →
      L b newIt) :
    Keeps (I b) c (itemRemoveEntryFromList (some it) name entry) := by
  refine .whenSome fun it' hit => ?_
  cases hit
  refine .deref_bind fun present hpresent => .when fun htrue => ?_
  subst htrue
  split
  · exact h.keeps_itemUnlink it
  refine .deref_bind fun data hdata =>
    h.bind_made (h.made_itemCreateReservedItem name data) fun _ o ho => ?_
  refine .deref_bind fun newIt hnew => .bind (h.keeps_itemStore_set ?_ (.inl rfl)) fun _ => .pure _
  obtain ⟨⟨haddr, hlt, hkey, hflags, hconfig, hfits⟩, rfl⟩ := ho newIt hnew
  exact hL _ _ ⟨haddr, hlt, hkey, hflags, hconfig, hfits⟩ hpresent hdata

theorem keeps_itemRemoveTidLease (it : Item) (tid : Bytes) (hkey : keys key) :
    Keeps (I b) c (itemRemoveTidLease (some it) key tid) :=
  h.keeps_itemRemoveEntryFromList fun _ _ hmade _ _ hst => h.lease hkey hmade hst

theorem keeps_itemRemoveSidColease {it : Item} (sid : Bytes) (hkey : keys key) (hK : K it)
    (hname : it.key = coLeaseKey key) : Keeps (I b) c (itemRemoveSidColease (some it) key sid) :=
  h.keeps_itemRemoveEntryFromList fun _ _ hmade hhas hrmv hst =>
    h.unshare hkey hK hname hhas hmade hrmv hst

end Primitive

/-- A pending version of a key that has just been allocated. -/
structure Copied (F : Nat → Prop) (L : Item → Prop) (key : Bytes) (pvIt : Item) : Prop where
  flags : F pvIt.dataflags
  key : pvIt.key = u8Name (versionKey key)
  plain : Plain pvIt
  link : pvIt.data ≠ [] → L pvIt

/-- A value made of a pending version may be linked. -/
def Applies (c : Settings) (keys : Bytes → Prop) (A : Nat → Prop) (K : Item → Prop)
    (L : Nat → Item → Prop) (configNum : Int) : Prop :=
  ∀ (b : Nat) (key : Bytes) (pvIt newIt : Item), keys key → K pvIt → pvIt.key = versionKey key →
    newIt.Made c A b key pvIt.dataflags configNum → Plain newIt → newIt.data = pvIt.data →
    newIt.data ≠ [] → L b newIt

/-! ## Transactions -/

section Transactions

variable (h : Stable c keys ids F A K L I)

include h

theorem keeps_itemGetAndUnlease (key : Bytes) (tokenVal : UInt64) :
    Keeps (I b) c (itemGetAndUnlease key tokenVal) :=
  .bind (h.keeps_itemGet _) fun _ => .whenSome fun l _ => .when fun _ => h.keeps_itemUnlink l

theorem keeps_itemGetAndDelete (key : Bytes) (deleteLease : Bool) :
    Keeps (I b) c (itemGetAndDelete key deleteLease) := by
  refine .bind (.when fun _ => ?_) fun _ => .bind (h.keeps_itemGet key) fun it => ?_
  · refine .bind (h.keeps_itemGet _) fun l => .bind (h.keeps_unlinkSome l) fun _ => ?_
    refine .bind (h.keeps_itemGet _) fun pv => .bind (h.keeps_unlinkSome pv) fun _ => ?_
    exact h.keeps_drop _
  · cases it with
    | none => exact .pure _
    | some it => exact .bind (h.keeps_itemUnlink it) fun _ => .pure _

theorem keeps_itemVoidILease (leaseIt : Option Item) : Keeps (I b) c (itemVoidILease leaseIt) := by
  cases leaseIt with
  | none => exact .pure _
  | some l =>
    rw [itemVoidILease]
    split
    · exact .bind (h.keeps_itemUnlink l) fun _ => .pure _
    · exact .pure _

theorem keeps_itemQuarantineAndRegister (htid : ids tid) (hkey : keys key) :
    Keeps (I b) c (itemQuarantineAndRegister tid key) := by
  refine .bind_of (h.found_itemGet tid) fun transIt htrans => .bind (h.keeps_itemGet _) fun l => ?_
  refine .bind (h.keeps_itemVoidILease l) fun l =>
    .bind (h.keeps_itemAssocTidLease l tid hkey) fun _ => ?_
  refine .bind (h.keeps_itemAssocKeyTid htid hkey htrans) fun _ =>
    .bind (h.keeps_itemGet key) fun it => ?_
  refine .bind (h.keeps_itemGet _) fun l => .whenSome fun it _ => .whenSome fun l _ => ?_
  exact h.keeps_itemWrite it fun it => it.marked

theorem keeps_itemDropLease (tid : Bytes) (l : Item) (hkey : keys key) :
    Keeps (I b) c (itemDropLease tid key l) := by
  rw [itemDropLease]
  split
  · exact h.keeps_itemRemoveTidLease l tid hkey
  · exact h.keeps_itemUnlink l

/-- A pending version becomes the value of its key. -/
theorem keeps_itemStore_applied {newIt : Item} {configNum : Int}
    (hvalue : Applies c keys A K L configNum) (hkey : keys key) (hK : K pvIt)
    (hname : pvIt.key = versionKey key) (hmade : newIt.Made c A b key pvIt.dataflags configNum)
    (hplain : Plain newIt) (hdata : newIt.data = pvIt.data) :
    Keeps (I b) c (itemStore newIt .set) :=
  h.keeps_itemStore_set (fun hst => hvalue b key pvIt newIt hkey hK hname hmade hplain hdata
    (hplain.data_ne_nil hst))
    (.inl rfl)

/-- An operation that ends a transaction keeps what every pass of its loop keeps. -/
theorem keeps_finish (htid : ids tid) {pass : Item → Bytes → ServerM Unit} {none' done : B}
    (hpass : ∀ transIt key, keys key → Keeps (I b) c (pass transIt key)) :
    Keeps (I b) c (finish tid none' done pass) := by
  refine .bind_of (h.found_itemGet tid) fun transIt htrans => ?_
  cases transIt with
  | none => exact .pure _
  | some transIt =>
    obtain ⟨hK, hname⟩ := htrans transIt rfl
    refine .deref_bind fun ks hks => .bind (.forEach fun key hmem => ?_) fun _ => ?_
    · exact hpass transIt key (h.listed hK (hname ▸ htid) hks key hmem)
    · exact .bind (h.keeps_itemUnlink transIt) fun _ => .pure _

theorem keeps_itemDeleteAndRelease (htid : ids tid) : Keeps (I b) c (itemDeleteAndRelease tid) := by
  refine h.keeps_finish htid fun _ key hkey => ?_
  refine .bind (h.keeps_itemGet key) fun it => .bind (h.keeps_unlinkSome it) fun _ => ?_
  exact .bind (h.keeps_itemGet _) fun _ => .whenSome fun l _ => h.keeps_itemDropLease tid l hkey

theorem keeps_itemCommitPending (hkey : keys key) (it : Option Item) (pending cfgId : Int) :
    Keeps (I b) c (itemCommitPending key it pending cfgId) := by
  refine .bind (h.keeps_itemGet _) fun pendingIt => ?_
  cases it with
  | some it => exact h.keeps_unlinkSome pendingIt
  | none =>
    cases pendingIt with
    | some m => exact .when fun _ => h.keeps_itemUnlink m
    | none =>
      refine .when fun _ => h.bind_made (h.made_itemAllocConfig _ _ _ _ _) fun _ o ho =>
        .deref_bind fun m hm => ?_
      obtain ⟨hplain, hmade⟩ := ho m hm
      refine .bind (h.keeps_itemStore_set (fun _ => ?_) (.inl rfl)) fun _ => .pure _
      exact h.marker hkey (hmade _ ⟨rfl, rfl, rfl, rfl, rfl⟩) (cons_ne_nil _ _) hplain

/-- `item_commit`, when a value made of a pending version may be linked. -/
theorem keeps_itemCommit (htid : ids tid) (pending : Int) {cfgId : Int}
    (hvalue : Applies c keys A K L cfgId) :
    Keeps (I b) c (itemCommit tid pending cfgId) := by
  refine h.keeps_finish htid fun _ key hkey => ?_
  refine .bind (h.keeps_itemGet _) fun l => .bind_of (h.found_itemGet _) fun pv hpv => ?_
  refine .whenSome fun l _ => .when fun _ => .bind (h.keeps_itemDropLease tid l hkey) fun _ => ?_
  refine .bind (.whenSome fun pvIt hsome => ?_) fun _ => ?_
  · obtain ⟨hK, hname⟩ := hpv pvIt hsome
    refine h.bind_made (h.made_itemAllocConfig _ _ _ _ _) fun _ o ho =>
      .deref_bind fun newIt hnew => ?_
    obtain ⟨hplain, hmade⟩ := ho newIt hnew
    exact .bind (h.keeps_itemStore_applied hvalue hkey hK hname (hmade _ ⟨rfl, rfl, rfl, rfl, rfl⟩)
      hplain rfl) fun _ => .pure _
  · refine .bind (h.keeps_itemGet key) fun it => .bind (.whenSome fun it _ => .when fun _ =>
      h.keeps_itemUnlink it) fun _ => ?_
    exact .bind (h.keeps_itemCommitPending hkey it pending cfgId) fun _ => h.keeps_unlinkSome pv

theorem keeps_itemRelease (htid : ids tid) : Keeps (I b) c (itemRelease tid) := by
  refine h.keeps_finish htid fun transIt key hkey => ?_
  refine .bind (h.keeps_itemGet _) fun l => .bind (h.keeps_itemGet _) fun pv => ?_
  refine .whenSome fun l _ => .when fun _ => ?_
  refine .bind (.when fun _ => h.keeps_itemRemoveTidLease transIt tid hkey) fun _ => ?_
  exact .bind (h.keeps_itemUnlink l) fun _ => h.keeps_unlinkSome pv

theorem copied_itemCreatePendingVersion {it : Item} (data : Bytes) (hkey : keys key)
    (hflags : F it.dataflags) (hname : it.key = key) :
    ∀ s, I b s → wlp (itemCreatePendingVersion it data) (fun o s' => ∃ b', b ≤ b' ∧ I b' s' ∧
      ∀ pvIt, o = some pvIt → Copied F (L b') key pvIt) c s := by
  refine fun s hs => (h.made_itemCreatePendingVersion it data s hs).mono fun o s' ⟨b', hle, hs',
    hmade⟩ => ?_
  refine ⟨b', hle, hs', fun pvIt hpv => ?_⟩
  obtain ⟨hmade, hplain⟩ := hmade pvIt hpv
  rw [hname] at hmade
  exact ⟨hmade.dataflags ▸ hflags, hmade.key, hplain,
    fun hne => h.version hkey hflags hmade hne hplain⟩

/-- The copy is stored, with whatever has been written to it. -/
theorem keeps_itemStore_copied {it : Item} (hpv : Copied F (L b) key pvIt) (hm : pvIt.Marked it) :
    Keeps (I b) c (itemStore it .set) := by
  refine h.keeps_itemStore_set (fun hst => h.marked (hpv.link ?_) hm) (.inl rfl)
  rw [← hm.data]
  exact Plain.data_ne_nil ⟨hm.lease.trans hpv.plain.1, hm.co.trans hpv.plain.2⟩ hst

theorem keeps_itemQareadGrant (htid : ids tid) (hkey : keys key)
    (htrans : ∀ o, transIt = some o → K o ∧ o.key = tid) :
    Keeps (I b) c (itemQareadGrant tid key transIt) := by
  refine h.bind_made (h.made_itemCreateLease hkey .qRef) fun _ r hr => .deref_bind fun l hl => ?_
  refine .bind (h.keeps_itemStore_set (fun _ => hr l hl) (.inr rfl)) fun _ => ?_
  refine .bind_of (h.found_itemGet key) fun it hit => ?_
  cases it with
  | none =>
    refine .bind (h.keeps_itemGet _) fun _ =>
      .bind (h.keeps_itemAssocKeyTid htid hkey htrans) fun _ => ?_
    exact .pure _
  | some it =>
    obtain ⟨hK, hname⟩ := hit it rfl
    refine h.bind_made (h.copied_itemCreatePendingVersion _ hkey (h.flags hK) hname) fun _ o ho =>
      ?_
    refine .deref_bind fun pv hpv =>
      .bind (h.keeps_itemStore_copied (ho pv hpv) pv.marked) fun _ => ?_
    exact .bind (h.keeps_itemAssocKeyTid htid hkey htrans) fun _ => .pure _

theorem keeps_itemQuarantineAndRead (leaseToken : UInt64) (htid : ids tid) (hkey : keys key) :
    Keeps (I b) c (itemQuarantineAndRead tid key leaseToken) := by
  refine .bind_of (h.found_itemGet tid) fun transIt htrans => .bind (h.keeps_itemGet _) fun l => ?_
  cases l with
  | none => exact h.keeps_itemQareadGrant htid hkey htrans
  | some l =>
    dsimp only
    split
    · split
      · refine .bind (h.keeps_itemGet _) fun pv => ?_
        cases pv with
        | some pv => exact .pure _
        | none => exact .bind (h.keeps_itemGet _) fun _ => .pure _
      · exact .pure _
    · exact h.keeps_itemQareadGrant htid hkey htrans

/-- `item_swap_and_release`, when the item of the request may be linked under a lease with its
token. -/
theorem keeps_itemSwapAndRelease {it : Item} (hs : I b s)
    (hit : ∀ l, s.live (leaseKey it.key) = some l → l.leaseValue = leaseToken →
      it.nbyte ≠ 0 → L b it) :
    wlp (itemSwapAndRelease it leaseToken) (fun _ => I b) c s := by
  have hs₁ : I b (s.reap (leaseKey it.key)) := h.shrink hs (.reap s _)
  rw [itemSwapAndRelease, wlp_bind, itemGetLease, wlp_itemGet]
  cases hl : s.live (leaseKey it.key) with
  | none => exact .pure hs₁
  | some l =>
    dsimp only
    split
    · exact .pure hs₁
    next htoken =>
    refine .bind ((h.keeps_itemUnlink l _ hs₁).mono fun _ s₂ hs₂ => ?_)
    split
    · exact .pure hs₂
    next hne =>
    have hL : L b it := hit l hl (not_not.mp htoken) hne
    refine .bind ((h.keeps_itemGet _ _ hs₂).mono fun oit s₃ hs₃ => ?_)
    cases oit with
    | none =>
      exact Keeps.bind (h.keeps_itemStore_set (fun _ => hL) (.inl rfl)) (fun _ => .pure _) _ hs₃
    | some oit => exact Keeps.bind (h.keeps_itemReplace oit hL) (fun _ => .pure _) _ hs₃

theorem keeps_itemSwap {it : Item} (leaseToken : UInt64) (hkey : keys it.key)
    (hflags : F it.dataflags) :
    Keeps (I b) c (itemSwap it leaseToken) := by
  refine .bind (h.keeps_itemGet _) fun l => ?_
  cases l with
  | none => exact .pure _
  | some l =>
    dsimp only
    split
    · exact .pure _
    split
    · exact .pure _
    refine .bind ?_ fun pending =>
      h.bind_made (h.copied_itemCreatePendingVersion _ hkey hflags rfl) fun _ o ho =>
      .deref_bind fun pv hpv => .bind (h.keeps_itemStore_copied (ho pv hpv) pv.marked) fun _ =>
        .pure _
    refine .bind (h.keeps_itemGet _) fun pv => ?_
    cases pv with
    | some pv => exact .bind (h.keeps_itemUnlink pv) fun _ => .pure _
    | none =>
      refine .bind (h.keeps_itemGet _) fun m => ?_
      cases m with
      | some m => exact .bind (h.keeps_itemUnlink m) fun _ => .pure _
      | none => exact .pure _

theorem keeps_itemIqgetGrant (pending : UInt8) (it : Option Item) (hkey : keys key) :
    Keeps (I b) c (itemIqgetGrant key pending it) := by
  refine h.bind_made (h.made_itemCreateLease hkey .i) fun _ (l, token) hl => ?_
  cases l with
  | none => exact .pure _
  | some l =>
    refine .bind (h.keeps_unlinkSome it) fun _ => ?_
    exact .bind (h.keeps_itemStore_set (fun _ => h.marked (hl l rfl) l.marked) (.inl rfl)) fun _ =>
      .pure _

theorem keeps_itemIqgetHeld (l : Item) (pending : UInt8) (leaseToken : UInt64) :
    Keeps (I b) c (itemIqgetHeld l pending leaseToken) := by
  refine .bind (h.keeps_itemWrite l fun it => it.marked) fun _ => ?_
  dsimp only
  split
  · exact .pure _
  · exact .pure _

theorem keeps_itemIqgetOwn (key : Bytes) : Keeps (I b) c (itemIqgetOwn key) := by
  refine .bind (h.keeps_itemGet _) fun l => ?_
  cases l with
  | none => exact .pure _
  | some l =>
    dsimp only
    split
    · exact .pure _
    split
    · refine .bind (h.keeps_itemGet _) fun pv => ?_
      cases pv <;> exact .pure _
    · exact .pure _

theorem keeps_itemIqgetValue {it : Item} (leaseToken : UInt64) (override : Bool) (hkey : keys key)
    (hs : I b s) (hit : s.live key = some it) :
    wlp (itemIqgetValue key it leaseToken override) (fun _ => I b) c s := by
  have hs₁ : I b (s.reap (leaseKey key)) := h.shrink hs (.reap s _)
  rw [itemIqgetValue, wlp_bind, itemGetLease, wlp_itemGet]
  split
  · exact .pure hs₁
  split
  · cases s.live (leaseKey key) with
    | none => exact h.keeps_itemIqgetGrant _ _ hkey _ hs₁
    | some l => exact h.keeps_itemIqgetHeld _ _ _ _ hs₁
  · have hlive : (s.reap (leaseKey key)).live it.key = some it := by
      rw [live_reap, key_of_live hit, hit]
    exact .bind ((h.keeps_itemTouch hs₁ hlive).mono fun _ _ hs₂ => .pure hs₂)

theorem keeps_itemIqget (leaseToken : UInt64) (tid : Bytes) (override : Bool) (hkey : keys key) :
    Keeps (I b) c (itemIqget key leaseToken tid override) := by
  refine .bind ?_ fun transIt s hs => ?_
  · rw [itemIqgetTrans]
    split
    · exact .pure _
    · exact h.keeps_itemGet tid
  have hs₁ : I b (s.reap key) := h.shrink hs (.reap s key)
  rw [wlp_bind, wlp_itemGet]
  cases hit : s.live key with
  | some it =>
    -- nothing is touched before the value is looked at
    have hown : Keeps (fun s' => I b s' ∧ s'.live key = some it) c (itemCheckEntry transIt key) :=
      keeps_itemCheckEntry (I := fun _ s' => I b s' ∧ s'.live key = some it) (b := b) transIt key
    rw [wlp_bind, itemIqgetPending, wlp_pure, wlp_bind]
    refine (hown _ ⟨hs₁, by rw [live_reap, hit]⟩).mono ?_
    rintro own s₂ ⟨hs₂, hit₂⟩
    split
    · exact h.keeps_itemIqgetOwn key _ hs₂
    · exact h.keeps_itemIqgetValue leaseToken override hkey hs₂ hit₂
  | none =>
    refine Keeps.bind (.bind (h.keeps_itemGet _) fun _ => .pure _) (fun pending =>
      .bind (keeps_itemCheckEntry transIt key) fun own => ?_) _ hs₁
    split
    · exact h.keeps_itemIqgetOwn key
    refine .bind (h.keeps_itemGet _) fun l => ?_
    cases l with
    | none => exact h.keeps_itemIqgetGrant _ _ hkey
    | some l => exact h.keeps_itemIqgetHeld _ _ _

/-! ### Incremental updates -/

/-- Writing the pending version of a key anew. -/
theorem keeps_rewriteVersion {it nit : Item} (hkey : keys key) (hflags : F it.dataflags)
    (hname : it.key = u8Name (versionKey key)) (hmade : nit.Made c A b it.key it.dataflags (-1))
    (hplain : Plain nit) :
    Keeps (I b) c (itemStore nit .set) := by
  refine h.keeps_itemStore_version hkey hflags ⟨hmade.addr, hmade.addr_lt, ?_, hmade.dataflags,
    hmade.configNumber, ?_⟩ hplain
  · rw [hmade.key, u8Name_of_lt it.key_lt, hname]
  · rw [← c.fits_u8Name, ← hname]
    exact hmade.fits

theorem keeps_itemAppendPrependIq {it : Item} (append : Bool) (data : Bytes) (hkey : keys key)
    (hflags : F it.dataflags) (hname : it.key = u8Name (versionKey key)) :
    Keeps (I b) c (itemAppendPrependIq append data key it) := by
  refine h.bind_made (h.made_itemAllocConfig _ _ _ _ _) fun _ o ho => .deref_bind fun nit hnit => ?_
  obtain ⟨hplain, hmade⟩ := ho nit hnit
  exact .bind (h.keeps_rewriteVersion hkey hflags hname (hmade _ ⟨rfl, rfl, rfl, rfl, rfl⟩) hplain)
    fun _ => .pure _

theorem keeps_itemAddDeltaIq (it : Item) (incr : Bool) (delta : UInt64) (hkey : keys key) :
    Keeps (I b) c (itemAddDeltaIq incr delta key it) := by
  refine .bind (h.keeps_itemAddDelta_version hkey incr delta) fun r => ?_
  cases r <;> exact .pure _

variable {update : PvUpdate}

theorem keeps_itemIqDeltaGrant (hkey : keys key) (htid : ids tid)
    (hu : ∀ b pvIt, F pvIt.dataflags → pvIt.key = u8Name (versionKey key) →
      Keeps (I b) c (update key pvIt)) {it : Option Item}
    (hit : ∀ o, it = some o → K o ∧ o.key = key)
    (htrans : ∀ o, transIt = some o → K o ∧ o.key = tid) :
    Keeps (I b) c (itemIqDeltaGrant update key tid it transIt) := by
  refine h.bind_made (h.made_itemCreateLease hkey .qInc) fun _ r hr => .deref_bind fun l hl => ?_
  refine .bind (h.keeps_itemStore_set (fun _ => hr l hl) (.inl rfl)) fun _ => ?_
  refine .bind (h.keeps_itemAssocKeyTid htid hkey htrans) fun _ => ?_
  cases it with
  | none => exact .bind (h.keeps_itemGet _) fun _ => .pure _
  | some it =>
    obtain ⟨hK, hname⟩ := hit it rfl
    refine h.bind_made (h.copied_itemCreatePendingVersion _ hkey (h.flags hK) hname) fun _ o ho =>
      ?_
    refine .deref_bind fun pv hpv =>
      .bind (h.keeps_itemStore_copied (ho pv hpv) pv.marked) fun _ => ?_
    exact .bind (hu _ _ (ho pv hpv).flags (ho pv hpv).key) fun _ => .pure _

theorem keeps_itemIqDeltaOwn (l : Item) (transIt : Option Item)
    (hu : ∀ b pvIt, F pvIt.dataflags → pvIt.key = u8Name (versionKey key) →
      Keeps (I b) c (update key pvIt)) :
    Keeps (I b) c (itemIqDeltaOwn update key l transIt) := by
  refine .bind (keeps_itemCheckEntry transIt key) fun own => ?_
  split
  · exact .pure _
  refine .bind_of (h.found_itemGet _) fun pv hpv => ?_
  cases pv with
  | none => exact .bind (h.keeps_itemGet _) fun _ => .pure _
  | some pv =>
    obtain ⟨hK, hname⟩ := hpv pv rfl
    have hcut : pv.key = u8Name (versionKey key) := by rw [← hname, u8Name_of_lt pv.key_lt]
    exact .bind (hu _ pv (h.flags hK) hcut) fun _ => .pure _

theorem keeps_itemIqDelta {grant : (it transIt : Option Item) → ServerM IqDeltaResult}
    {own : (leaseIt : Item) → (transIt : Option Item) → ServerM IqDeltaResult}
    (hgrant : ∀ it transIt, (∀ o, it = some o → K o ∧ o.key = key) →
      (∀ o, transIt = some o → K o ∧ o.key = tid) → Keeps (I b) c (grant it transIt))
    (hown : ∀ l transIt, Keeps (I b) c (own l transIt)) :
    Keeps (I b) c (itemIqDelta key tid grant own) := by
  refine .bind_of (h.found_itemGet key) fun it hit =>
    .bind_of (h.found_itemGet tid) fun transIt htrans => ?_
  refine .bind (h.keeps_itemGet _) fun l => .bind (h.keeps_itemVoidILease l) fun l => ?_
  cases l with
  | none => exact hgrant it transIt hit htrans
  | some l => exact hown l transIt

theorem keeps_itemIqappendIqprepend (append : Bool) (data : Bytes) (hkey : keys key)
    (htid : ids tid) :
    Keeps (I b) c (itemIqappendIqprepend append key data tid) :=
  h.keeps_itemIqDelta
    (fun _ _ hit htrans => h.keeps_itemIqDeltaGrant hkey htid
      (fun _ _ => h.keeps_itemAppendPrependIq append data hkey) hit htrans)
    fun l transIt => h.keeps_itemIqDeltaOwn l transIt fun _ _ =>
      h.keeps_itemAppendPrependIq append data hkey

theorem keeps_itemIqincrIqdecr (incr : Bool) (delta : UInt64) (hkey : keys key) (htid : ids tid) :
    Keeps (I b) c (itemIqincrIqdecr incr key delta tid) := by
  refine h.keeps_itemIqDelta (fun _ _ hit htrans => h.keeps_itemIqDeltaGrant hkey htid
    (fun _ pv _ _ => h.keeps_itemAddDeltaIq pv incr delta hkey) hit htrans) fun l transIt => ?_
  split
  · exact h.keeps_itemIqDeltaOwn l transIt fun _ pv _ _ => h.keeps_itemAddDeltaIq pv incr delta hkey
  · exact .pure _

end Transactions

/-! ## Sessions -/

section Sessions

variable (h : Stable c keys ids F A K L I)

include h

theorem keeps_itemSessAborted (sid : Bytes) : Keeps (I b) c (itemSessAborted sid) := by
  refine .bind (h.keeps_itemGet sid) fun sessIt => ?_
  cases sessIt with
  | none => exact .pure _
  | some sessIt =>
    dsimp only
    split
    · exact .bind (h.keeps_itemUnlink sessIt) fun _ => .pure _
    · exact .pure _

theorem keeps_abortSessionsKey (coleaseIt : Item) (psid : Bytes) (hkey : keys key) :
    Keeps (I b) c (abortSessionsKey coleaseIt psid key) := by
  refine .bind_of (h.found_itemGet _) fun tcoleaseIt ht => .whenSome fun tcoleaseIt hsome =>
    .when fun _ => ?_
  obtain ⟨hK, hname⟩ := ht tcoleaseIt hsome
  refine .bind (keeps_itemCheckEntry _ _) fun _ => .bind (.when fun _ => ?_) fun _ => h.keeps_drop _
  exact h.keeps_itemRemoveSidColease psid hkey hK hname

theorem keeps_abortSessions {coleaseIt : Item} (sid : Bytes) (hkey : keys key) (hK : K coleaseIt)
    (hname : coleaseIt.key = coLeaseKey key) : Keeps (I b) c (abortSessions coleaseIt sid) := by
  refine .deref_bind fun psids hpsids => .forEach fun p hp => ?_
  have hpsid : ids p.1 := h.shared hK hkey hname hpsids p.1 (of_mem_zip hp).1
  refine .bind_of (h.found_itemGet p.1) fun psessIt hsess => .whenSome fun psessIt hsome => ?_
  obtain ⟨hKs, hnames⟩ := hsess psessIt hsome
  refine .bind (.deref _) fun _ =>
    .when fun _ => .bind (h.keeps_itemWrite psessIt fun it => it.marked) fun _ => ?_
  refine .deref_bind fun ks hks => .forEach fun key' hmem => ?_
  exact h.keeps_abortSessionsKey coleaseIt p.1 (h.listed hKs (hnames ▸ hpsid) hks key' hmem)

theorem keeps_cleanSessionKey (sid : Bytes) (hkey : keys key) :
    Keeps (I b) c (cleanSessionKey sid key) := by
  refine .bind (h.keeps_itemGet _) fun l => .bind (h.keeps_unlinkSome l) fun _ => ?_
  refine .bind_of (h.found_itemGet _) fun colease hco =>
    .bind (.whenSome fun colease hsome => ?_) fun _ =>
    h.keeps_drop _
  exact h.keeps_itemRemoveSidColease sid hkey (hco colease hsome).1 (hco colease hsome).2

theorem keeps_cleanSessionKeys {sessIt : Item} (hsid : ids sid) (hK : K sessIt)
    (hname : sessIt.key = sid) :
    Keeps (I b) c (cleanSessionKeys sid sessIt) := by
  refine .deref_bind fun ks hks => .bind (.forEach fun key hmem => ?_) fun _ =>
    h.keeps_itemUnlink sessIt
  exact h.keeps_cleanSessionKey sid (h.listed hK (hname ▸ hsid) hks key hmem)

theorem keeps_cleanSession (hsid : ids sid) : Keeps (I b) c (cleanSession sid) := by
  refine .bind_of (h.found_itemGet sid) fun sessIt hsess => .whenSome fun sessIt hsome => ?_
  split
  · exact h.keeps_itemUnlink sessIt
  · exact h.keeps_cleanSessionKeys hsid (hsess sessIt hsome).1 (hsess sessIt hsome).2

theorem keeps_itemCoUnlease (hsid : ids sid) : Keeps (I b) c (itemCoUnlease sid) := by
  refine .bind_of (h.found_itemGet sid) fun sessIt hsess => ?_
  cases sessIt with
  | none => exact .pure _
  | some sessIt =>
    obtain ⟨hK, hname⟩ := hsess sessIt rfl
    dsimp only
    split
    · exact .bind (h.keeps_itemUnlink sessIt) fun _ => .pure _
    · exact .bind (h.keeps_cleanSessionKeys hsid hK hname) fun _ => .pure _

theorem keeps_itemCigetShare (hsid : ids sid) (hkey : keys key)
    (hco : ∀ o, coleaseIt = some o → K o ∧ o.key = coLeaseKey key) :
    Keeps (I b) c (itemCigetShare sid key coleaseIt) := by
  refine .bind_of (h.found_itemGet sid) fun sessIt hsess => ?_
  refine .bind (h.keeps_itemAssocKeySid hsid hkey hsess) fun _ =>
    .bind (h.keeps_itemGet key) fun it => ?_
  cases it with
  | some it => exact .bind (h.keeps_itemAssocSidColease hsid hkey hco) fun _ => .pure _
  | none =>
    refine h.bind_made (h.made_itemCreateLease hkey .i) fun _ r hr =>
      .bind (.whenSome fun l hl => ?_) fun _ => ?_
    · exact .bind (h.keeps_itemStore_set (fun _ => hr l hl) (.inl rfl)) fun _ => .pure _
    · exact .bind (h.keeps_itemAssocSidColease hsid hkey hco) fun _ => .pure _

theorem keeps_itemCigetQuarantined (sid key : Bytes) :
    Keeps (I b) c (itemCigetQuarantined sid key) := by
  refine .bind (h.keeps_itemGet sid) fun sessIt => ?_
  cases sessIt with
  | none => exact .pure _
  | some sessIt =>
    refine .bind (.deref _) fun listed => ?_
    split
    · exact .bind (h.keeps_itemGet key) fun _ => .pure _
    · exact .pure _

theorem keeps_itemCiget (leaseToken : UInt64) (hsid : ids sid) (hkey : keys key) :
    Keeps (I b) c (itemCiget sid key leaseToken) := by
  refine .bind (h.keeps_itemSessAborted sid) fun aborted => ?_
  split
  · exact .pure _
  refine .bind_of (h.found_itemGet _) fun coleaseIt hco => ?_
  split
  · refine .bind (keeps_itemCheckEntry coleaseIt sid) fun own => ?_
    split
    · exact .bind (h.keeps_itemGet _) fun _ => .pure _
    · exact .bind (h.keeps_cleanSession hsid) fun _ => .pure _
  refine .bind (h.keeps_itemGet _) fun l => ?_
  cases l with
  | none => exact h.keeps_itemCigetShare hsid hkey hco
  | some l =>
    dsimp only
    split
    · split <;> exact .pure _
    split
    · exact h.keeps_itemCigetQuarantined sid key
    · exact h.keeps_itemCigetShare hsid hkey hco

theorem keeps_itemExclusive (hsid : ids sid) (hkey : keys key) :
    Keeps (I b) c (itemExclusive sid key) := by
  refine .bind_of (h.found_itemGet _) fun coleaseIt hco => ?_
  cases coleaseIt with
  | none => exact .pure _
  | some coleaseIt =>
    obtain ⟨hK, hname⟩ := hco coleaseIt rfl
    dsimp only
    split
    · refine .bind (h.keeps_abortSessions sid hkey hK hname) fun _ => ?_
      exact .bind (h.keeps_itemUnlink coleaseIt) fun _ => .pure _
    split
    · refine .bind (keeps_itemCheckEntry _ sid) fun own => ?_
      split
      · exact .pure _
      · exact .bind (h.keeps_cleanSession hsid) fun _ => .pure _
    · exact .pure _

theorem keeps_itemCreateSessionLease (kind : Lease) (hkey : keys key) :
    Keeps (I b) c (itemCreateSessionLease key kind) := by
  refine h.bind_made (h.made_itemCreateReservedItem _ _) fun _ o ho => .deref_bind fun l hl => ?_
  obtain ⟨⟨haddr, hlt, hname, hflags, hconfig, hfits⟩, -⟩ := ho l hl
  refine .bind (h.keeps_itemStore_set (fun hst => ?_) (.inl rfl)) fun _ => .pure _
  exact h.lease hkey ⟨haddr, hlt, hname, hflags, hconfig, hfits⟩ hst

theorem keeps_itemOqreadGrant (hsid : ids sid) (hkey : keys key) :
    Keeps (I b) c (itemOqreadGrant sid key) := by
  refine .bind (h.keeps_itemGet key) fun it =>
    .bind (h.keeps_itemCreateSessionLease .qRef hkey) fun l => ?_
  refine .bind (.whenSome fun it _ => h.keeps_itemWrite it fun it => it.marked) fun _ => ?_
  refine .bind_of (h.found_itemGet sid) fun sessIt hsess => ?_
  refine .bind (h.keeps_itemAssocKeySid hsid hkey hsess) fun _ =>
    .bind_of (h.found_itemGet _) fun coleaseIt hco => ?_
  exact .bind (h.keeps_itemAssocSidColease hsid hkey hco) fun _ => .pure _

theorem keeps_itemOqreadLease (hsid : ids sid) (hkey : keys key) :
    Keeps (I b) c (itemOqreadLease sid key) := by
  refine .bind (h.keeps_itemGet _) fun l => ?_
  cases l with
  | none => exact h.keeps_itemOqreadGrant hsid hkey
  | some l =>
    dsimp only
    split
    · exact .bind (h.keeps_itemWrite l fun it => it.marked) fun _ => .pure _
    · exact h.keeps_itemOqreadGrant hsid hkey

theorem keeps_itemOqread (hsid : ids sid) (hkey : keys key) :
    Keeps (I b) c (itemOqread sid key) := by
  refine .bind (h.keeps_itemSessAborted sid) fun aborted => ?_
  split
  · exact .pure _
  refine .bind (h.keeps_itemExclusive hsid hkey) fun exclusive => ?_
  cases exclusive with
  | own => exact .bind (h.keeps_itemGet key) fun _ => .pure _
  | refused => exact .pure _
  | free | stray => exact h.keeps_itemOqreadLease hsid hkey

theorem keeps_itemStorePendingVersion {it : Item} (hkey : keys it.key) (hflags : F it.dataflags) :
    Keeps (I b) c (itemStorePendingVersion it) := by
  refine h.bind_made (h.copied_itemCreatePendingVersion _ hkey hflags rfl) fun _ o ho =>
    .deref_bind fun pv hpv => ?_
  exact .bind (h.keeps_itemStore_copied (ho pv hpv) pv.marked) fun _ => .pure _

theorem keeps_itemOqswapLeased {it : Item} (hkey : keys it.key) (hflags : F it.dataflags) :
    Keeps (I b) c (itemOqswapLeased it) := by
  refine .bind (h.keeps_itemGet _) fun l => ?_
  cases l with
  | none => exact .pure _
  | some l =>
    dsimp only
    split
    · exact .pure _
    refine .bind (h.keeps_itemUnlink l) fun _ => ?_
    split
    · exact .pure _
    · exact .bind (h.keeps_itemStorePendingVersion hkey hflags) fun _ => .pure _

theorem keeps_itemOqswap {it : Item} (sid : Bytes) (hkey : keys it.key) (hflags : F it.dataflags) :
    Keeps (I b) c (itemOqswap sid it) := by
  refine .bind (h.keeps_itemSessAborted sid) fun aborted => ?_
  split
  · exact .pure _
  refine .bind (h.keeps_itemGet _) fun coleaseIt => ?_
  cases coleaseIt with
  | none => exact .pure _
  | some coleaseIt =>
    dsimp only
    split
    · exact .pure _
    split
    · refine .bind (keeps_itemCheckEntry _ sid) fun own => ?_
      split
      · exact h.keeps_itemOqswapLeased hkey hflags
      · exact .bind (h.keeps_itemUnlink coleaseIt) fun _ => .pure _
    · exact .bind (h.keeps_itemUnlink coleaseIt) fun _ => .pure _

theorem keeps_itemOqwriteBody {it : Item} (hsid : ids sid) (hkey : keys it.key)
    (hflags : F it.dataflags) :
    Keeps (I b) c (itemOqwriteBody sid it) := by
  refine .bind ?_ fun _ => .bind_of (h.found_itemGet sid) fun sessIt hsess =>
    .bind (h.keeps_itemAssocKeySid hsid hkey hsess) fun _ => .pure _
  rw [itemOqwriteVersion]
  split
  · exact h.keeps_drop _
  · exact h.keeps_itemStorePendingVersion hkey hflags

theorem keeps_itemOqwriteFree {it : Item} (hsid : ids sid) (hkey : keys it.key)
    (hflags : F it.dataflags) :
    Keeps (I b) c (itemOqwriteFree sid it) :=
  .bind (h.keeps_newColease hsid hkey) fun _ => h.keeps_itemOqwriteBody hsid hkey hflags

theorem keeps_itemOqwrite {it : Item} (hsid : ids sid) (hkey : keys it.key)
    (hflags : F it.dataflags) :
    Keeps (I b) c (itemOqwrite sid it) := by
  refine .bind (h.keeps_itemSessAborted sid) fun aborted => ?_
  split
  · exact .pure _
  refine .bind_of (h.found_itemGet _) fun coleaseIt hco => ?_
  cases coleaseIt with
  | none => exact h.keeps_itemOqwriteFree hsid hkey hflags
  | some coleaseIt =>
    obtain ⟨hK, hname⟩ := hco coleaseIt rfl
    dsimp only
    split
    · refine .bind (h.keeps_abortSessions sid hkey hK hname) fun _ => ?_
      refine .bind (h.keeps_itemUnlink coleaseIt) fun _ => .bind (h.keeps_itemGet _) fun l => ?_
      exact .bind (h.keeps_unlinkSome l) fun _ => h.keeps_itemOqwriteFree hsid hkey hflags
    refine .bind (keeps_itemCheckEntry _ sid) fun own => ?_
    split
    · exact .bind (h.keeps_cleanSession hsid) fun _ => .pure _
    refine .bind (h.keeps_itemGet _) fun l => ?_
    cases l with
    | none => exact h.keeps_itemOqwriteBody hsid hkey hflags
    | some l =>
      dsimp only
      split
      · exact .pure _
      · exact .bind (h.keeps_itemUnlink l) fun _ => h.keeps_itemOqwriteBody hsid hkey hflags

/-- What an incremental update of a session works on. -/
theorem found_itemSessionVersion {it : Option Item} (hkey : keys key)
    (hit : ∀ o, it = some o → K o ∧ o.key = key) :
    ∀ s, I b s → wlp (itemSessionVersion key it) (fun o s' => I b s' ∧
      ∀ pvIt, o = some pvIt → F pvIt.dataflags ∧ pvIt.key = u8Name (versionKey key)) c s := by
  intro s hs
  rw [itemSessionVersion, wlp_bind]
  refine (h.found_itemGet _ s hs).mono fun pv s₁ ⟨hs₁, hpv⟩ => ?_
  cases pv with
  | some pv =>
    obtain ⟨hK, hname⟩ := hpv pv rfl
    refine .pure ⟨hs₁, ?_⟩
    rintro _ ⟨⟩
    exact ⟨h.flags hK, by rw [← hname, u8Name_of_lt pv.key_lt]⟩
  | none =>
    cases it with
    | none =>
      refine .pure ⟨hs₁, ?_⟩
      rintro pvIt ⟨⟩
    | some it =>
      obtain ⟨hK, hname⟩ := hit it rfl
      dsimp only
      refine .bind ((h.copied_itemCreatePendingVersion _ hkey (h.flags hK) hname s₁ hs₁).mono
        fun o s₂ ⟨b', hle, hs₂, ho⟩ => ?_)
      rw [wlp_bind, wlp_deref]
      intro pv hpv'
      refine .bind ((h.keeps_itemStore_copied (ho pv hpv') pv.marked s₂ hs₂).mono fun _ s₃ hs₃ =>
        .pure ⟨h.less hle hs₃, ?_⟩)
      rintro _ ⟨⟩
      exact ⟨(ho pv hpv').flags, (ho pv hpv').key⟩

variable {update : Option Item → ServerM CoResult}

theorem keeps_itemOqDeltaUpdate (hkey : keys key) (hu : ∀ pv, (∀ pvIt, pv = some pvIt →
      F pvIt.dataflags ∧ pvIt.key = u8Name (versionKey key)) → Keeps (I b) c (update pv)) :
    Keeps (I b) c (itemOqDeltaUpdate key update) := by
  refine .bind_of (h.found_itemGet key) fun it hit => .bind (h.keeps_itemGet _) fun l => ?_
  refine .bind (h.keeps_itemVoidILease l) fun l => ?_
  cases l with
  | some l => exact .pure _
  | none => exact .bind_of (h.found_itemSessionVersion hkey hit) hu

theorem keeps_itemOqDelta (hsid : ids sid) (hkey : keys key) (hu : ∀ pv, (∀ pvIt, pv = some pvIt →
      F pvIt.dataflags ∧ pvIt.key = u8Name (versionKey key)) → Keeps (I b) c (update pv)) :
    Keeps (I b) c (itemOqDelta sid key update) := by
  refine .bind (h.keeps_itemSessAborted sid) fun aborted => ?_
  split
  · exact .pure _
  refine .bind (h.keeps_itemExclusive hsid hkey) fun exclusive => ?_
  have hjoin : ∀ ret : CoResult, Keeps (I b) c
    (do itemAssocKeySid (← itemGet sid) key sid; return ret) := fun ret =>
    .bind_of (h.found_itemGet sid) fun sessIt hsess =>
      .bind (h.keeps_itemAssocKeySid hsid hkey hsess) fun _ => .pure ret
  cases exclusive with
  | refused => exact .pure _
  | free =>
    refine .bind (h.keeps_itemOqDeltaUpdate hkey hu) fun ret => ?_
    exact .bind (h.keeps_newColease hsid hkey) fun _ => hjoin ret
  | own | stray => exact .bind (h.keeps_itemOqDeltaUpdate hkey hu) hjoin

theorem keeps_itemOqappendOqprepend (append : Bool) (data : Bytes) (hsid : ids sid)
    (hkey : keys key) :
    Keeps (I b) c (itemOqappendOqprepend append sid key data) := by
  refine h.keeps_itemOqDelta hsid hkey fun pv hpv =>
    .bind (.whenSome fun pv hsome => ?_) fun _ => .pure _
  obtain ⟨hflags, hname⟩ := hpv pv hsome
  refine h.bind_made (h.made_itemAllocConfig _ _ _ _ _) fun _ o ho => .whenSome fun nit hnit => ?_
  obtain ⟨hplain, hmade⟩ := ho nit hnit
  exact .bind (h.keeps_rewriteVersion hkey hflags hname (hmade _ ⟨rfl, rfl, rfl, rfl, rfl⟩) hplain)
    fun _ => .pure _

/-- The increment of a session, up to where the pending version is read again. -/
theorem keeps_itemOqDelta_add (incr : Bool) (delta : UInt64) (hsid : ids sid) (hkey : keys key) :
    Keeps (I b) c (itemOqDelta sid key fun _ => itemAddDeltaCo incr key delta) := by
  refine h.keeps_itemOqDelta hsid hkey fun _ _ =>
    .bind (h.keeps_itemAddDelta_version hkey _ _) fun r => ?_
  cases r <;> exact .pure _

theorem keeps_itemOqincrOqdecr (incr : Bool) (delta : UInt64) (hsid : ids sid) (hkey : keys key) :
    Keeps (I b) c (itemOqincrOqdecr incr sid key delta) := by
  refine .bind (h.keeps_itemOqDelta_add incr delta hsid hkey) fun ret =>
    .bind (h.keeps_itemGet _) fun pv => ?_
  split <;> exact .pure _

theorem found_itemOqregColease (hsid : ids sid) (hkey : keys key) : ∀ s, I b s →
    wlp (itemOqregColease sid key) (fun o s' => I b s' ∧ K o ∧ o.key = coLeaseKey key) c s := by
  intro s hs
  rw [itemOqregColease, wlp_bind]
  refine (h.found_itemGet _ s hs).mono fun coleaseIt s₁ ⟨hs₁, hco⟩ => ?_
  cases coleaseIt with
  | some coleaseIt => exact .pure ⟨hs₁, hco coleaseIt rfl⟩
  | none =>
    dsimp only
    refine .bind ((h.keeps_newColease hsid hkey s₁ hs₁).mono fun _ s₂ hs₂ => ?_)
    refine .bind ((h.found_itemGet _ s₂ hs₂).mono fun o s₃ ⟨hs₃, ho⟩ =>
      wlp_deref.mpr fun coleaseIt hsome => ?_)
    exact ⟨hs₃, ho coleaseIt hsome⟩

theorem keeps_itemOqreg (hsid : ids sid) (hkey : keys key) : Keeps (I b) c (itemOqreg sid key) := by
  refine .bind (h.keeps_itemSessAborted sid) fun aborted => ?_
  split
  · exact .pure _
  refine .bind ?_ fun _ => .bind_of (h.found_itemOqregColease hsid hkey) fun coleaseIt
    ⟨hK, hname⟩ =>
    .bind (.when fun _ => ?_) fun _ => ?_
  · refine .bind (h.keeps_itemGet _) fun l => .bind (h.keeps_itemVoidILease l) fun l => ?_
    cases l with
    | some l => exact .bind (h.keeps_itemGet key) fun _ => .pure _
    | none =>
      refine .bind (h.keeps_itemGet key) fun _ => ?_
      exact .bind (h.keeps_itemCreateSessionLease .qInv hkey) fun _ => .pure _
  · refine .bind (h.keeps_abortSessions sid hkey hK hname) fun _ => ?_
    exact .bind (h.keeps_itemUnlink coleaseIt) fun _ => h.keeps_newColease hsid hkey
  · refine .bind_of (h.found_itemGet sid) fun sessIt hsess => ?_
    exact .bind (h.keeps_itemAssocKeySid hsid hkey hsess) fun _ => .pure _

theorem keeps_itemDcommitValue {it : Option Item} {coleaseIt : Item}
    (hvalue : Applies c keys A K L (-1)) (hkey : keys key) :
    Keeps (I b) c (itemDcommitValue key it coleaseIt) := by
  rw [itemDcommitValue]
  split
  · exact h.keeps_unlinkSome it
  split
  · refine .bind_of (h.found_itemGet _) fun pv hpv => ?_
    cases pv with
    | none => exact h.keeps_unlinkSome it
    | some pv =>
      obtain ⟨hK, hname⟩ := hpv pv rfl
      refine h.bind_made (h.made_itemAllocConfig _ _ _ _ _) fun _ o ho =>
        .deref_bind fun newIt hnew => ?_
      obtain ⟨hplain, hmade⟩ := ho newIt hnew
      exact .bind (h.keeps_itemStore_applied hvalue hkey hK hname (hmade _ ⟨rfl, rfl, rfl, rfl,
        rfl⟩) hplain rfl) fun _ => h.keeps_itemUnlink pv
  · exact .when fun _ => .whenSome fun it _ => h.keeps_itemWrite it fun it => it.marked

theorem keeps_itemDcommitKey (hvalue : Applies c keys A K L (-1)) (hkey : keys key) :
    Keeps (I b) c (itemDcommitKey sid key) := by
  refine .bind (h.keeps_itemGet key) fun it => .bind (h.keeps_itemGet _) fun l => ?_
  refine .bind (h.keeps_unlinkSome l) fun _ => .bind_of (h.found_itemGet _) fun coleaseIt hco => ?_
  refine .whenSome fun coleaseIt hsome => .bind (h.keeps_itemDcommitValue hvalue hkey) fun _ => ?_
  exact h.keeps_itemRemoveSidColease sid hkey (hco coleaseIt hsome).1 (hco coleaseIt hsome).2

/-- `item_dcommit`, when a value made of a pending version may be linked. -/
theorem keeps_itemDcommit (hsid : ids sid) (hvalue : Applies c keys A K L (-1)) :
    Keeps (I b) c (itemDcommit sid) := by
  refine .bind_of (h.found_itemGet sid) fun sessIt hsess => ?_
  cases sessIt with
  | none => exact .pure _
  | some sessIt =>
    obtain ⟨hK, hname⟩ := hsess sessIt rfl
    dsimp only
    split
    · exact .bind (h.keeps_itemUnlink sessIt) fun _ => .pure _
    refine .deref_bind fun ks hks => .bind (.forEach fun key hmem => ?_) fun _ =>
      .bind (h.keeps_itemUnlink sessIt) fun _ => .pure _
    exact h.keeps_itemDcommitKey hvalue (h.listed hK (hname ▸ hsid) hks key hmem)

theorem keeps_itemValidateKeys (sid : Bytes) (ks : List Bytes) :
    Keeps (I b) c (itemValidateKeys sid ks) := by
  induction ks with
  | nil => exact .pure _
  | cons key ks ih =>
    refine .bind (h.keeps_itemGet _) fun coleaseIt =>
      .bind (keeps_itemCheckEntry coleaseIt sid) fun _ => ?_
    exact .bind ih fun _ => .pure _

theorem keeps_itemValidate (hsid : ids sid) : Keeps (I b) c (itemValidate sid) := by
  refine .bind (h.keeps_itemGet sid) fun sessIt => ?_
  cases sessIt with
  | none => exact .pure _
  | some sessIt =>
    dsimp only
    split
    · exact .bind (h.keeps_itemUnlink sessIt) fun _ => .pure _
    · refine .bind (.deref _) fun ks => .bind (h.keeps_itemValidateKeys sid ks) fun valid => ?_
      split
      · exact .pure _
      · exact .bind (h.keeps_cleanSession hsid) fun _ => .pure _

end Sessions

end Stable

/-! ## Requests -/

/-- The transactions and sessions whose lists a request works on: those that it names, except that
an increment takes the text of its amount for the transaction. -/
def Request.owners : Request → List Bytes
  | .iqDelta _ _ _ delta _ => [delta]
  | req => req.ids

/-- What a line has to satisfy for its handler to keep the invariant. -/
structure Stable.Line (c : Settings) (keys ids : Bytes → Prop) (I : Server → Prop) (s : Server)
    (req : Request) :
    Prop where
  keys : ∀ key ∈ req.keys, key.length ≤ keyMaxLen → keys key
  owners : ∀ tid ∈ req.owners, ids tid
  arithmetic : ∀ incr cfg key delta, req = .arithmetic incr cfg key delta → key.length ≤ keyMaxLen →
    ∀ amount, mcStrtoull delta = some amount → wlp (itemAddDelta key incr amount) (fun _ => I) c s
  commit : ∀ cfg frag tid pending, req = .commit cfg frag tid pending →
    wlp (itemCommit tid pending (fragConfig frag s.configurationNumber)) (fun _ => I) c s
  dcommit : ∀ sid, req = .dcommit sid → wlp (itemDcommit sid) (fun _ => I) c s
  flushall : ∀ exptime, req = .flushall exptime → wlp (ascProcessFlushall exptime) (fun _ => I) c s

/-- Whether the item of a request becomes a pending version, which then has its flags. -/
def Completion.stages : Completion → Bool
  | .swap _ | .oqswap _ | .oqwrite _ => true
  | _ => false

/-- What a body has to satisfy for its completion to keep the invariant. -/
structure Stable.Body (c : Settings) (keys ids : Bytes → Prop) (F : Nat → Prop) (I : Server → Prop)
    (s : Server) (req : Request) (completion : Completion) (it : Item) : Prop where
  key : keys it.key
  owners : ∀ tid ∈ req.owners, ids tid
  flags : completion.stages = true → F it.dataflags
  store : ∀ cmd, completion = .store cmd → wlp (itemStore it cmd.type cmd.leaseToken)
    (fun _ => I) c s
  sar : ∀ leaseToken, completion = .sar leaseToken → wlp (itemSwapAndRelease it leaseToken)
    (fun _ => I) c s

namespace Stable

section Requests

variable {keys ids : Bytes → Prop} {F A : Nat → Prop} {K : Item → Prop} {L : Nat → Item → Prop}
  {I : Nat → Server → Prop} {b : Nat}

/-- A handler that answers with the result of an operation. -/
theorem keeps_reply {op : ServerM B} {reply : B → ServerM Outcome} (hop : wlp op (fun _ => I b) c s)
    (hreply : ∀ b, ∃ out, reply b = pure out) : wlp (do reply (← op)) (fun _ => I b) c s := by
  refine .bind (hop.mono fun b s' hs' => ?_)
  obtain ⟨out, hout⟩ := hreply b
  exact hout ▸ .pure hs'

theorem keeps_ascCheckConfig {cfg : Int} {handler : Int → ServerM Outcome} (hs : I b s)
    (hh : ∀ server, server = s.configurationNumber → wlp (handler server) (fun _ => I b) c s) :
    wlp (ascCheckConfig cfg handler) (fun _ => I b) c s :=
  wlp_ascCheckConfig (fun _ _ => hs) fun _ => hh _ rfl

theorem keeps_ascCheckLength {max : Nat} {handler : ServerM Outcome} (hs : I b s)
    (hh : name.length ≤ max → wlp handler (fun _ => I b) c s) :
    wlp (ascCheckLength max name handler) (fun _ => I b) c s :=
  wlp_ascCheckLength (fun _ _ => hs) hh

variable (h : Stable c keys ids F A K L I)

include h

theorem keeps_ascAllocBody (key : Bytes) (flags : Nat) (exptime : Int) (vlen : Nat)
    (configNum : Int) (dropsValue : Bool) (completion : Completion) :
    Keeps (I b) c (ascAllocBody key flags exptime vlen configNum dropsValue completion) := by
  refine .bind (fun _ hs => wlp_itemSlabid.mpr hs) fun _ => ?_
  split
  · exact .pure _
  refine .bind (fun _ hs => wlp_timeReltime.mpr hs) fun _ => ?_
  refine h.bind_made (h.made_itemAllocConfig _ _ _ _ _) fun _ it _ => ?_
  cases it with
  | none => exact .bind (.when fun _ => h.keeps_drop key) fun _ => .pure _
  | some it => exact .bind .ask fun _ => .pure _

theorem keeps_ascAllocConcat (key : Bytes) (vlen : Nat) (completion : Completion) :
    Keeps (I b) c (ascAllocConcat key vlen completion) := by
  refine h.bind_made (h.made_itemAllocConfig _ _ _ _ _) fun _ it _ => ?_
  cases it <;> exact .pure _

theorem keeps_ascReadKeys (ks : List Bytes) : Keeps (I b) c (ascReadKeys ks) := by
  induction ks with
  | nil => exact .pure _
  | cons key ks ih =>
    rw [ascReadKeys]
    split
    · exact .pure _
    intro s hs
    have hs₁ : I b (s.reap key) := h.shrink hs (.reap s key)
    rw [wlp_bind, wlp_itemGet, wlp_bind]
    cases hit : s.live key with
    | none => exact .pure (Keeps.bind ih (fun _ => .pure _) _ hs₁)
    | some it =>
      have hlive : (s.reap key).live it.key = some it := by rw [live_reap, key_of_live hit, hit]
      exact (h.keeps_itemTouch hs₁ hlive).mono fun _ s₂ hs₂ =>
        Keeps.bind ih (fun _ => .pure _) s₂ hs₂

theorem keeps_ascDeleteKeys (deleteLease : Bool) (res : Option StoreResult) (ks : List Bytes) :
    Keeps (I b) c (ascDeleteKeys deleteLease res ks) := by
  induction ks generalizing res with
  | nil =>
    refine .bind (.deref res) fun r => ?_
    cases r <;> exact .pure _
  | cons key ks ih =>
    rw [ascDeleteKeys]
    split
    · exact .pure _
    · exact .bind (h.keeps_itemGetAndDelete key deleteLease) fun r => ih r

theorem keeps_ascDispatch (hs : I b s) (hreq : Stable.Line c keys ids (I b) s req) :
    wlp (ascDispatch req) (fun _ => I b) c s := by
  obtain ⟨hkeys, howners, harith, hcommit, hdcommit, hflushall⟩ := hreq
  cases req with
  | get cas cfg keys =>
    refine keeps_ascCheckConfig hs fun _ _ =>
      Keeps.bind (h.keeps_ascReadKeys keys) (fun its => ?_) s hs
    cases its <;> exact .pure _
  | update cmd cfg frag key flags exptime vlen =>
    exact keeps_ascCheckLength hs fun _ =>
      keeps_ascCheckConfig hs (fun _ _ => h.keeps_ascAllocBody _ _ _ _ _ _ _ s hs)
  | arithmetic incr cfg key delta =>
    refine keeps_ascCheckConfig hs (fun _ _ => keeps_ascCheckLength hs fun hlen => ?_)
    cases hdelta : mcStrtoull delta with
    | none => exact .pure hs
    | some amount =>
      refine keeps_reply (harith _ _ _ _ rfl hlen amount hdelta) fun r => ?_
      cases r <;> exact ⟨_, rfl⟩
  | delete cfg deleteLease keys =>
    exact keeps_ascCheckConfig hs (fun _ _ => h.keeps_ascDeleteKeys _ none keys s hs)
  | unlease cfg key leaseToken =>
    refine keeps_ascCheckConfig hs (fun _ _ => keeps_ascCheckLength hs fun _ => ?_)
    exact keeps_reply (h.keeps_itemGetAndUnlease key leaseToken s hs) fun _ => ⟨_, rfl⟩
  | qareg cfg key tid =>
    refine keeps_ascCheckConfig hs (fun _ _ => keeps_ascCheckLength hs fun hlen =>
      keeps_ascCheckLength hs fun _ => ?_)
    have hkey := hkeys key mem_cons_self hlen
    exact keeps_reply (h.keeps_itemQuarantineAndRegister (howners tid mem_cons_self) hkey s hs)
      fun _ => ⟨_, rfl⟩
  | dar cfg tid =>
    refine keeps_ascCheckConfig hs (fun _ _ => keeps_ascCheckLength hs fun _ => ?_)
    refine keeps_reply (h.keeps_itemDeleteAndRelease (howners tid mem_cons_self) s hs) fun r => ?_
    cases r <;> exact ⟨_, rfl⟩
  | qaread cfg key readValue leaseToken tid =>
    refine keeps_ascCheckConfig hs (fun _ _ => keeps_ascCheckLength hs fun hlen => ?_)
    have hkey := hkeys key mem_cons_self hlen
    exact keeps_reply (h.keeps_itemQuarantineAndRead leaseToken
      (howners tid mem_cons_self) hkey s hs)
      fun _ => ⟨_, rfl⟩
  | sar cfg key flags exptime vlen leaseToken =>
    exact keeps_ascCheckConfig hs (fun _ _ => keeps_ascCheckLength hs fun _ =>
      h.keeps_ascAllocBody _ _ _ _ _ _ _ s hs)
  | swap cfg frag key flags exptime vlen leaseToken =>
    exact keeps_ascCheckLength hs fun _ =>
      keeps_ascCheckConfig hs (fun _ _ => h.keeps_ascAllocBody _ _ _ _ _ _ _ s hs)
  | iqDelta incr cfg key delta tid =>
    refine keeps_ascCheckConfig hs (fun _ _ => keeps_ascCheckLength hs fun hlen => ?_)
    have hkey := hkeys key mem_cons_self hlen
    cases mcStrtoull delta with
    | none => exact .pure hs
    | some amount =>
      exact keeps_reply (h.keeps_itemIqincrIqdecr incr amount hkey
        (howners delta mem_cons_self) s hs)
        fun _ => ⟨_, rfl⟩
  | iqConcat append cfg key vlen tid =>
    exact keeps_ascCheckLength hs fun _ =>
      keeps_ascCheckConfig hs (fun _ _ => h.keeps_ascAllocConcat _ _ _ s hs)
  | commit cfg frag tid pending =>
    refine keeps_ascCheckLength hs fun _ => keeps_ascCheckConfig hs fun server hserver => ?_
    subst hserver
    refine keeps_reply (hcommit _ _ _ _ rfl) fun r => ?_
    cases r <;> exact ⟨_, rfl⟩
  | release tid =>
    refine keeps_ascCheckLength hs fun _ => ?_
    refine keeps_reply (h.keeps_itemRelease (howners tid mem_cons_self) s hs) fun r => ?_
    cases r <;> exact ⟨_, rfl⟩
  | iqget cfg key leaseToken =>
    refine keeps_ascCheckConfig hs (fun _ _ => keeps_ascCheckLength hs fun hlen => ?_)
    exact keeps_reply (h.keeps_itemIqget leaseToken [] false (hkeys key mem_cons_self hlen) s hs)
      fun _ => ⟨_, rfl⟩
  | iset cfg key leaseToken tid =>
    refine keeps_ascCheckConfig hs (fun _ _ => keeps_ascCheckLength hs fun hlen => ?_)
    exact keeps_reply (h.keeps_itemIqget leaseToken tid true (hkeys key mem_cons_self hlen) s hs)
      fun _ => ⟨_, rfl⟩
  | updateConfiguration number =>
    have hmodify : Keeps (I b) c (modify fun s : Server =>
      { s with configurationNumber := number }) :=
      fun s hs => wlp_modify.mpr (h.shrink hs ⟨id, rfl, le_rfl, rfl, rfl⟩)
    exact Keeps.bind hmodify (fun _ => .pure _) s hs
  | flushall exptime => exact hflushall exptime rfl
  | ciget sid key leaseToken =>
    refine keeps_ascCheckLength hs fun hlen => ?_
    have hkey := hkeys key mem_cons_self hlen
    refine Keeps.bind (h.keeps_itemCiget leaseToken (howners sid mem_cons_self) hkey)
      (fun res => ?_) s hs
    split
    · split
      · exact .bind (.deref _) fun _ => .pure _
      · split <;> exact .pure _
    all_goals exact .pure _
  | oqread sid key =>
    refine keeps_ascCheckLength hs fun hlen => ?_
    have hkey := hkeys key mem_cons_self hlen
    refine keeps_reply (h.keeps_itemOqread (howners sid mem_cons_self) hkey s hs) fun r => ?_
    split <;> exact ⟨_, rfl⟩
  | oqswap sid key flags exptime vlen =>
    exact keeps_ascCheckLength hs fun _ => h.keeps_ascAllocBody _ _ _ _ _ _ _ s hs
  | oqwrite sid key flags exptime vlen =>
    exact keeps_ascCheckLength hs fun _ => h.keeps_ascAllocBody _ _ _ _ _ _ _ s hs
  | oqDelta incr cfg sid key delta =>
    refine keeps_ascCheckConfig hs (fun _ _ => keeps_ascCheckLength hs fun hlen => ?_)
    have hkey := hkeys key mem_cons_self hlen
    cases mcStrtoull delta with
    | none => exact .pure hs
    | some amount =>
      refine Keeps.bind (h.keeps_itemOqincrOqdecr incr amount (howners sid mem_cons_self) hkey)
        (fun r => ?_) s hs
      split
      · exact .bind (.deref _) fun _ => .pure _
      all_goals exact .pure _
  | oqConcat append sid key vlen =>
    exact keeps_ascCheckLength hs fun _ => h.keeps_ascAllocConcat _ _ _ s hs
  | oqreg sid key =>
    refine keeps_ascCheckLength hs fun _ => keeps_ascCheckLength hs fun hlen => ?_
    have hkey := hkeys key mem_cons_self hlen
    exact keeps_reply (h.keeps_itemOqreg (howners sid mem_cons_self) hkey s hs) fun _ => ⟨_, rfl⟩
  | dcommit sid =>
    exact keeps_ascCheckLength hs fun _ => keeps_reply (hdcommit sid rfl) fun _ => ⟨_, rfl⟩
  | coUnlease sid =>
    refine keeps_ascCheckLength hs fun _ => ?_
    exact keeps_reply (h.keeps_itemCoUnlease (howners sid mem_cons_self) s hs) fun _ => ⟨_, rfl⟩
  | validate sid =>
    refine keeps_reply (h.keeps_itemValidate (howners sid mem_cons_self) s hs) fun r => ?_
    cases r <;> exact ⟨_, rfl⟩

theorem keeps_ascCompleteNread {s₀ : Server} {p : Pending} {body : Bytes} (hs : I b s)
    (hp : Prepared c s₀ req p)
    (hbody : Stable.Body c keys ids F (I b) s req p.completion (p.filled body)) :
    wlp (ascCompleteNread p body) (fun _ => I b) c s := by
  obtain ⟨hkey, howners, hflags, hstore, hsar⟩ := hbody
  have hids : ∀ tid, (∃ append, p.completion = .iqConcat append tid) ∨
    (∃ append, p.completion = .oqConcat append tid) ∨
      p.completion = .oqswap tid ∨ p.completion = .oqwrite tid → ids tid := by
    intro tid hc
    refine howners tid ?_
    obtain ⟨hp, -, -⟩ := hp
    cases req with
    | update | sar | swap | iqConcat | oqswap | oqwrite | oqConcat =>
      cases hp
      rcases hc with ⟨_, hc⟩ | ⟨_, hc⟩ | hc | hc <;> cases hc <;> exact mem_cons_self
    | _ => cases hp
  rw [ascCompleteNread]
  split
  · exact .pure hs
  cases hc : p.completion with
  | store cmd =>
    rw [ascComplete, wlp_bind]
    exact (hstore cmd hc).mono fun _ _ hs' => .pure hs'
  | iqConcat append tid =>
    have htid := hids tid (.inl ⟨append, hc⟩)
    exact Keeps.bind (h.keeps_itemIqappendIqprepend append _ hkey htid) (fun _ => .pure _) s hs
  | oqConcat append sid =>
    have hsid := hids sid (.inr (.inl ⟨append, hc⟩))
    refine Keeps.bind (h.keeps_itemOqappendOqprepend append _ hsid hkey) (fun r => ?_) s hs
    cases r <;> exact .pure _
  | sar leaseToken =>
    rw [ascComplete, wlp_bind]
    refine (hsar leaseToken hc).mono fun r s' hs' => ?_
    cases r <;> exact .pure hs'
  | swap leaseToken =>
    refine Keeps.bind (h.keeps_itemSwap leaseToken hkey (hflags (by rw [hc]; rfl)))
      (fun r => ?_) s hs
    cases r <;> exact .pure _
  | oqswap sid =>
    exact Keeps.bind (h.keeps_itemOqswap sid hkey (hflags (by rw [hc]; rfl))) (fun _ =>
      .pure _) s hs
  | oqwrite sid =>
    have hsid := hids sid (.inr (.inr (.inr hc)))
    exact Keeps.bind (h.keeps_itemOqwrite hsid hkey (hflags (by rw [hc]; rfl))) (fun _ =>
      .pure _) s hs

/-- A step of the server keeps the invariant. -/
theorem keeps_step {hist : History} {w w' : World} {e : Event} (hr : (service c).Run hist w)
    (hstep : World.Step c w e w') (hs : I b w.server)
    (hline : ∀ conn req out, e = .line conn req out → Stable.Line c keys ids (I b) w.server req)
    (hbody : ∀ conn req p body reply, e = .body conn req p body reply →
      Stable.Body c keys ids F (I b) w.server req p.completion (p.filled body)) :
    I b w'.server := by
  cases hstep with
  | line _ hrun => exact h.keeps_ascDispatch hs (hline _ _ _ rfl) _ _ hrun
  | body hw _ hrun =>
    obtain ⟨t, -, -, hp⟩ := exists_line_of_waiting hr hw
    exact h.keeps_ascCompleteNread hs hp (hbody _ _ _ _ _ rfl) _ _ hrun
  | tick seconds => exact h.tick seconds hs
  | memory heap => exact h.shrink hs ⟨id, rfl, le_rfl, rfl, rfl⟩
  | hangup conn => exact hs

end Requests

end Stable

end Rejig
