import Rejig.Effect

/-!
# What storing, deleting and the lists may do

The records that operations link, described relative to the state `s` in which the operation starts,
and the permissions of the operations that the commands share.
-/

namespace Rejig

open Prog Server List

variable {data entry key n name : Bytes} {P : Perm} {it o : Item} {s s₁ : Server}
  {Q : Unit → Server → Prop} {c : Settings} {delta leaseToken : UInt64} {incr ralign : Bool}

/-! ## Names and records -/

theorem u8Name_of_lt (h : name.length < 256) : u8Name name = name := by
  simp [u8Name, Nat.mod_eq_of_lt h]

theorem u8Name_leaseKey (h : key.length ≤ keyMaxLen) : u8Name (leaseKey key) = leaseKey key :=
  u8Name_of_lt (by simp only [leaseKey, length_cons, keyMaxLen] at *; omega)

theorem u8Name_versionKey (h : key.length ≤ keyMaxLen) : u8Name (versionKey key) = versionKey key :=
  u8Name_of_lt (by simp only [versionKey, length_cons, keyMaxLen] at *; omega)

theorem u8Name_pendingKey (h : key.length ≤ keyMaxLen) : u8Name (pendingKey key) = pendingKey key :=
  u8Name_of_lt (by simp only [pendingKey, length_cons, keyMaxLen] at *; omega)

theorem leaseKey_ne_self (key : Bytes) : leaseKey key ≠ key := by
  intro h
  have hlen := congrArg List.length h
  simp only [leaseKey, length_cons] at hlen
  omega

theorem pendingKey_ne_self (key : Bytes) : pendingKey key ≠ key := by
  intro h
  have hlen := congrArg List.length h
  simp only [pendingKey, length_cons] at hlen
  omega

section Names

variable {key key' n : Bytes}

theorem not_unprefixed_leaseKey (key : Bytes) : ¬ Unprefixed (leaseKey key) := by
  simp [Unprefixed, leaseKey, reservedPrefixes]

theorem not_unprefixed_versionKey (key : Bytes) : ¬ Unprefixed (versionKey key) := by
  simp [Unprefixed, versionKey, reservedPrefixes]

theorem not_unprefixed_pendingKey (key : Bytes) : ¬ Unprefixed (pendingKey key) := by
  simp [Unprefixed, pendingKey, reservedPrefixes]

theorem Unprefixed.ne_leaseKey (h : Unprefixed n) : n ≠ leaseKey key := by
  rintro rfl
  exact not_unprefixed_leaseKey key h

theorem Unprefixed.ne_versionKey (h : Unprefixed n) : n ≠ versionKey key := by
  rintro rfl
  exact not_unprefixed_versionKey key h

theorem Unprefixed.ne_pendingKey (h : Unprefixed n) : n ≠ pendingKey key := by
  rintro rfl
  exact not_unprefixed_pendingKey key h

/-- Cutting a name does not make it start with a prefix. -/
theorem Unprefixed.u8Name (h : Unprefixed n) : Unprefixed (u8Name n) := by
  have hlen : ∀ p ∈ reservedPrefixes, p.length = 3 := by decide
  intro hmem
  have h3 := hlen _ hmem
  simp only [Rejig.u8Name, take_take, length_take] at h3 hmem
  refine h ?_
  rwa [Nat.min_eq_left (by omega)] at hmem

@[simp] theorem leaseKey_inj : leaseKey key = leaseKey key' ↔ key = key' := by
  simp [leaseKey]

@[simp] theorem versionKey_inj : versionKey key = versionKey key' ↔ key = key' := by
  simp [versionKey]

@[simp] theorem leaseKey_ne_versionKey : leaseKey key ≠ versionKey key' := by
  simp [leaseKey, versionKey]

@[simp] theorem pendingKey_inj : pendingKey key = pendingKey key' ↔ key = key' := by
  simp [pendingKey]

@[simp] theorem leaseKey_ne_pendingKey : leaseKey key ≠ pendingKey key' := by
  simp [leaseKey, pendingKey]

@[simp] theorem versionKey_ne_pendingKey : versionKey key ≠ pendingKey key' := by
  simp [versionKey, pendingKey]

end Names

/-- A lease, transaction or session record, as it is linked by an operation that starts in `s`. -/
@[simps]
def reserved (c : Settings) (s : Server) (addr : Nat) (cas : UInt64) (name data : Bytes)
    (lease : Lease) (co : CoFlag) : Item where
  addr := addr
  key := u8Name name
  key_lt := length_u8Name_lt name
  data := data
  exptime := s.leaseExpiry c
  atime := s.now
  cas := cas
  lease := lease
  co := co
  pinned := true

/-- The records with the given name, payload and flags, up to what the allocator chooses. -/
def Reserved (c : Settings) (s : Server) (name data : Bytes) (lease : Lease) (co : CoFlag)
    (it : Item) : Prop :=
  ∃ addr cas, s.nextAddr ≤ addr ∧ it = reserved c s addr cas name data lease co

/-- The list of a record has an entry. -/
def Item.Has (it : Item) (entry : Bytes) : Prop :=
  trigCheckKeylist it.data it.nbyte (u8Name entry) = some true

instance instDecidableHas (it : Item) (entry : Bytes) : Decidable (it.Has entry) :=
  inferInstanceAs (Decidable (_ = _))

/-- The payload that lists an entry which the record `old`, if there is one, does not list. -/
structure Extended (old : Option Item) (entry data : Bytes) : Prop where
  absent : ∀ o, old = some o → ¬ o.Has entry
  added : trigKeylistAddkey (old.elim [] Item.data) (u8Name entry) = some data

/-- The transaction record of `tid` with `key` added to its list. -/
def TransRecord (c : Settings) (s : Server) (tid key : Bytes) (it : Item) : Prop :=
  key.length ≤ keyMaxLen ∧ ∃ data, Extended (s.live tid) key data ∧
    Reserved c s tid data .none .sess it

/-- The invalidate lease on `key` with `tid` added to its list; an I lease gives way. -/
def InvLease (c : Settings) (s : Server) (key tid : Bytes) (it : Item) : Prop :=
  tid.length ≤ tidMaxLen ∧
    ∃ data, Extended ((s.live (leaseKey key)).filter (!·.hasILease)) tid data ∧
      Reserved c s (leaseKey key) data .qInv .none it

/-- The record `o` with an entry removed from its list. -/
def Rebuilt (c : Settings) (s : Server) (name entry : Bytes) (o it : Item) : Prop :=
  o.Has entry ∧ ∃ data, trigKeylistRmvkey o.data (u8Name entry) = some data ∧
    Reserved c s name data o.listLease o.listCo it

/-- A lease on `key` with a token drawn after `s`. -/
def TokenLease (c : Settings) (s : Server) (key : Bytes) (kind : Lease) (it : Item) : Prop :=
  ∃ token it', s.leaseCurrentToken ≤ token ∧
    Reserved c s (leaseKey key) (decimal (.ofNat token)) kind .none it' ∧
    ∃ p, it = { it' with p := p }

theorem Reserved.exptime {lease : Lease} {co : CoFlag} (h : Reserved c s name data lease co it) :
    it.exptime = s.leaseExpiry c := by
  obtain ⟨addr, cas, -, rfl⟩ := h
  rfl

theorem TokenLease.lease {kind : Lease} (h : TokenLease c s key kind it) : it.lease = kind := by
  obtain ⟨token, it', -, ⟨addr, cas, -, rfl⟩, p, rfl⟩ := h
  rfl

section Shared

variable {s₀ : Server} {lease : Lease} {co : CoFlag}

/-- A record that has just been allocated, as it is when it is linked. -/
theorem Evolve.reserved_stamp (hs₁ : Evolve P s₀ s₁) (hs : Evolve P s₀ s) :
    Reserved c s₀ name data lease co (s.stamp c (s₁.freshReserved c name data lease co)) := by
  refine ⟨s₁.nextAddr, (s.stamp c (s₁.freshReserved c name data lease co)).cas, hs₁.nextAddr, ?_⟩
  rw [Server.stamp, Server.freshReserved, hs.now, hs₁.leaseExpiry_eq]
  rfl

/-- A record that has just been allocated, and is linked now. -/
theorem Evolve.link_reserved (hs₁ : Evolve P s₀ s₁) (hs : Evolve P s₀ s)
    (he : ∀ it o, s.live (u8Name name) = some o → Reserved c s₀ name data lease co it →
      P.edit (u8Name name) o it)
    (hi : ∀ it, s.live (u8Name name) = none → Reserved c s₀ name data lease co it →
      P.install (u8Name name) it) :
    Evolve P s₀ (s.link c (s₁.freshReserved c name data lease co)) :=
  hs.link (fun o ho => he _ o ho (hs₁.reserved_stamp hs)) fun ho => hi _ ho (hs₁.reserved_stamp hs)

/-- The two ways in which adding an entry to a list can end. -/
theorem wlp_itemAddEntry {it : Option Item} (hsame : ∀ o, it = some o → o.Has entry → Q () s)
    (hlink : ∀ data, Extended it entry data → c.fits name.length data.length = true →
      s.room = true →
      Q () (s.allocate.link c (s.freshReserved c name data lease co))) :
    wlp (itemAddEntry it name entry lease co) Q c s := by
  have hcheck : wlp (itemCheckEntry it entry) (fun present s' => s' = s ∧
      (present = true → ∃ o, it = some o ∧ o.Has entry) ∧
      (present = false → ∀ o, it = some o → ¬ o.Has entry)) c s := by
    cases it with
    | none => exact .pure ⟨rfl, by simp, by simp⟩
    | some it =>
      refine wlp_deref.mpr fun present hpresent => ⟨rfl, ?_, ?_⟩
      · rintro rfl
        exact ⟨it, rfl, hpresent⟩
      · rintro rfl o ⟨⟩ hhas
        rw [Item.Has, hpresent] at hhas
        cases hhas
  rw [itemAddEntry, wlp_bind]
  refine hcheck.mono fun present s₁ ⟨hs₁, htrue, hfalse⟩ => ?_
  subst hs₁
  rw [wlp_when]
  refine ⟨fun hp => ?_, fun hp => ?_⟩
  · rw [wlp_bind, wlp_deref]
    intro data hdata
    rw [wlp_bind, wlp_itemCreateReservedItem]
    intro hfits
    rw [wlp_bind, wlp_deref_ite]
    intro hroom
    rw [wlp_bind, wlp_itemStore_set (.inl rfl), if_pos, wlp_pure]
    · exact hlink data ⟨hfalse (by simpa using hp), hdata⟩ hfits hroom
    · have hne : data.length ≠ 0 := by simpa using trigKeylistAddkey_ne_nil hdata
      simp [Item.storable, Item.nbyte, hne]
  · obtain ⟨o, ho, hhas⟩ := htrue (by simpa using hp)
    exact hsame o ho hhas

theorem evolve_itemAddEntry {it : Option Item} (hs : Evolve P s₀ s)
    (he : ∀ data rec o, Extended it entry data → Reserved c s₀ name data lease co rec →
      P.edit (u8Name name) o rec)
    (hi : ∀ data rec, Extended it entry data → Reserved c s₀ name data lease co rec →
      P.install (u8Name name) rec) : wlp (itemAddEntry it name entry lease co) (fun _ =>
        Evolve P s₀) c s := by
  refine wlp_itemAddEntry (fun _ _ _ => hs) fun data hdata _ _ => ?_
  exact hs.link_reserved hs.allocate (fun rec o _ => he data rec o hdata) fun rec _ =>
    hi data rec hdata

/-- The four ways in which removing an entry from the list of `o` can end. -/
theorem wlp_itemRemoveEntryFromList (hsame : Q () s) (hunlink : o.Has entry → Q () (s.unlink o))
    (halloc : Q () s.allocate)
    (hlink : ∀ data, o.Has entry → trigKeylistRmvkey o.data (u8Name entry) = some data →
      Q () (s.allocate.link c (s.freshReserved c name data o.listLease o.listCo))) :
    wlp (itemRemoveEntryFromList (some o) name entry) Q c s := by
  rw [itemRemoveEntryFromList, whenSome_some, wlp_bind, itemCheckEntry, wlp_deref]
  intro present hpresent
  rw [wlp_when]
  refine ⟨fun htrue => ?_, fun _ => hsame⟩
  have hhas : o.Has entry := by rw [Item.Has, hpresent, htrue]
  split
  · exact wlp_itemUnlink.mpr (hunlink hhas)
  · rw [wlp_bind, wlp_deref]
    intro data hdata
    rw [wlp_bind, wlp_itemCreateReservedItem]
    intro _
    refine wlp_deref_store ?_ ?_
    · exact .pure (hlink data hhas hdata)
    · exact .pure halloc

/-- Rebuilding the record `o` that was found under `name`.  It may have been evicted by then. -/
theorem evolve_itemRemoveEntryFromList (hs : Evolve P s₀ s) (ho : s.live name = some o)
    (hd : o.Has entry → P.drop name o) (he : ∀ it, Rebuilt c s₀ name entry o it → P.edit name o it)
    (hi : ∀ it, o.pinned = false → Rebuilt c s₀ name entry o it → P.install name it) :
    wlp (itemRemoveEntryFromList (some o) name entry) (fun _ => Evolve P s₀) c s := by
  have hk : o.key = name := key_of_live ho
  obtain ⟨hfind, hdead⟩ := live_eq_some.mp ho
  -- a name under which something is found fits its length byte
  have hname : u8Name name = name := u8Name_of_lt (length_lt_of_find hfind)
  refine wlp_itemRemoveEntryFromList hs ?_ hs.allocate fun data hhas hdata => ?_
  · exact fun hhas => hs.unlink_found (hk ▸ hfind) (hk ▸ hd hhas)
  refine hs.link_reserved hs.allocate ?_ ?_
  · rintro it o' ho' hit
    rw [hname] at ho' ⊢
    obtain ⟨hf', -⟩ := live_eq_some.mp ho'
    rcases s.find_allocate_eq_or name with heq | ⟨_, _, _, hnone⟩
    · rw [heq, hfind] at hf'
      cases hf'
      exact he it ⟨hhas, data, hdata, hit⟩
    · rw [hnone] at hf'
      cases hf'
  · intro it hnone hit
    rw [hname] at hnone ⊢
    rcases s.find_allocate_eq_or name with heq | ⟨it', hit', hp, _⟩
    · exact absurd (live_eq_some.mpr ⟨heq.trans hfind, hdead⟩) (by simp [hnone])
    · rw [hfind] at hit'
      cases hit'
      exact hi it hp ⟨hhas, data, hdata, hit⟩

/-- Dropping what was found under a name. -/
theorem evolve_dropFound (hs : Evolve P s₀ s) (hd : ∀ it, s.live n = some it → P.drop n it) :
    wlp (whenSome (s.live n) itemUnlink) (fun _ => Evolve P s₀) c (s.reap n) := by
  rw [wlp_whenSome]
  refine ⟨fun _ => hs.reap n, fun it hit => ?_⟩
  rw [wlp_itemUnlink]
  have hk : it.key = n := key_of_live hit
  refine (hs.reap n).unlink_found ?_ ?_
  · rw [hk, find_reap_self, hit]
  · rw [hk]
    exact hd it hit

end Shared

/-! ## Values -/

/-- An item as it is linked by an operation that starts in `s`, up to its pending bit. -/
def Linked (s : Server) (it it' : Item) : Prop :=
  ∃ cas p, it' = { it with cas := cas, atime := s.now, p := p }

/-- An item that has been written anew with another payload. -/
structure Rewritten (s : Server) (it it' : Item) : Prop where
  addr : s.nextAddr ≤ it'.addr
  dataflags : it'.dataflags = it.dataflags
  exptime : it'.exptime = it.exptime
  lease : it'.lease = .none
  co : it'.co = .none
  configNumber : it'.configNumber = -1
  pinned : it'.pinned = false

/-- What `_item_store` may do for a command. -/
def storePerm (s : Server) (cmd : Update) (it : Item) : Perm where
  drop n o := ∃ leaseToken, cmd = .iqset leaseToken ∧
    (n = leaseKey it.key ∧ o.hasILease ∧ o.leaseValue = leaseToken ∨ n = pendingKey it.key)
  edit n o o' := n = it.key ∧ (Linked s it o' ∨ Rewritten s o o')
  install n o' := n = it.key ∧
    (Linked s it o' ∨ ∃ o, s.live it.key = some o ∧ Rewritten s o o')

/-- What `_item_add_delta` may do. -/
def deltaPerm (s : Server) (key : Bytes) : Perm where
  drop _ _ := False
  edit n o o' := n = key ∧ (Rewritten s o o' ∨ ∃ cas data, o' = { o with cas := cas, data := data })
  install n o' := n = key ∧ ∃ o, s.live key = some o ∧ Rewritten s o o'

section Values

variable {s₀ : Server}

theorem evolve_itemTouch (hs : Evolve P s₀ s) : wlp (itemTouch it) (fun _ => Evolve P s₀) c s := by
  simp only [itemTouch, wlp_bind, wlp_get, wlp_when, wlp_itemWrite]
  exact ⟨fun _ => hs.write (fun _ => rfl) fun _ _ _ => .touch _, fun _ => hs⟩

/-- Linking the item of a request as the value of its key. -/
theorem Evolve.link_value (hs : Evolve P s₀ s) (it : Item)
    (he : ∀ o o', Linked s₀ it o' → P.edit it.key o o')
    (hi : ∀ o', Linked s₀ it o' → P.install it.key o') : Evolve P s₀ (s.link c it) := by
  have hl : Linked s₀ it (s.stamp c it) :=
    ⟨(s.stamp c it).cas, it.p, by rw [Server.stamp, hs.now]⟩
  exact hs.link (fun o _ => he o _ hl) fun _ => hi _ hl

theorem evolve_itemStoreIqset {oit : Option Item} (hs : Evolve P s₀ s)
    (ho : ∀ o, oit = some o → o.key = it.key)
    (hl : ∀ o, o.hasILease → o.leaseValue = leaseToken → P.drop (leaseKey it.key) o)
    (hp : ∀ o, P.drop (pendingKey it.key) o) (he : ∀ o o', Linked s₀ it o' → P.edit it.key o o')
    (hi : ∀ o', Linked s₀ it o' → P.install it.key o') :
    wlp (itemStoreIqset oit it leaseToken) (fun _ => Evolve P s₀) c s := by
  rw [itemStoreIqset, wlp_bind, itemGetLease, wlp_itemGet]
  cases hlease : s.live (leaseKey it.key) with
  | none => exact .pure (hs.reap _)
  | some leaseIt =>
    have hk : leaseIt.key = leaseKey it.key := key_of_live hlease
    dsimp only
    split
    · exact .pure (hs.reap _)
    split
    · exact .pure (hs.reap _)
    next hI htok =>
    have hs₁ : Evolve P s₀ ((s.reap (leaseKey it.key)).unlink leaseIt) := by
      refine (hs.reap _).unlink_found ?_ ?_
      · rw [hk, find_reap_self, hlease]
      · rw [hk]
        exact hl leaseIt (by simpa using hI) (by simpa using (not_not.mp htok).symm)
    rw [wlp_bind, wlp_itemUnlink]
    split
    · exact .pure hs₁
    · rw [wlp_bind, itemGetPending, wlp_itemGet]
      cases hpd : Server.live _ (pendingKey it.key) with
      | none =>
        rw [wlp_itemStoreLink ho]
        exact (hs₁.reap _).link_value it he hi
      | some pendingIt =>
        have hpk : pendingIt.key = pendingKey it.key := key_of_live hpd
        have hs₂ := (hs₁.reap (pendingKey it.key)).unlink pendingIt fun o _ _ => hpk ▸ hp o
        have ho' : ∀ o, oit = some o → o.key = Item.key { it with p := 1 } := ho
        rw [wlp_bind, wlp_itemUnlink, wlp_itemStoreLink ho']
        refine hs₂.link_value { it with p := 1 } ?_ ?_
        · rintro o o' ⟨cas, p, rfl⟩
          exact he o _ ⟨cas, p, rfl⟩
        · rintro o' ⟨cas, p, rfl⟩
          exact hi _ ⟨cas, p, rfl⟩

/-- Linking a rewritten item in the place of `o`. -/
theorem Evolve.link_rewritten {p : UInt8} (hs₁ : Evolve P s₀ s₁) (hs : Evolve P s₀ s)
    (hk : o.key.length < 256) (hlive : ∀ o', s.live o.key = some o' → o' = o)
    (he : ∀ o', Rewritten s₀ o o' → P.edit o.key o o')
    (hi : ∀ o', Rewritten s₀ o o' → P.install o.key o') :
    Evolve P s₀ (s.link c { s₁.fresh o.key o.dataflags o.exptime (-1) with
      data := data, ralign := ralign, p := p }) := by
  have hkey : u8Name o.key = o.key := u8Name_of_lt hk
  apply hs.link
  · intro o' ho'
    simp only [fresh_key, hkey] at ho' ⊢
    rw [hlive o' ho']
    exact he _ ⟨hs₁.nextAddr, rfl, rfl, rfl, rfl, rfl, rfl⟩
  · intro _
    simp only [fresh_key, hkey]
    exact hi _ ⟨hs₁.nextAddr, rfl, rfl, rfl, rfl, rfl, rfl⟩

/-- An allocation right after an item was found: the item is still there, or has been evicted. -/
theorem Server.live_allocate_reap {o' : Item} (h : s.live n = some o)
    (h' : (s.reap n).allocate.live n = some o') :
    o' = o := by
  obtain ⟨hf, -⟩ := live_eq_some.mp h'
  rcases (s.reap n).find_allocate_eq_or n with heq | ⟨_, _, _, hnone⟩
  · rw [heq, find_reap_self, h] at hf
    exact (Option.some.inj hf).symm
  · rw [hnone] at hf
    cases hf

theorem evolve_itemStoreConcat (hs : Evolve P s₀ s) (ho : s.live o.key = some o)
    (hk : o.key.length < 256) (he : ∀ o', Rewritten s₀ o o' → P.edit o.key o o')
    (hi : ∀ o', Rewritten s₀ o o' → P.install o.key o') :
    wlp (itemStoreConcat o data ralign) (fun _ => Evolve P s₀) c (s.reap o.key) := by
  rw [itemStoreConcat, wlp_bind, wlp_itemSlabid]
  split
  · exact .pure (hs.reap _)
  split
  · exact .pure (hs.reap _)
  rw [wlp_bind, wlp_itemAlloc]
  intro _
  cases (s.reap o.key).room with
  | false => exact .pure (hs.reap _).allocate
  | true =>
    have hkey : ∀ o', some o = some o' →
        o'.key = Item.key { (s.reap o.key).fresh o.key o.dataflags o.exptime (-1) with
          data := data, ralign := ralign } := by
      rintro o' ⟨⟩
      exact (u8Name_of_lt hk).symm
    refine (wlp_itemStoreLink hkey).mpr ?_
    exact (hs.reap _).link_rewritten (hs.reap _).allocate hk
      (fun o' ho' => live_allocate_reap ho ho') he hi

/-- `_item_store` keeps to its permission. -/
theorem evolve_itemStore {cmd : Update} (hk : it.key.length < 256) :
    wlp (itemStore it cmd.type cmd.leaseToken) (fun _ => Evolve (storePerm s cmd it) s) c s := by
  have hs : Evolve (storePerm s cmd it) s (s.reap it.key) := (Evolve.refl _ s).reap _
  have hlink : ∀ oit, s.live it.key = oit →
      wlp (itemStoreLink oit it) (fun _ => Evolve (storePerm s cmd it) s) c (s.reap it.key) := by
    rintro oit rfl
    rw [wlp_itemStoreLink fun o ho => key_of_live ho]
    exact hs.link_value it (fun _ _ h => ⟨rfl, .inl h⟩) fun _ h => ⟨rfl, .inl h⟩
  have hconcat : ∀ o data ralign, s.live it.key = some o →
      wlp (itemStoreConcat o data ralign) (fun _ => Evolve (storePerm s cmd it) s) c
        (s.reap it.key) := by
    intro o data ralign ho
    have hok : o.key = it.key := key_of_live ho
    rw [← hok] at ho hk ⊢
    exact evolve_itemStoreConcat (.refl _ s) ho hk (fun o' h => ⟨hok, .inr h⟩)
      fun o' h => ⟨hok, .inr ⟨o, hok ▸ ho, h⟩⟩
  have hpure : ∀ r : StoreResult,
      wlp (pure r) (fun _ => Evolve (storePerm s cmd it) s) c (s.reap it.key) :=
    fun r => .pure hs
  rw [itemStore]
  split
  · exact .pure (.refl _ s)
  rw [wlp_bind, wlp_itemGet]
  cases cmd with
  | iqset leaseToken =>
    refine evolve_itemStoreIqset hs (fun o ho => key_of_live ho) ?_ ?_ ?_ ?_
    · exact fun o ho hv => ⟨leaseToken, rfl, .inl ⟨rfl, ho, hv⟩⟩
    · exact fun o => ⟨leaseToken, rfl, .inr rfl⟩
    · exact fun o o' h => ⟨rfl, .inl h⟩
    · exact fun o' h => ⟨rfl, .inl h⟩
  | set => exact hlink _ rfl
  | add =>
    cases ho : s.live it.key with
    | none => exact hlink _ ho
    | some o =>
      dsimp only [Update.type]
      split
      · exact hlink _ ho
      · exact .bind ((evolve_itemTouch hs).mono fun _ _ h => .pure h)
  | replace =>
    cases ho : s.live it.key with
    | none => exact hpure _
    | some o =>
      dsimp only [Update.type]
      split
      · exact hpure _
      · exact hlink _ ho
  | append =>
    cases ho : s.live it.key with
    | none => exact hpure _
    | some o => exact hconcat o _ _ ho
  | prepend =>
    cases ho : s.live it.key with
    | none => exact hpure _
    | some o => exact hconcat o _ _ ho
  | cas =>
    cases ho : s.live it.key with
    | none => exact hpure _
    | some o =>
      dsimp only [Update.type]
      split
      · exact hpure _
      · exact hlink _ ho

theorem evolve_itemAddDelta_of (hs : Evolve P s₀ s) (hk : key.length < 256)
    (he : ∀ o o', Rewritten s₀ o o' → P.edit key o o')
    (hw : ∀ o cas data, P.edit key o { o with cas := cas, data := data })
    (hi : ∀ o o', s.live key = some o → Rewritten s₀ o o' → P.install key o') :
    wlp (itemAddDelta key incr delta) (fun _ => Evolve P s₀) c s := by
  rw [itemAddDelta, wlp_bind, wlp_itemGet]
  cases ho : s.live key with
  | none => exact .pure (hs.reap _)
  | some o =>
    have hok : o.key = key := key_of_live ho
    dsimp only
    split
    · exact .pure (hs.reap _)
    next value _ =>
    generalize decimal (addDelta incr value delta) = buf
    by_cases hlen : o.nbyte < buf.length
    · rw [if_pos hlen, wlp_bind, wlp_itemAlloc]
      intro _
      cases (s.reap key).room with
      | false => exact .pure (hs.reap _).allocate
      | true =>
        have hkey : o.key = Item.key { (s.reap key).fresh o.key o.dataflags o.exptime (-1) with
            data := buf, p := o.p } := (u8Name_of_lt (hok ▸ hk)).symm
        simp only [if_true, itemReplace, wlp_bind, wlp_itemUnlink, wlp_itemLink, wlp_pure]
        rw [link_unlink _ _ hkey]
        refine (hs.reap _).link_rewritten (hs.reap _).allocate (hok ▸ hk) ?_ ?_ ?_
        · intro o' ho'
          exact live_allocate_reap ho (hok ▸ ho')
        · exact fun o' h => hok ▸ he o o' h
        · exact fun o' h => hok ▸ hi o o' ho h
    · rw [if_neg hlen, wlp_bind, wlp_itemNextCas, wlp_bind, wlp_itemWrite, wlp_pure]
      have hs₁ : Evolve P s₀ { s.reap key with
          casId := if c.useCas then (s.reap key).casId + 1 else (s.reap key).casId } :=
        (hs.reap key).step rfl rfl rfl le_rfl le_rfl id fun _ => Or.inl rfl
      refine hs₁.write (fun _ => rfl) fun o' _ _ => .edit ?_
      rw [hok]
      exact hw o' _ _

/-- `_item_add_delta` keeps to its permission. -/
theorem evolve_itemAddDelta (hk : key.length < 256) :
    wlp (itemAddDelta key incr delta) (fun _ => Evolve (deltaPerm s key) s) c s :=
  evolve_itemAddDelta_of (.refl _ s) hk (fun _ _ h => ⟨rfl, .inl h⟩)
    (fun _ cas data => ⟨rfl, .inr ⟨cas, data, rfl⟩⟩) fun o _ ho h => ⟨rfl, o, ho, h⟩

end Values

/-! ## Deleting -/

/-- What `item_get_and_delete` may do. -/
def deletePerm (deleteLease : Bool) (key : Bytes) : Perm where
  drop n _ := n = key ∨ deleteLease = true ∧ n ∈ [leaseKey key, versionKey key, coLeaseKey key]
  edit _ _ _ := False
  install _ _ := False

/-- What `item_get_and_unlease` may do. -/
def unleasePerm (key : Bytes) (leaseToken : UInt64) : Perm where
  drop n o := n = leaseKey key ∧ o.leaseValue = leaseToken
  edit _ _ _ := False
  install _ _ := False

section Deleting

variable {s₀ : Server}

theorem evolve_itemGetAndDelete {deleteLease : Bool} (hs : Evolve P s₀ s)
    (hP : ∀ n it, (deletePerm deleteLease key).drop n it → P.drop n it) :
    wlp (itemGetAndDelete key deleteLease) (fun _ => Evolve P s₀) c s := by
  have hdrop : ∀ n, deleteLease = true → n ∈ [leaseKey key, versionKey key, coLeaseKey key] →
      ∀ s', Evolve P s₀ s' →
        wlp (whenSome (s'.live n) itemUnlink) (fun _ => Evolve P s₀) c (s'.reap n) :=
    fun n hb hn s' hs' => evolve_dropFound hs' fun it _ => hP n it (.inr ⟨hb, hn⟩)
  have hleases : wlp (when deleteLease do
      whenSome (← itemGetLease key) itemUnlink
      whenSome (← itemGetPendingVersion key) itemUnlink
      whenSome (← itemGetCoLease key) itemUnlink) (fun _ => Evolve P s₀) c s := by
    rw [wlp_when]
    refine ⟨fun hb => ?_, fun _ => hs⟩
    simp only [itemGetLease, itemGetPendingVersion, itemGetCoLease, wlp_bind, wlp_itemGet]
    refine (hdrop (leaseKey key) hb (by simp) s hs).mono fun _ s₁ hs₁ => ?_
    refine (hdrop (versionKey key) hb (by simp) s₁ hs₁).mono fun _ s₂ hs₂ => ?_
    exact hdrop (coLeaseKey key) hb (by simp) s₂ hs₂
  rw [itemGetAndDelete, wlp_bind]
  refine hleases.mono fun _ s₁ hs₁ => ?_
  rw [wlp_bind, wlp_itemGet]
  cases hit : s₁.live key with
  | none => exact .pure (hs₁.reap _)
  | some it =>
    have hk : it.key = key := key_of_live hit
    rw [wlp_bind, wlp_itemUnlink, wlp_pure]
    exact (hs₁.reap _).unlink it fun o _ _ => hk ▸ hP key o (.inl rfl)

theorem evolve_itemGetAndUnlease :
    wlp (itemGetAndUnlease key leaseToken) (fun _ =>
        Evolve (unleasePerm key leaseToken) s) c s := by
  have hs := (Evolve.refl (unleasePerm key leaseToken) s).reap (leaseKey key)
  rw [itemGetAndUnlease, itemGetLease, wlp_bind, wlp_itemGet, wlp_whenSome]
  refine ⟨fun _ => hs, fun leaseIt hl => ?_⟩
  have hk : leaseIt.key = leaseKey key := key_of_live hl
  rw [wlp_when, wlp_itemUnlink]
  refine ⟨fun hv => hs.unlink_found ?_ ?_, fun _ => hs⟩
  · rw [hk, find_reap_self, hl]
  · exact ⟨hk, by simpa using hv⟩

end Deleting

end Rejig
