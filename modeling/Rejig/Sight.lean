import Rejig.Trans

/-!
# Executing operations on what is live

While memory lasts, an operation is a function of the items that are live: reaping does not change
them, and everything else it does puts an item under a name, takes one away or overwrites one.  A
`Sight` is this function with the identity of the next item, and `Sees c t s v` says that `v` is
what an operation sees of the state `s` at the time `t`.

The rules below execute the primitive operations on sights, and then the functions on lists.  A
state occurs in them only as something that sees a sight, so that a program is followed on its sight
alone.
-/

namespace Rejig

open Prog Server Option List Function Bool

variable {Q : Unit → Server → Prop} {n : Bytes} {f : Item → Item}

/-- The time at which an operation is executed: what is made and stored now is live. -/
structure Clock where
  now : Nat
  /-- The expiry of a lease, a session or a pending version made now. -/
  expiry : Nat
  oldestLive : Nat
  ahead : now < expiry
  unflushed : oldestLive = 0 ∨ oldestLive ≠ now

/-- What expires with the records made now has not expired. -/
theorem Clock.unexpired (t : Clock) {it : Item} (hexp : it.exptime = t.expiry) :
    it.expired t.now = false := by
  have := t.ahead
  simp only [Item.expired, hexp, and_eq_false_iff, decide_eq_false_iff_not]
  omega

/-- What an operation sees of a state. -/
structure Sight where
  /-- The item that is live under a name. -/
  find : Bytes → Option Item
  /-- The identity of the next item. -/
  next : Nat

namespace Sight

/-- Change what is under a name. -/
def set (v : Sight) (n : Bytes) (o : Option Item) : Sight := { v with find := update v.find n o }

/-- An item has been allocated. -/
def alloc (v : Sight) : Sight := { v with next := v.next + 1 }

variable {v : Sight} {n' : Bytes} {o : Option Item}

@[simp] theorem find_set_self : (v.set n o).find n = o := update_self ..

theorem find_set_of_ne (h : n' ≠ n) : (v.set n o).find n' = v.find n' := update_of_ne h ..

@[simp] theorem find_alloc : v.alloc.find = v.find := rfl

@[simp] theorem next_set : (v.set n o).next = v.next := rfl

@[simp] theorem set_set (o' : Option Item) : (v.set n o').set n o = v.set n o := by
  rw [set, set, update_idem]
  rfl

/-- Setting a name to what is there changes nothing. -/
theorem set_find (h : v.find n = o) : v.set n o = v := by
  rw [set, ← h, update_eq_self]

end Sight

/-- The sight of a state in which memory lasts. -/
structure Sees (c : Settings) (t : Clock) (s : Server) (v : Sight) : Prop where
  live : s.live = v.find
  next : s.nextAddr = v.next
  now : s.now = t.now
  expiry : s.leaseExpiry c = t.expiry
  oldestLive : s.oldestLive = t.oldestLive
  heap : s.heap = []

/-- A record that was made for the sight: it expires when the records made now do. -/
structure Item.New (t : Clock) (v : Sight) (name : Bytes) (it : Item) : Prop where
  addr : it.addr = v.next
  key : it.key = u8Name name
  exptime : it.exptime = t.expiry
  sessStatus : it.sessStatus = .alive
  ralign : it.ralign = false

/-- What linking makes of an item. -/
structure Item.Stamped (it it' : Item) : Prop where
  eq : ∃ cas atime, it' = { it with cas := cas, atime := atime }

namespace Item.Stamped

variable {it it' : Item}

theorem refl (it : Item) : it.Stamped it := ⟨⟨it.cas, it.atime, rfl⟩⟩

section

variable (h : it.Stamped it')

include h

theorem exptime : it'.exptime = it.exptime := by
  obtain ⟨_, _, rfl⟩ := h.eq
  rfl

theorem key : it'.key = it.key := by
  obtain ⟨_, _, rfl⟩ := h.eq
  rfl

theorem data : it'.data = it.data := by
  obtain ⟨_, _, rfl⟩ := h.eq
  rfl

theorem dataflags : it'.dataflags = it.dataflags := by
  obtain ⟨_, _, rfl⟩ := h.eq
  rfl

theorem lease : it'.lease = it.lease := by
  obtain ⟨_, _, rfl⟩ := h.eq
  rfl

theorem co : it'.co = it.co := by
  obtain ⟨_, _, rfl⟩ := h.eq
  rfl

theorem ralign : it'.ralign = it.ralign := by
  obtain ⟨_, _, rfl⟩ := h.eq
  rfl

end

end Item.Stamped

namespace Sees

variable {c : Settings} {t : Clock} {s : Server} {v : Sight} {it : Item}

/-! ## Primitive operations -/

section

variable (h : Sees c t s v)

include h

theorem reap (n : Bytes) : Sees c t (s.reap n) v :=
  ⟨(funext (live_reap s n)).trans h.live, h.next, h.now, h.expiry, h.oldestLive, h.heap⟩

/-- What is under a name changes. -/
theorem set {s' : Server} {o : Option Item}
    (live : ∀ n', s'.live n' = if n' = n then o else s.live n')
    (next : s'.nextAddr = s.nextAddr := by rfl) (now : s'.now = s.now := by rfl)
    (expiry : s'.leaseExpiry c = s.leaseExpiry c := by rfl)
    (oldestLive : s'.oldestLive = s.oldestLive := by rfl) (heap : s'.heap = s.heap := by rfl) :
    Sees c t s' (v.set n o) := by
  refine ⟨funext fun n' => ?_, next.trans h.next, now.trans h.now, expiry.trans h.expiry,
    oldestLive.trans h.oldestLive, heap.trans h.heap⟩
  rw [live]
  split
  · next hn => rw [hn, Sight.find_set_self]
  · next hn => rw [Sight.find_set_of_ne hn, h.live]

theorem unlink (hit : v.find it.key = some it) : Sees c t (s.unlink it) (v.set it.key none) :=
  h.set fun _ => live_unlink_of_live _ _ (by rw [h.live, hit])

theorem allocate : Sees c t s.allocate v.alloc where
  live := by
    funext n
    rw [live_allocate_of_heap_nil _ _ h.heap, h.live]
    rfl
  next := by
    rw [Server.allocate]
    dsimp only
    rw [if_pos (room_of_heap_nil _ h.heap), h.next]
    rfl
  now := h.now
  expiry := h.expiry
  oldestLive := h.oldestLive
  heap := by rw [allocate_heap, h.heap, tail_nil]

theorem draw : Sees c t s.draw v := ⟨h.live, h.next, h.now, h.expiry, h.oldestLive, h.heap⟩

/-- What is stored now is live, unless it has expired. -/
theorem dead_stamp (hexp : it.expired t.now = false) : s.dead (s.stamp c it) = false := by
  have hflushed : (s.stamp c it).flushed s.now s.oldestLive = false := by
    rw [Item.flushed, Server.stamp_atime, h.now, h.oldestLive]
    rcases t.unflushed with hold | hold
    · simp [hold]
    · simp
      omega
  rw [Server.dead, hflushed, Bool.or_false, h.now]
  exact hexp

theorem link (hexp : it.expired t.now = false) :
    Sees c t (s.link c it) (v.set it.key (some (s.stamp c it))) := by
  refine h.set fun n => ?_
  rw [live_link, filter_some, h.dead_stamp hexp]
  rfl

theorem write (hit : v.find it.key = some it) (hkey : ∀ it', (f it').key = it'.key)
    (hdead : s.dead (f it) = false) : Sees c t (s.write it f) (v.set it.key (some (f it))) := by
  have hfind : s.find it.key = some it := (live_eq_some.mp (by rw [h.live, hit])).1
  refine h.set fun n => ?_
  rw [Server.live, find_write_of_find _ _ hkey hfind, dead_write]
  split
  · rw [filter_some, hdead]
    rfl
  · rfl

theorem not_dead (hit : v.find n = some it) : s.dead it = false :=
  (live_eq_some.mp (by rw [h.live, hit])).2

theorem not_expired (hit : v.find n = some it) : it.expired t.now = false := by
  have hdead := h.not_dead hit
  rw [Server.dead, h.now] at hdead
  exact (or_eq_false_iff.mp hdead).1

/-- Items are found under their own names. -/
theorem key_eq (hit : v.find n = some it) : it.key = n :=
  key_of_live (by rw [h.live, hit])

end

end Sees

/-! ## Rules -/

section Rules

variable {c : Settings} {t : Clock} {s : Server} {v : Sight} {it : Item}

variable (h : Sees c t s v)

include h

theorem wlp_itemGet_sight {Q : Option Item → Server → Prop}
    (hQ : ∀ s', Sees c t s' v → Q (v.find n) s') : wlp (itemGet n) Q c s := by
  rw [wlp_itemGet, h.live]
  exact hQ _ (h.reap n)

theorem wlp_itemUnlink_sight (hit : v.find n = some it)
    (hQ : ∀ s', Sees c t s' (v.set n none) → Q () s') : wlp (itemUnlink it) Q c s := by
  obtain rfl := h.key_eq hit
  exact wlp_itemUnlink.mpr (hQ _ (h.unlink hit))

/-- Unlink what was found, if anything was. -/
theorem wlp_unlinkFound_sight (hQ : ∀ s', Sees c t s' (v.set n none) → Q () s') :
    wlp (whenSome (v.find n) itemUnlink) Q c s := by
  cases hn : v.find n with
  | none =>
    rw [whenSome_none, wlp_pure]
    exact hQ s ((Sight.set_find hn).symm ▸ h)
  | some it =>
    rw [whenSome_some]
    exact wlp_itemUnlink_sight h hn hQ

/-- A write that leaves the times alone. -/
theorem wlp_itemWrite_sight (hit : v.find n = some it) (hkey : ∀ it', (f it').key = it'.key)
    (htimes : (f it).exptime = it.exptime ∧ (f it).atime = it.atime)
    (hQ : ∀ s', Sees c t s' (v.set n (some (f it))) → Q () s') : wlp (itemWrite it f) Q c s := by
  obtain rfl := h.key_eq hit
  rw [wlp_itemWrite]
  refine hQ _ (h.write hit hkey ?_)
  have hdead := h.not_dead hit
  rw [Server.dead, Item.expired, Item.flushed] at hdead ⊢
  rwa [htimes.1, htimes.2]

/-- A write of the expiry. -/
theorem wlp_itemRetime_sight {exptime : Nat} (hit : v.find it.key = some it)
    (hexp : exptime = 0 ∨ exptime = t.expiry)
    (hQ : ∀ s', Sees c t s' (v.set it.key (some { it with exptime := exptime })) → Q () s') :
    wlp (itemWrite it fun it => { it with exptime := exptime }) Q c s := by
  rw [wlp_itemWrite]
  refine hQ _ (h.write hit (fun _ => rfl) ?_)
  have hdead := h.not_dead hit
  rw [Server.dead, or_eq_false_iff] at hdead ⊢
  refine ⟨?_, hdead.2⟩
  rcases hexp with rfl | rfl
  · rfl
  · rw [h.now]
    exact t.unexpired rfl

/-- A store that takes place whatever was there. -/
theorem wlp_itemStore_sight {Q : StoreResult → Server → Prop} (hstorable : it.storable = true)
    (hexp : it.expired t.now = false)
    (hQ : ∀ s' it', it.Stamped it' → Sees c t s' (v.set it.key (some it')) → Q .stored s') :
    wlp (itemStore it .set) Q c s := by
  rw [wlp_itemStore_set (.inl rfl), if_pos hstorable]
  exact hQ _ _ ⟨_, _, rfl⟩ (h.link hexp)

theorem wlp_itemReplace_sight {nit : Item} (hit : v.find n = some it) (hkey : nit.key = n)
    (hexp : nit.expired t.now = false)
    (hQ : ∀ s' nit', nit.Stamped nit' → Sees c t s' (v.set n (some nit')) → Q () s') :
    wlp (itemReplace it nit) Q c s := by
  rw [itemReplace, wlp_bind]
  refine wlp_itemUnlink_sight h hit fun s₁ hs₁ => wlp_itemLink.mpr ?_
  have hs₂ : Sees c t _ _ := hs₁.link hexp
  rw [hkey, Sight.set_set] at hs₂
  exact hQ _ _ ⟨_, _, rfl⟩ hs₂

theorem wlp_itemNextCas_sight {Q : UInt64 → Server → Prop}
    (hQ : ∀ s' cas, Sees c t s' v → Q cas s') :
    wlp itemNextCas Q c s :=
  wlp_itemNextCas.mpr (hQ _ _ ⟨h.live, h.next, h.now, h.expiry, h.oldestLive, h.heap⟩)

theorem wlp_itemCreateReservedItem_sight {name data : Bytes} {Q : Option Item → Server → Prop}
    (hQ : ∀ s' it, it.New t v name → it.data = data → it.lease = .none → it.co = .none →
      Sees c t s' v.alloc →
      Q (some it) s') : wlp (itemCreateReservedItem name data) Q c s := by
  rw [wlp_itemCreateReservedItem]
  intro _
  rw [if_pos (room_of_heap_nil _ h.heap)]
  exact hQ _ _ ⟨h.next, rfl, h.expiry, rfl, rfl⟩ rfl rfl rfl h.allocate

theorem wlp_itemCreatePendingVersion_sight {data : Bytes} {Q : Option Item → Server → Prop}
    (hQ : ∀ s' pv, pv.New t v (versionKey it.key) → pv.data = data → pv.dataflags = it.dataflags →
      Sees c t s' v.alloc →
      Q (some pv) s') : wlp (itemCreatePendingVersion it data) Q c s := by
  rw [wlp_itemCreatePendingVersion]
  intro _
  rw [if_pos (room_of_heap_nil _ h.heap)]
  exact hQ _ _ ⟨h.next, rfl, h.expiry, rfl, rfl⟩ rfl rfl h.allocate

theorem wlp_itemCreateLease_sight {key : Bytes} {kind : Lease}
    {Q : Option Item × UInt64 → Server → Prop}
    (hQ : ∀ s' l token, l.New t v (leaseKey key) → l.lease = kind → Sees c t s' v.alloc →
      Q (some l, token) s') : wlp (itemCreateLease key kind) Q c s := by
  rw [wlp_itemCreateLease]
  intro _
  rw [if_pos (room_of_heap_nil _ h.heap)]
  exact hQ _ _ _ ⟨h.next, rfl, h.expiry, rfl, rfl⟩ rfl h.draw.allocate

theorem wlp_itemAlloc_sight {key : Bytes} {dataflags exptime nbyte : Nat}
    {Q : Option Item → Server → Prop}
    (hQ : ∀ s' it, it.key = u8Name key → it.dataflags = dataflags → it.exptime = exptime →
      it.ralign = false → Sees c t s' v.alloc → Q (some it) s') :
    wlp (itemAlloc key dataflags exptime nbyte) Q c s := by
  rw [wlp_itemAlloc]
  intro _
  rw [if_pos (room_of_heap_nil _ h.heap)]
  exact hQ _ _ rfl rfl rfl rfl h.allocate

end Rules

/-! ## Lists -/

/-- The list in a record; no record lists nothing. -/
def Lists (ks : List Bytes) : Option Item → Prop
  | none => ks = []
  | some it => Encodes it.data ks

section Lists

variable {c : Settings} {t : Clock} {s : Server} {v : Sight} {it : Item} {o : Option Item}
  {ks : List Bytes} {name entry : Bytes}

theorem Item.New.stamped {it' : Item} (h : it.New t v name) (hs : it.Stamped it') :
    it'.New t v name := by
  obtain ⟨cas, atime, rfl⟩ := hs.eq
  exact ⟨h.addr, h.key, h.exptime, h.sessStatus, h.ralign⟩

theorem wlp_itemCheckEntry_sight {Q : Bool → Server → Prop} (ho : Lists ks o)
    (hentry : entry.length < 256) :
    wlp (itemCheckEntry o entry) Q c s ↔ Q (decide (entry ∈ ks)) s := by
  cases o with
  | none =>
    cases ho
    simp [itemCheckEntry]
  | some it =>
    have hcheck := Encodes.check ho entry
    rw [itemCheckEntry, u8Name_of_lt hentry, Item.nbyte, hcheck, deref_some, wlp_pure]

/-- Adding an entry to a list, under the name of the record. -/
theorem wlp_itemAddEntry_sight {lease : Lease} {co : CoFlag} (h : Sees c t s v)
    (hname : name.length < 256) (ho : Lists ks o) (hentry : entry.length < 256)
    (hpresent : entry ∈ ks → Q () s) (hadded : entry ∉ ks → ∀ s' it, it.New t v name →
      Encodes it.data (insertKey entry ks) → it.lease = lease →
      it.co = co → Sees c t s' (v.alloc.set name (some it)) → Q () s') :
    wlp (itemAddEntry o name entry lease co) Q c s := by
  rw [itemAddEntry, wlp_bind, wlp_itemCheckEntry_sight ho hentry, wlp_when]
  refine ⟨fun hmem => ?_, fun hmem => hpresent (by simpa using hmem)⟩
  have hmem : entry ∉ ks := by simpa using hmem
  have hdata : ∃ data, trigKeylistAddkey (o.elim [] Item.data) entry = some data ∧
    Encodes data (insertKey entry ks) := by
    cases o with
    | none =>
      cases ho
      exact Encodes.nil.addkey hentry hmem
    | some it => exact Encodes.addkey ho hentry hmem
  obtain ⟨data, hdata, henc⟩ := hdata
  rw [u8Name_of_lt hentry, hdata, wlp_bind, deref_some, wlp_pure, wlp_bind]
  refine wlp_itemCreateReservedItem_sight h fun s₁ it hnew hitdata hlease hco hs₁ => ?_
  rw [wlp_bind, deref_some, wlp_pure, wlp_bind]
  have hkey : it.key = name := hnew.key.trans (u8Name_of_lt hname)
  have hstorable : ({ it with lease := lease, co := co } : Item).storable = true := by
    have hne : data ≠ [] := trigKeylistAddkey_ne_nil hdata
    simp [Item.storable, Item.nbyte, hitdata, hne]
  refine wlp_itemStore_sight hs₁ hstorable (t.unexpired hnew.exptime) fun s₂ it' hst hs₂ => .pure ?_
  rw [hkey] at hs₂
  have hnew' : Item.New t v name { it with lease := lease, co := co } :=
    ⟨hnew.addr, hnew.key, hnew.exptime, hnew.sessStatus, hnew.ralign⟩
  exact hadded hmem s₂ it' (hnew'.stamped hst) (by rwa [hst.data, hitdata]) hst.lease hst.co hs₂

/-- The payload of a list with an entry is as long as that entry only if it is the only one. -/
theorem Encodes.nbyte_eq_iff {data : Bytes} (h : Encodes data ks) (hmem : entry ∈ ks) :
    data.length = entry.length + 1 ↔ ks.erase entry = [] := by
  have hlength : ∀ ks : List Bytes, entry ∈ ks →
      (encode ks).length = entry.length + 1 + (encode (ks.erase entry)).length := by
    intro ks hmem
    induction ks with
    | nil => cases hmem
    | cons k ks ih =>
      by_cases hk : k = entry
      · subst hk
        rw [erase_cons_head, encode_cons, length_cons, length_append]
        omega
      · have hmem := (mem_cons.mp hmem).resolve_left (Ne.symm hk)
        rw [erase_cons_tail (by simpa using hk), encode_cons, encode_cons, length_cons,
          length_append, length_cons, length_append, ih hmem]
        omega
  rw [h.eq_encode, hlength ks hmem]
  constructor
  · intro hlen
    have hle := length_le_length_encode (ks.erase entry)
    exact eq_nil_of_length_eq_zero (by omega)
  · intro hnil
    rw [hnil]
    rfl

/-- What is found in a part of a list is in the list. -/
theorem Encodes.mem_of_check {data : Bytes} {n : Nat} (h : Encodes data ks)
    (hcheck : trigCheckKeylist data n entry = some true) : entry ∈ ks := by
  have hfrom : ∀ (fuel n : Nat) (ks : List Bytes), (∀ k ∈ ks, Short k) →
      trigCheckFrom entry fuel n (encode ks) = some true → entry ∈ ks := by
    intro fuel
    induction fuel with
    | zero =>
      intro n ks _ hcheck
      cases n <;> cases hcheck
    | succ fuel ih =>
      intro n ks hshort hcheck
      cases n with
      | zero => cases hcheck
      | succ n =>
        cases ks with
        | nil => cases hcheck
        | cons k ks =>
          obtain ⟨hk, hshort⟩ := forall_mem_cons.mp hshort
          rw [encode_cons, trigCheckFrom, hk.toNat_ofNat, trigCompareKey_append,
            bind_eq_bind, bind_some, drop_left] at hcheck
          split at hcheck
          · next hzero => exact compareKey_eq_zero_iff.mp hzero ▸ mem_cons_self
          · split at hcheck
            · cases hcheck
            · exact mem_cons_of_mem k (ih _ ks hshort hcheck)
  rw [trigCheckKeylist, h.eq_encode] at hcheck
  exact hfrom n n ks h.short hcheck

/-- Removing an entry from a list. -/
theorem wlp_itemRemoveEntryFromList_sight (h : Sees c t s v) (hit : v.find name = some it)
    (hks : Encodes it.data ks) (hentry : entry.length < 256) (habsent : entry ∉ ks → Q () s)
    (hlast : entry ∈ ks → ks.erase entry = [] → ∀ s', Sees c t s' (v.set name none) → Q () s')
    (hremoved : entry ∈ ks → ks.erase entry ≠ [] → ∀ s' it', it'.New t v name →
      Encodes it'.data (ks.erase entry) →
      it'.lease = it.listLease → it'.co = it.listCo →
      Sees c t s' (v.alloc.set name (some it')) → Q () s') :
    wlp (itemRemoveEntryFromList (some it) name entry) Q c s := by
  obtain rfl := h.key_eq hit
  rw [itemRemoveEntryFromList, whenSome_some, wlp_bind,
    wlp_itemCheckEntry_sight (o := some it) hks hentry, wlp_when]
  refine ⟨fun hmem => ?_, fun hmem => habsent (by simpa using hmem)⟩
  have hmem : entry ∈ ks := by simpa using hmem
  rw [u8Name_of_lt hentry, Item.nbyte]
  by_cases hone : ks.erase entry = []
  · rw [if_pos ((hks.nbyte_eq_iff hmem).mpr hone)]
    exact wlp_itemUnlink_sight h hit (hlast hmem hone)
  · rw [if_neg (mt (hks.nbyte_eq_iff hmem).mp hone)]
    obtain ⟨data, hdata, henc⟩ := hks.rmvkey hmem
    rw [hdata, wlp_bind, deref_some, wlp_pure, wlp_bind]
    refine wlp_itemCreateReservedItem_sight h fun s₁ it' hnew hitdata hlease hco hs₁ => ?_
    rw [wlp_bind, deref_some, wlp_pure, wlp_bind]
    have hkey : it'.key = it.key := hnew.key.trans (u8Name_of_lt it.key_lt)
    have hne : data ≠ [] := by
      rintro rfl
      have hle := length_le_length_encode (ks.erase entry)
      rw [← henc.eq_encode] at hle
      exact hone (eq_nil_of_length_eq_zero (Nat.le_zero.mp hle))
    have hstorable : ({ it' with lease := it.listLease, co := it.listCo } :
      Item).storable = true := by
      simp [Item.storable, Item.nbyte, hitdata, hne]
    refine wlp_itemStore_sight hs₁ hstorable (t.unexpired hnew.exptime) fun s₂ it₂ hst hs₂ =>
      .pure ?_
    rw [hkey] at hs₂
    have hnew' : Item.New t v it.key { it' with lease := it.listLease, co := it.listCo } :=
      ⟨hnew.addr, hnew.key, hnew.exptime, hnew.sessStatus, hnew.ralign⟩
    exact hremoved hmem hone s₂ it₂ (hnew'.stamped hst) (by rwa [hst.data, hitdata])
      hst.lease hst.co hs₂

end Lists

end Rejig
