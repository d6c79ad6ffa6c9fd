import Rejig.SessionEffect

/-!
# The session operations refine the steps of sessions

`Refines` is what is proved of every operation: if the state keeps the sessions `a`, then it keeps
some `a'` afterwards, and the operation with its result is a step from `a` to `a'`.
-/

namespace Rejig

open Prog Session List State Finset

variable {Q : Unit → Server → Prop} {c : Settings} {data sid : Bytes} {delta : UInt64} {h : Hold}
  {incr : Bool} {it : Item} {ks : List Bytes} {op : Op} {s : Server}
  {update : Option Item → ServerM CoResult} {α : Type}

/-- The key of an operation; ending a session has none. -/
def Session.Op.key : Op → Bytes
  | ciget key _ | oqread key | oqDelta _ key _ | oqConcat _ key _ | oqreg key => key
  | oqswap it | oqwrite it => it.key
  | validate | dcommit | coUnlease => []

/-- The operation of `mc_items.c`. -/
def Session.Op.exec (sid : Bytes) : Op → ServerM CoResult
  | ciget key leaseToken => do return (← itemCiget sid key leaseToken).status
  | oqread key => do return (← itemOqread sid key).1
  | oqswap it => itemOqswap sid it
  | oqwrite it => itemOqwrite sid it
  | oqDelta incr key delta => itemOqDelta sid key fun _ => itemAddDeltaCo incr key delta
  | oqConcat append key data => itemOqappendOqprepend append sid key data
  | oqreg key => itemOqreg sid key
  | validate => itemValidate sid
  | dcommit => itemDcommit sid
  | coUnlease => itemCoUnlease sid

/-- The end of an operation on sessions `a`, seen as `v` when it started. -/
def Refines (c : Settings) (N : Naming) (t : Clock) (v : Sight) (a : State) (sid : Bytes) (op : Op)
    (r : CoResult) (s : Server) : Prop :=
  ∃ v' a', Serves c N t s v' a' ∧ Step (v.spared sid op.key) a sid op r a'

/-! ## Parts of operations -/

section Lengths

variable {N : Naming} {k : Bytes}

theorem Naming.Key.length_lt (h : N.Key k) : k.length < 256 :=
  Nat.lt_of_le_of_lt h.short (by decide)

theorem Naming.Key.length_leaseKey (h : N.Key k) : (leaseKey k).length < 256 := by
  have := h.short
  simp only [leaseKey, length_cons, keyMaxLen] at this ⊢
  omega

theorem Naming.Key.length_versionKey (h : N.Key k) : (versionKey k).length < 256 := by
  have := h.short
  simp only [versionKey, length_cons, keyMaxLen] at this ⊢
  omega

theorem Naming.Key.length_coLeaseKey (h : N.Key k) : (coLeaseKey k).length < 256 := by
  have := h.short
  simp only [coLeaseKey, length_cons, keyMaxLen] at this ⊢
  omega

end Lengths

namespace HoldOf

variable {N : Naming}

variable (hof : HoldOf N it h)

include hof

theorem hasCLease : it.hasCLease = decide (h.kind = .shared) := by
  rw [Item.hasCLease, hof.flag]
  cases h.kind <;> rfl

theorem hasOLeaseInv : it.hasOLeaseInv = decide (h.kind = .invalidate) := by
  rw [Item.hasOLeaseInv, hof.flag]
  cases h.kind <;> rfl

theorem hasOLeaseRef : it.hasOLeaseRef = decide (h.kind = .refresh) := by
  rw [Item.hasOLeaseRef, hof.flag]
  cases h.kind <;> rfl

theorem hasOLease : it.hasOLease = decide (h.kind ≠ .shared) := by
  rw [Item.hasOLease, hof.hasOLeaseInv, hof.hasOLeaseRef]
  cases h.kind <;> rfl

theorem wlp_itemCheckEntry {Q : Bool → Server → Prop} (hsid : N.Sid sid) :
    wlp (itemCheckEntry (some it) sid) Q c s ↔ Q (decide (sid ∈ h.holders)) s := by
  obtain ⟨ks, henc, hks⟩ := hof.lists
  rw [wlp_itemCheckEntry_sight (o := some it) henc hsid.short, ← hks]
  simp only [mem_toFinset]

end HoldOf

@[simp] theorem Sight.spared_self (v : Sight) (sid key : Bytes) : v.spared sid key sid = true := by
  rw [Sight.spared, decide_eq_true rfl, Bool.true_or]

section Parts

variable {N : Naming} {t : Clock} {v : Sight} {a : State} {key : Bytes}

/-- The record of a session that has not been aborted. -/
theorem SessOf.sessStatus_eq_iff {q : Sess} (hof : SessOf N it q) : it.sessStatus = .abort ↔
      q.aborted = true := by
  rw [hof.status]
  cases q.aborted <;> simp

section

variable (hs : Serves c N t s v a)

include hs

theorem Serves.dropSess (hsid : N.Sid sid) (hit : v.find sid = some it)
    (hQ : ∀ s', Serves c N t s' (v.set sid none) (a.drop sid) → Q () s') :
    wlp (itemUnlink it) Q c s := by
  exact wlp_itemUnlink_sight hs.sees hit fun s' hs' => hQ s' ⟨hs', hs.repr.setSess hsid .none⟩

/-- How every operation starts. -/
theorem Serves.sessAborted {Q : Bool → Server → Prop} (hsid : N.Sid sid)
    (hforget : a.marked sid = true → ∀ s', Serves c N t s' (v.set sid none)
      (a.drop sid) → Q true s') (halive : a.marked sid = false →
      ∀ s', Serves c N t s' v a → Q false s') : wlp (itemSessAborted sid) Q c s := by
  rw [itemSessAborted, wlp_bind]
  refine hs.get fun s₁ hs₁ => ?_
  rcases hs.repr.sess_cases hsid with ⟨hnone, hsess⟩ | ⟨it, q, hit, hq, hof⟩
  · rw [hnone]
    exact .pure (halive (by rw [State.marked, hsess]; rfl) s₁ hs₁)
  · rw [hit]
    have hmarked : a.marked sid = q.aborted := by rw [State.marked, hq, Option.any_some]
    dsimp only
    split
    · next habort =>
      refine .bind (hs₁.dropSess hsid hit fun s₂ hs₂ => .pure (hforget ?_ s₂ hs₂))
      rwa [hmarked, ← hof.sessStatus_eq_iff]
    · next habort =>
      refine .pure (halive ?_ s₁ hs₁)
      rwa [hmarked, Bool.eq_false_iff, ne_eq, ← hof.sessStatus_eq_iff]

/-- Enter a key in the list of a session. -/
theorem Serves.enter (hsid : N.Sid sid) (hkey : N.Key key) (hmarked : a.marked sid = false)
    (hQ : ∀ s' v', Serves c N t s' v' (a.enter sid key) →
      (∀ n, n ≠ sid → v'.find n = v.find n) → Q () s') :
    wlp (itemAssocKeySid (v.find sid) key sid) Q c s := by
  rw [itemAssocKeySid]
  -- what is in the list of the session, whether there is one or not
  obtain ⟨ks, hlists, hkeys, hmem⟩ : ∃ ks, Lists ks (v.find sid) ∧ ks.toFinset = a.keys sid ∧
    ∀ k ∈ ks, N.Key k := by
    rcases hs.repr.sess_cases hsid with ⟨hnone, hsess⟩ | ⟨it, q, hit, hq, hof⟩
    · exact ⟨[], by rw [hnone]; rfl, by rw [State.keys, hsess]; rfl, nofun⟩
    · obtain ⟨ks, henc, hks⟩ := hof.lists
      exact ⟨ks, by rw [hit]; exact henc, by rw [State.keys, hq, hks]; rfl,
        fun k hk => hof.keys k (hks ▸ mem_toFinset.mpr hk)⟩
  refine wlp_itemAddEntry_sight hs.sees hsid.short hlists hkey.length_lt (fun hpresent => ?_)
    fun habsent s' it hnew henc _ _ hs' => ?_
  · refine hQ s v ?_ fun _ _ => rfl
    rcases hs.repr.sess_cases hsid with ⟨hnone, hsess⟩ | ⟨it, q, hit, hq, hof⟩
    · rw [hnone] at hlists
      cases hlists
      cases hpresent
    · rw [State.marked, hq, Option.any_some] at hmarked
      have hin : key ∈ q.keys := by
        rw [State.keys, hq, Option.elim_some] at hkeys
        rwa [← hkeys, mem_toFinset]
      rwa [enter_of_mem hq hmarked hin]
  · refine hQ s' _ ⟨hs', hs.repr.alloc.setSess (q := some ⟨false, insert key (a.keys sid)⟩)
      hsid (.some ?_)⟩
      fun n hn => Sight.find_set_of_ne hn
    exact
      { status := hnew.sessStatus
        lists := by
          refine ⟨_, henc, ?_⟩
          ext k
          rw [mem_toFinset, mem_insertKey, mem_insert, ← hkeys, mem_toFinset]
        keys := fun k hk => by
          rcases mem_insert.mp hk with rfl | hk
          · exact hkey
          · exact hmem k (mem_toFinset.mp (hkeys ▸ hk)) }

/-- Enter a session in the session lease of a key. -/
theorem Serves.join (kind : Kind) (hsid : N.Sid sid) (hkey : N.Key key)
    (hkind : ∀ h, (a.cell key).hold = some h → h.kind = kind)
    (hQ : ∀ s' v', Serves c N t s' v' (a.setCell key { a.cell key with
        hold := some ⟨kind, insert sid ((a.cell key).hold.elim ∅ Hold.holders)⟩ }) →
      (∀ n, n ≠ coLeaseKey key → v'.find n = v.find n) → Q () s') :
    wlp (itemAssocSidColease (v.find (coLeaseKey key)) key sid kind.flag) Q c s := by
  rw [itemAssocSidColease]
  rcases hs.repr.hold_cases hkey with ⟨hnone, hhold⟩ | ⟨it, h, hit, hhold, hof⟩
  · rw [hnone]
    refine wlp_itemAddEntry_sight (o := none) hs.sees hkey.length_coLeaseKey rfl hsid.short nofun
      fun _ s' it hnew henc _ hco hs' => ?_
    refine hQ s' _ ⟨hs', hs.repr.newHold hkey ?_ hnew.addr⟩ fun n hn => Sight.find_set_of_ne hn
    rw [hhold, Option.elim_none]
    exact
      { flag := hco
        lists := ⟨_, henc, by ext k; simp [mem_insertKey]⟩
        sids := fun r hr => by
          obtain rfl := Finset.mem_singleton.mp hr
          exact hsid
        nonempty := Finset.insert_nonempty .. }
  · obtain ⟨ks, henc, hks⟩ := hof.lists
    rw [hit]
    refine wlp_itemAddEntry_sight (o := some it) hs.sees hkey.length_coLeaseKey henc hsid.short
      (fun hpresent => ?_)
      fun habsent s' it' hnew henc' _ hco hs' => ?_
    · refine hQ s v ?_ fun _ _ => rfl
      have hin : sid ∈ h.holders := hks ▸ List.mem_toFinset.mpr hpresent
      have hsame : (⟨kind, insert sid h.holders⟩ : Hold) = h := by
        rw [Finset.insert_eq_of_mem hin, ← hkind h hhold]
      rw [hhold, Option.elim_some, hsame, ← hhold, State.setCell_self]
      exact hs
    · refine hQ s' _ ⟨hs', hs.repr.newHold hkey ?_ hnew.addr⟩ fun n hn => Sight.find_set_of_ne hn
      rw [hhold, Option.elim_some]
      exact
        { flag := hco
          lists := ⟨_, henc', by
            ext k
            rw [List.mem_toFinset, mem_insertKey, Finset.mem_insert, ← hks, List.mem_toFinset]⟩
          sids := fun r hr => by
            rcases Finset.mem_insert.mp hr with rfl | hr
            · exact hsid
            · exact hof.sids r hr
          nonempty := Finset.insert_nonempty .. }

/-- Make the session lease of a key that nobody holds. -/
theorem Serves.occupy (kind : Kind) (hsid : N.Sid sid) (hkey : N.Key key)
    (hfree : (a.cell key).hold = none)
    (hQ : ∀ s' v', Serves c N t s' v'
      (a.setCell key { a.cell key with hold := some ⟨kind, {sid}⟩ }) →
      (∀ n, n ≠ coLeaseKey key → v'.find n = v.find n) → Q () s') :
    wlp (itemAssocSidColease none key sid kind.flag) Q c s := by
  have hnone : v.find (coLeaseKey key) = none := by
    rcases hs.repr.hold_cases hkey with ⟨hnone, -⟩ | ⟨-, h, -, hhold, -⟩
    · exact hnone
    · rw [hfree] at hhold
      cases hhold
  rw [← hnone]
  refine hs.join kind hsid hkey (by simp [hfree]) fun s' v' hs' hv' => hQ s' v' ?_ hv'
  rwa [hfree] at hs'

/-- A lease without a token. -/
theorem Serves.sessionLease {kind : Lease} {Q : Item → Server → Prop} (hkey : N.Key key)
    (hkind : kind = .qRef ∨ kind = .qInv) (hQ : ∀ s' l l', l.lease = kind → l'.exptime = t.expiry →
      Serves c N t s' (v.alloc.set (leaseKey key) (some l))
      (a.setCell key { a.cell key with lease := some l }) → Q l' s') :
    wlp (itemCreateSessionLease key kind) Q c s := by
  rw [itemCreateSessionLease, wlp_bind]
  refine wlp_itemCreateReservedItem_sight hs.sees fun s₁ l hnew _ _ _ hs₁ => ?_
  rw [wlp_bind, deref_some, wlp_pure]
  dsimp only
  rw [wlp_bind]
  have hne : kind ≠ .none := by rcases hkind with rfl | rfl <;> nofun
  refine wlp_itemStore_sight hs₁ (Item.storable_of_lease hne) (t.unexpired hnew.exptime)
    fun s₂ l' hst hs₂ => .pure ?_
  have hlname : l.key = leaseKey key := hnew.key.trans (u8Name_of_lt hkey.length_leaseKey)
  dsimp only at hs₂
  rw [hlname] at hs₂
  refine hQ s₂ l' _ hst.lease hnew.exptime ⟨hs₂, hs.repr.alloc.setLease hkey ?_⟩
  rintro _ ⟨⟩
  have hl : l'.lease = kind := hst.lease
  rcases hkind with rfl | rfl <;>
    simp [Item.isLeaseHolder, Item.hasILease, Item.hasQLease, Item.hasQInvLease,
    Item.hasQRefLease, hl]

/-- A pending version with the payload of an item. -/
theorem Serves.storeVersion {m : Item → ServerM α} {Q : α → Server → Prop} (hkey : N.Key it.key)
    (hdata : it.data ≠ []) (hQ : ∀ s' pv pv', Writes it pv' → pv'.ralign = false → pv.Stamped pv' →
      Serves c N t s' (v.alloc.set (versionKey it.key) (some pv'))
      (a.setCell it.key { a.cell it.key with version := some pv' }) →
      wlp (m pv) Q c s') : wlp (do
      let pvIt ← deref (← itemCreatePendingVersion it it.data)
      let _ ← itemStore pvIt .set
      m pvIt) Q c s := by
  refine .bind (wlp_itemCreatePendingVersion_sight hs.sees fun s₁ pv hnew hpvdata hpvflags hs₁ =>
    ?_)
  rw [wlp_bind, deref_some, wlp_pure, wlp_bind]
  have hstorable : pv.storable = true := by simp [Item.storable, Item.nbyte, hpvdata, hdata]
  refine wlp_itemStore_sight hs₁ hstorable (t.unexpired hnew.exptime) fun s₂ pv' hst hs₂ => ?_
  have hpvname : pv.key = versionKey it.key := hnew.key.trans (u8Name_of_lt hkey.length_versionKey)
  rw [hpvname] at hs₂
  have hw : Writes it pv' := ⟨hst.data.trans hpvdata, hst.dataflags.trans hpvflags⟩
  refine hQ s₂ pv pv' hw (hst.ralign.trans hnew.ralign) hst ⟨hs₂, hs.repr.alloc.setVersion hkey ?_⟩
  rintro _ ⟨⟩
  rw [hw.data]
  exact hdata

/-- An I lease is dropped before the lease is looked at. -/
theorem Serves.voidILease {m : Option Item → ServerM α} {Q : α → Server → Prop} (hkey : N.Key key)
    (hvoid : (∀ l, (a.cell key).lease = some l → l.hasILease = true) → ∀ s',
      Serves c N t s' (v.set (leaseKey key) none)
      (a.setCell key { a.cell key with lease := none }) →
      wlp (m none) Q c s')
    (hkept : ∀ l, (a.cell key).lease = some l → l.hasILease = false → l.hasQLease = true →
      wlp (m (some l)) Q c s) :
    wlp (itemVoidILease (v.find (leaseKey key)) >>= m) Q c s := by
  have hcell := hs.repr.cell key hkey
  rw [wlp_bind]
  cases hlease : (a.cell key).lease with
  | none =>
    rw [hcell.lease, hlease]
    refine .pure (hvoid (by simp [hlease]) s ?_)
    have hsame : ({ a.cell key with lease := none } : Cell) = a.cell key := by rw [← hlease]
    rwa [hsame, setCell_self, Sight.set_find (hcell.lease.trans hlease)]
  | some l =>
    rw [hcell.lease, hlease, itemVoidILease]
    by_cases hi : l.hasILease = true
    · rw [if_pos hi, wlp_bind]
      exact wlp_itemUnlink_sight hs.sees (hcell.lease.trans hlease) fun s₁ hs₁ =>
        .pure (hvoid (by simp [hlease, hi]) s₁ ⟨hs₁, hs.repr.setLease hkey (by simp)⟩)
    · have hkind := hcell.kind l hlease
      rw [Bool.not_eq_true] at hi
      rw [Item.isLeaseHolder, hi, Bool.false_or] at hkind
      rw [if_neg (by simp [hi])]
      exact .pure (hkept l hlease hi hkind)

/-- The expiry of a value is set. -/
theorem Serves.retime {exptime : Nat} (hkey : N.Key key) (hexp : exptime = 0 ∨ exptime = t.expiry)
    (hQ : ∀ s' v' value, Serves c N t s' v' (a.setCell key { a.cell key with value := value }) →
      Option.Rel Retimed (a.cell key).value value →
      (∀ n, n ≠ key → v'.find n = v.find n) → Q () s') :
    wlp (whenSome (v.find key) fun it => itemWrite it fun it =>
        { it with exptime := exptime }) Q c s := by
  have hvalue := (hs.repr.cell key hkey).value
  cases hit : v.find key with
  | none =>
    rw [hit] at hvalue
    refine .pure (hQ s v none ?_ (hvalue ▸ .none) fun _ _ => rfl)
    rwa [hvalue, setCell_self]
  | some it =>
    obtain rfl := hs.sees.key_eq hit
    rw [whenSome_some]
    refine wlp_itemRetime_sight hs.sees hit hexp fun s' hs' => ?_
    refine hQ s' _ _ ⟨hs', hs.repr.setValue hkey ?_⟩ ?_ fun n hn => Sight.find_set_of_ne hn
    · rintro _ ⟨⟩
      exact (hs.repr.cell it.key hkey).filled it (.inr (hvalue.symm.trans hit))
    · rw [← hvalue, hit]
      exact .some ⟨exptime, rfl⟩

/-- How the writing operations meet the session lease of their key. -/
theorem Serves.exclusive {Q : Exclusive → Server → Prop} (hsid : N.Sid sid) (hkey : N.Key key)
    (hmarked : a.marked sid = false) (hfree : (∀ h, (a.cell key).hold = some h → h.kind = .shared) →
      ∀ s' v', Serves c N t s' v' (a.vacate (v.spared sid key) key) → Q .free s')
    (hown : ∀ h, (a.cell key).hold = some h → h.kind ≠ .shared → sid ∈ h.holders →
      ∀ s', Serves c N t s' v a → Q .own s')
    (hrefused : ∀ h, (a.cell key).hold = some h → h.kind ≠ .shared → sid ∉ h.holders →
      ∀ s' v', Serves c N t s' v' (a.clean sid) → Q .refused s') :
    wlp (itemExclusive sid key) Q c s := by
  rw [itemExclusive, wlp_bind]
  refine hs.get fun s₁ hs₁ => ?_
  rcases hs.repr.hold_cases hkey with ⟨hnone, hhold⟩ | ⟨it, h, hit, hhold, hof⟩
  · rw [hnone]
    refine .pure (hfree (by simp [hhold]) s₁ v ?_)
    rwa [vacate_of_none hhold]
  · rw [hit]
    dsimp only
    rw [hof.hasCLease]
    by_cases hkind : h.kind = .shared
    · rw [decide_eq_true hkind, if_pos rfl]
      exact hs₁.vacate hkey hit fun s₂ v₂ hs₂ => .pure (hfree (by simp [hhold, hkind]) s₂ v₂ hs₂)
    · rw [decide_eq_false hkind, if_neg Bool.false_ne_true, hof.hasOLease, decide_eq_true hkind,
        if_pos rfl, wlp_bind, hof.wlp_itemCheckEntry hsid]
      by_cases hmem : sid ∈ h.holders
      · rw [decide_eq_true hmem]
        exact .pure (hown h hhold hkind hmem s₁ hs₁)
      · rw [decide_eq_false hmem, if_neg Bool.false_ne_true, wlp_bind]
        exact (wlp_cleanSession hs₁ hsid hmarked).mono fun _ s₂ ⟨v₂, hs₂, _⟩ =>
          .pure (hrefused h hhold hkind hmem s₂ v₂ hs₂)

/-- An operation is refused if its session has been aborted. -/
theorem Serves.start {m : ServerM α} {x : α} {f : α → CoResult} (hsid : N.Sid sid)
    (hx : f x = .abort)
    (hm : a.marked sid = false → ∀ s', Serves c N t s' v a →
      wlp m (fun r => Refines c N t v a sid op (f r)) c s') :
    wlp (do if ← itemSessAborted sid then return x else m)
      (fun r => Refines c N t v a sid op (f r)) c s := by
  refine .bind (hs.sessAborted hsid (fun hmarked s' hs' => ?_) fun hmarked s' hs' =>
    hm hmarked s' hs')
  rw [if_pos rfl, wlp_pure, hx]
  exact ⟨_, _, hs', .forget hmarked⟩

end

end Parts

/-! ## Reading -/

section Reading

variable {N : Naming} {t : Clock} {v : Sight} {a : State} {key : Bytes} {leaseToken : UInt64}

variable (hs : Serves c N t s v a)

include hs

/-- An I lease on a key without one. -/
theorem Serves.iLease {Q : Option Item × UInt64 → Server → Prop} (hkey : N.Key key)
    (hQ : ∀ s' l token, (∀ Q' : Unit → Server → Prop, (∀ s'' l', l'.lease = .i →
      Serves c N t s'' (v.alloc.set (leaseKey key) (some l'))
      (a.setCell key { a.cell key with lease := some l' }) → Q' () s'') →
        wlp (do let _ ← itemStore l .set) Q' c s') → Q (some l, token) s') :
    wlp (itemCreateLease key .i) Q c s := by
  refine wlp_itemCreateLease_sight hs.sees fun s₁ l token hnew hlease hs₁ =>
    hQ s₁ l token fun Q' hQ' => ?_
  have hne : l.lease ≠ .none := by rw [hlease]; nofun
  have hname : l.key = leaseKey key := hnew.key.trans (u8Name_of_lt hkey.length_leaseKey)
  refine .bind (wlp_itemStore_sight hs₁ (Item.storable_of_lease hne) (t.unexpired hnew.exptime)
    fun s₂ l' hst hs₂ => .pure ?_)
  rw [hname] at hs₂
  have hi : l'.lease = .i := hst.lease.trans hlease
  refine hQ' s₂ l' hi ⟨hs₂, hs.repr.alloc.setLease hkey ?_⟩
  rintro _ ⟨⟩
  simp [Item.isLeaseHolder, Item.hasILease, hi]

/-- The end of `item_ciget`. -/
theorem refines_itemCigetShare (hsid : N.Sid sid) (hkey : N.Key key)
    (hmarked : a.marked sid = false) (hhold : ∀ h, (a.cell key).hold = some h → h.kind = .shared)
    (hlease : (a.cell key).lease = none) : wlp (itemCigetShare sid key (v.find (coLeaseKey key)))
      (fun r => Refines c N t v a sid (.ciget key leaseToken) r.status) c s := by
  rw [itemCigetShare, wlp_bind]
  refine hs.get fun s₁ hs₁ => ?_
  refine .bind (hs₁.enter hsid hkey hmarked fun s₂ v₂ hs₂ hv₂ => ?_)
  refine .bind (hs₂.get fun s₃ hs₃ => ?_)
  have hco : v₂.find (coLeaseKey key) = v.find (coLeaseKey key) :=
    hv₂ _ hsid.unprefixed.ne_coLeaseKey.symm
  have hvalue : v₂.find key = (a.cell key).value := (hs₃.repr.cell key hkey).value
  rw [← hco]
  cases hit : (a.cell key).value with
  | some it =>
    rw [hvalue, hit, wlp_bind]
    refine hs₃.join .shared hsid hkey hhold fun s₄ v₄ hs₄ _ => .pure ⟨v₄, _, hs₄, ?_⟩
    exact .share hmarked hhold hlease rfl rfl rfl (fun _ => hlease)
      fun hnone => by rw [hit] at hnone; cases hnone
  | none =>
    rw [hvalue, hit, wlp_bind]
    refine hs₃.iLease hkey fun s₄ l token hstore => ?_
    dsimp only
    rw [whenSome_some, wlp_bind]
    refine hstore _ fun s₅ l' hl' hs₅ => ?_
    have hco' : v₂.find (coLeaseKey key) = (v₂.alloc.set (leaseKey key) (some l')).find
      (coLeaseKey key) := by
      rw [Sight.find_set_of_ne coLeaseKey_ne_leaseKey, Sight.find_alloc]
    rw [wlp_bind, hco']
    refine hs₅.join .shared hsid hkey ?_ fun s₆ v₆ hs₆ _ => .pure ⟨v₆, _, hs₆, ?_⟩
    · rwa [cell_setCell_self]
    · rw [setCell_setCell, cell_setCell_self]
      exact .share hmarked hhold hlease rfl rfl rfl (fun hne => absurd hit hne) fun _ =>
        ⟨l', rfl, hl'⟩

/-- `item_ciget` on a key with a Q lease. -/
theorem refines_itemCigetQuarantined {l : Item} (hsid : N.Sid sid) (hkey : N.Key key)
    (hmarked : a.marked sid = false) (hhold : ∀ h, (a.cell key).hold = some h → h.kind = .shared)
    (hlease : (a.cell key).lease = some l) (hq : l.hasQLease = true) :
    wlp (itemCigetQuarantined sid key) (fun r => Refines c N t v a sid (.ciget key leaseToken)
        r.status) c s := by
  rw [itemCigetQuarantined, wlp_bind]
  refine hs.get fun s₁ hs₁ => ?_
  rcases hs.repr.sess_cases hsid with ⟨hnone, hsess⟩ | ⟨it, q, hit, hsess, hof⟩
  · rw [hnone]
    exact .pure ⟨v, a, hs₁, .quarantined hmarked hhold hlease hq (.inl rfl)⟩
  · rw [hit]
    dsimp only
    rw [wlp_bind, wlp_deref]
    rintro (_ | _) hcheck
    · exact .pure ⟨v, a, hs₁, .quarantined hmarked hhold hlease hq (.inl rfl)⟩
    · obtain ⟨ks, henc, hks⟩ := hof.lists
      rw [u8Name_of_lt hkey.length_lt] at hcheck
      have hmem : key ∈ a.keys sid := by
        rw [State.keys, hsess, Option.elim_some, ← hks, mem_toFinset]
        exact henc.mem_of_check hcheck
      rw [if_pos rfl, wlp_bind]
      exact hs₁.get fun s₂ hs₂ =>
        .pure ⟨v, a, hs₂, .quarantined hmarked hhold hlease hq (.inr ⟨rfl, hmem⟩)⟩

/-- What `item_ciget` does when no other session may write the key. -/
theorem refines_cigetLease (hsid : N.Sid sid) (hkey : N.Key key) (hmarked : a.marked sid = false)
    (hhold : ∀ h, (a.cell key).hold = some h → h.kind = .shared) {o : Option Item}
    (ho : v.find (coLeaseKey key) = o) :
    wlp (do
      match ← itemGetLease key with
      | none => itemCigetShare sid key o
      | some leaseIt =>
        if leaseIt.hasILease then
          if leaseIt.leaseValue = leaseToken then return ⟨.ok, none, 0⟩
          else return ⟨.retry, none, 0⟩
        else if leaseIt.hasQLease then itemCigetQuarantined sid key
        else itemCigetShare sid key o)
      (fun r => Refines c N t v a sid (.ciget key leaseToken) r.status) c s := by
  subst ho
  refine .bind (hs.get fun s₁ hs₁ => ?_)
  have hcell := hs.repr.cell key hkey
  rw [hcell.lease]
  cases hl : (a.cell key).lease with
  | none => exact refines_itemCigetShare hs₁ hsid hkey hmarked hhold hl
  | some l =>
    dsimp only
    by_cases hi : l.hasILease = true
    · rw [if_pos hi]
      have hstep : Step (v.spared sid key) a sid (.ciget key leaseToken) _ a :=
        .leased hmarked hhold hl hi
      split
      · next htoken =>
        rw [if_pos htoken] at hstep
        exact .pure ⟨v, a, hs₁, hstep⟩
      · next htoken =>
        rw [if_neg htoken] at hstep
        exact .pure ⟨v, a, hs₁, hstep⟩
    · have hq : l.hasQLease = true := by
        have hkind := hcell.kind l hl
        rw [Item.isLeaseHolder, Bool.eq_false_iff.mpr hi, Bool.false_or] at hkind
        exact hkind
      rw [if_neg hi, if_pos hq]
      exact refines_itemCigetQuarantined hs₁ hsid hkey hmarked hhold hl hq

theorem refines_ciget (hsid : N.Sid sid) (hkey : N.Key key) :
    wlp ((Op.ciget key leaseToken).exec sid)
      (Refines c N t v a sid (.ciget key leaseToken)) c s := by
  rw [Op.exec, wlp_bind]
  refine wlp.mono (Q := fun r => Refines c N t v a sid (.ciget key leaseToken) r.status) ?_
    fun r s' hr => .pure hr
  refine hs.start hsid rfl fun hmarked s₁ hs₁ => ?_
  refine .bind (hs₁.get fun s₂ hs₂ => ?_)
  rcases hs.repr.hold_cases hkey with ⟨hnone, hhold⟩ | ⟨it, h, hit, hhold, hof⟩
  · rw [hnone, Option.any_none, if_neg Bool.false_ne_true]
    exact refines_cigetLease hs₂ hsid hkey hmarked (by simp [hhold]) hnone
  · rw [hit, Option.any_some, hof.hasOLease]
    by_cases hkind : h.kind = .shared
    · rw [decide_eq_false (not_not.mpr hkind), if_neg Bool.false_ne_true]
      exact refines_cigetLease hs₂ hsid hkey hmarked (by simp [hhold, hkind]) hit
    · rw [decide_eq_true hkind, if_pos rfl, wlp_bind, hof.wlp_itemCheckEntry hsid]
      by_cases hmem : sid ∈ h.holders
      · rw [decide_eq_true hmem, if_pos rfl, wlp_bind]
        exact hs₂.get fun s₃ hs₃ =>
          .pure ⟨v, a, hs₃, .ownRead hmarked (.inr ⟨_, rfl⟩) hhold hkind hmem⟩
      · rw [decide_eq_false hmem, if_neg Bool.false_ne_true, wlp_bind]
        refine (wlp_cleanSession hs₂ hsid hmarked).mono ?_
        rintro _ s₃ ⟨v₃, hs₃, _⟩
        exact .pure ⟨v₃, _, hs₃, .foreign hmarked rfl hhold hkind hmem⟩

end Reading

/-! ## Writing -/

section Writing

variable {N : Naming} {t : Clock} {v v₁ : Sight} {a : State} {key : Bytes}

/-- The end of `item_oqread`. -/
theorem refines_itemOqreadGrant (hs : Serves c N t s v₁ (a.vacate (v.spared sid key) key))
    (hsid : N.Sid sid) (hkey : N.Key key) (hmarked : a.marked sid = false)
    (hhold : ∀ h, (a.cell key).hold = some h → h.kind = .shared)
    (hlease : ∀ l, (a.cell key).lease = some l → l.hasQRefLease = false) :
    wlp (itemOqreadGrant sid key) (fun r => Refines c N t v a sid (.oqread key) r.1) c s := by
  rw [itemOqreadGrant, wlp_bind]
  refine hs.get fun s₁ hs₁ => ?_
  refine .bind (hs₁.sessionLease hkey (.inl rfl) fun s₂ l l' hl hexp hs₂ => ?_)
  have hvalue : v₁.find key = (v₁.alloc.set (leaseKey key) (some l)).find key := by
    rw [Sight.find_set_of_ne hkey.unprefixed.ne_leaseKey, Sight.find_alloc]
  rw [wlp_bind, hvalue]
  refine hs₂.retime hkey (.inr hexp) fun s₃ v₃ value hs₃ hretimed _ => ?_
  refine .bind (hs₃.get fun s₄ hs₄ => ?_)
  refine .bind (hs₄.enter hsid hkey ?_ fun s₅ v₅ hs₅ _ => ?_)
  · rw [marked_setCell, marked_setCell, marked_vacate (Sight.spared_self ..), hmarked]
  refine .bind (hs₅.get fun s₆ hs₆ => ?_)
  refine .bind (hs₆.join .refresh hsid hkey ?_ fun s₇ v₇ hs₇ _ => .pure ⟨v₇, _, hs₇, ?_⟩)
  · simp
  · simp only [enter_setCell, setCell_setCell, cell_setCell_self, cell_vacate,
      Option.elim_none] at hretimed ⊢
    exact .grant hmarked hhold hlease rfl ⟨l, rfl, hl⟩ rfl hretimed

section

variable (hs : Serves c N t s v a)

include hs

theorem refines_oqread (hsid : N.Sid sid) (hkey : N.Key key) :
    wlp ((Op.oqread key).exec sid) (Refines c N t v a sid (.oqread key)) c s := by
  rw [Op.exec, wlp_bind]
  refine wlp.mono (Q := fun r => Refines c N t v a sid (.oqread key) r.1) ?_ fun r s' hr => .pure hr
  refine hs.start hsid rfl fun hmarked s₁ hs₁ => ?_
  refine .bind (hs₁.exclusive hsid hkey hmarked (fun hhold s₂ v₂ hs₂ => ?_)
    (fun h hhold hkind hmem s₂ hs₂ => ?_) fun h hhold hkind hmem s₂ v₂ hs₂ => ?_)
  · dsimp only
    rw [itemOqreadLease, wlp_bind]
    refine hs₂.get fun s₃ hs₃ => ?_
    have hl := (hs₃.repr.cell key hkey).lease
    rw [cell_vacate] at hl
    rw [hl]
    dsimp only
    cases hlease : (a.cell key).lease with
    | none => exact refines_itemOqreadGrant hs₃ hsid hkey hmarked hhold (by simp [hlease])
    | some l =>
      dsimp only
      split
      · next hq =>
        rw [hlease] at hl
        refine .bind (wlp_itemWrite_sight hs₃.sees hl (fun _ => rfl) ⟨rfl,
          rfl⟩ fun s₄ hs₄ => .pure ?_)
        refine ⟨_, _, ⟨hs₄, hs₃.repr.setLease hkey ?_⟩, ?_⟩
        · rintro _ ⟨⟩
          exact (hs.repr.cell key hkey).kind l hlease
        · rw [cell_vacate]
          exact .occupied hmarked hhold hlease hq rfl
      · next hq =>
        refine refines_itemOqreadGrant hs₃ hsid hkey hmarked hhold fun l' h => ?_
        rw [hlease] at h
        cases h
        exact Bool.eq_false_iff.mpr hq
  · dsimp only
    exact .bind (hs₂.get fun s₃ hs₃ => .pure ⟨v, a, hs₃,
      .ownRead hmarked (.inl rfl) hhold hkind hmem⟩)
  · exact .pure ⟨v₂, _, hs₂, .foreign hmarked rfl hhold hkind hmem⟩

/-- The end of `item_oqswap`. -/
theorem refines_itemOqswapLeased (hkey : N.Key it.key) (hmarked : a.marked sid = false)
    (hhold : (a.cell it.key).hold = some h) (hkind : h.kind ≠ .shared) (hmem : sid ∈ h.holders) :
    wlp (itemOqswapLeased it) (Refines c N t v a sid (.oqswap it)) c s := by
  rw [itemOqswapLeased, wlp_bind]
  refine hs.get fun s₁ hs₁ => ?_
  have hl := (hs.repr.cell it.key hkey).lease
  cases hlease : (a.cell it.key).lease with
  | none =>
    rw [hl, hlease]
    refine .pure ⟨v, a, hs₁, .unheld hmarked (.inr ⟨⟨h, hhold, hkind, hmem⟩, fun l hl => ?_, rfl⟩)⟩
    rw [hlease] at hl
    cases hl
  | some l =>
    rw [hl, hlease]
    dsimp only
    by_cases hq : l.hasQRefLease = true
    · rw [hq, Bool.not_true, if_neg Bool.false_ne_true, wlp_bind]
      have hfound : v.find (leaseKey it.key) = some l := hl.trans hlease
      have hdrop := hs₁.dropLease (Q := fun _ s' => wlp (if it.nbyte = 0 then pure .invalid else do
        itemStorePendingVersion it; pure .ok) (Refines c N t v a sid (.oqswap it)) c s') hkey
      rw [hfound, whenSome_some] at hdrop
      refine hdrop fun s₂ hs₂ => ?_
      split
      · next hempty => exact .pure ⟨_, _, hs₂, .emptied hmarked hhold hkind hmem hlease hq hempty⟩
      · next hfilled =>
        rw [wlp_bind, itemStorePendingVersion]
        refine hs₂.storeVersion hkey (fun hnil => hfilled (by rw [Item.nbyte, hnil]; rfl))
          fun s₃ _ pv hpv _ _ hs₃ => .pure (.pure ⟨_, _, hs₃, ?_⟩)
        rw [setCell_setCell, cell_setCell_self]
        exact .swap hmarked hhold hkind hmem hlease hq hfilled hpv
    · rw [Bool.eq_false_iff.mpr hq, Bool.not_false, if_pos rfl]
      refine .pure ⟨v, a, hs₁, .unheld hmarked (.inr ⟨⟨h, hhold, hkind, hmem⟩,
        fun l' hl' => ?_, rfl⟩)⟩
      rw [hlease] at hl'
      cases hl'
      exact Bool.eq_false_iff.mpr hq

theorem refines_oqswap (hsid : N.Sid sid) (hkey : N.Key it.key) :
    wlp ((Op.oqswap it).exec sid) (Refines c N t v a sid (.oqswap it)) c s := by
  refine hs.start (f := id) hsid rfl fun hmarked s₁ hs₁ => ?_
  refine .bind (hs₁.get fun s₂ hs₂ => ?_)
  rcases hs.repr.hold_cases hkey with ⟨hnone, hhold⟩ | ⟨coleaseIt, h, hit, hhold, hof⟩
  · rw [hnone]
    exact .pure ⟨v, a, hs₂, .unheld hmarked (.inl ⟨by simp [hhold], rfl⟩)⟩
  · rw [hit]
    dsimp only
    rw [hof.hasCLease]
    by_cases hkind : h.kind = .shared
    · rw [decide_eq_true hkind, if_pos rfl]
      exact .pure ⟨v, a, hs₂, .unheld hmarked (.inl ⟨by simp [hhold, hkind], rfl⟩)⟩
    · rw [decide_eq_false hkind, if_neg Bool.false_ne_true, hof.hasOLease, decide_eq_true hkind,
        if_pos rfl, wlp_bind, hof.wlp_itemCheckEntry hsid]
      by_cases hmem : sid ∈ h.holders
      · rw [decide_eq_true hmem, if_pos rfl]
        exact refines_itemOqswapLeased hs₂ hkey hmarked hhold hkind hmem
      · rw [decide_eq_false hmem, if_neg Bool.false_ne_true, wlp_bind]
        exact wlp_itemUnlink_sight hs₂.sees hit fun s₃ hs₃ =>
          .pure ⟨_, _, ⟨hs₃, hs₂.repr.dropHold hkey⟩, .robbed hmarked hhold hkind hmem⟩

/-- The pending version that `item_oqwrite` leaves. -/
theorem Serves.leaveVersion (hkey : N.Key it.key)
    (hQ : ∀ s' v' version, Serves c N t s' v'
      (a.setCell it.key { a.cell it.key with version := version }) →
      Leaves it version → Q () s') : wlp (itemOqwriteVersion it) Q c s := by
  rw [itemOqwriteVersion]
  split
  · next hempty =>
    exact .bind (hs.get fun s₁ hs₁ => hs₁.dropVersion hkey fun s₂ hs₂ =>
      hQ s₂ _ none hs₂ (by rw [Leaves, if_pos hempty]))
  · next hfilled =>
    refine hs.storeVersion hkey (fun hnil => hfilled (by rw [Item.nbyte, hnil]; rfl))
      fun s₁ _ pv hpv _ _ hs₁ => ?_
    exact .pure (hQ s₁ _ (some pv) hs₁ (by rw [Leaves, if_neg hfilled]; exact ⟨pv, rfl, hpv⟩))

/-- The end of `item_oqwrite`. -/
theorem Serves.writeBody {Q : CoResult → Server → Prop} (hsid : N.Sid sid) (hkey : N.Key it.key)
    (hmarked : a.marked sid = false) (hQ : ∀ s' v' version, Leaves it version →
      Serves c N t s' v' ((a.enter sid it.key).setCell it.key
      { a.cell it.key with version := version }) → Q .ok s') :
    wlp (itemOqwriteBody sid it) Q c s := by
  rw [itemOqwriteBody, wlp_bind]
  refine hs.leaveVersion hkey fun s₁ v₁ version hs₁ hversion => ?_
  refine .bind (hs₁.get fun s₂ hs₂ => ?_)
  exact .bind (hs₂.enter hsid hkey hmarked fun s₃ v₃ hs₃ _ => .pure (hQ s₃ v₃ version hversion hs₃))

/-- `item_oqwrite` on a key that no session holds. -/
theorem Serves.writeFree {Q : CoResult → Server → Prop} (hsid : N.Sid sid) (hkey : N.Key it.key)
    (hmarked : a.marked sid = false) (hfree : (a.cell it.key).hold = none)
    (hQ : ∀ s' v' version, Leaves it version →
      Serves c N t s' v' ((a.enter sid it.key).setCell it.key
      { a.cell it.key with hold := some ⟨.refresh, {sid}⟩, version := version }) → Q .ok s') :
    wlp (itemOqwriteFree sid it) Q c s := by
  rw [itemOqwriteFree, wlp_bind]
  refine hs.occupy .refresh hsid hkey hfree fun s₁ v₁ hs₁ _ => ?_
  refine hs₁.writeBody hsid hkey hmarked fun s₂ v₂ version hversion hs₂ =>
    hQ s₂ v₂ version hversion ?_
  rwa [enter_setCell, setCell_setCell, cell_setCell_self] at hs₂

theorem refines_oqwrite (hsid : N.Sid sid) (hkey : N.Key it.key) :
    wlp ((Op.oqwrite it).exec sid) (Refines c N t v a sid (.oqwrite it)) c s := by
  refine hs.start (f := id) hsid rfl fun hmarked s₁ hs₁ => ?_
  refine .bind (hs₁.get fun s₂ hs₂ => ?_)
  rcases hs.repr.hold_cases hkey with ⟨hnone, hhold⟩ | ⟨coleaseIt, h, hit, hhold, hof⟩
  · rw [hnone]
    refine hs₂.writeFree hsid hkey hmarked hhold fun s₃ v₃ version hversion hs₃ => ⟨v₃, _, hs₃, ?_⟩
    have hstep : Step (v.spared sid it.key) a sid (.oqwrite it) .ok _ :=
      .write hmarked (by simp [hhold]) hversion
    rw [State.vacate_of_none hhold, hhold, Option.isSome_none, if_neg Bool.false_ne_true] at hstep
    exact hstep
  · rw [hit]
    dsimp only
    rw [hof.hasCLease]
    by_cases hkind : h.kind = .shared
    · rw [decide_eq_true hkind, if_pos rfl]
      refine hs₂.vacate hkey hit fun s₃ v₃ hs₃ => ?_
      refine .bind (hs₃.get fun s₄ hs₄ => ?_)
      refine .bind (hs₄.dropLease hkey fun s₅ hs₅ => ?_)
      have hmarked' : (a.vacate (v.spared sid it.key) it.key).marked sid = false := by
        rw [marked_vacate (Sight.spared_self ..), hmarked]
      refine hs₅.writeFree hsid hkey hmarked' ?_ fun s₆ v₆ version hversion hs₆ => ⟨v₆, _, hs₆, ?_⟩
      · rw [cell_setCell_self, cell_vacate]
      · have hstep : Step (v.spared sid it.key) a sid (.oqwrite it) .ok _ := .write hmarked
          (by simp [hhold, hkind]) hversion
        rw [hhold, Option.isSome_some, if_pos rfl] at hstep
        rw [enter_setCell, setCell_setCell, cell_setCell_self, cell_vacate]
        exact hstep
    · rw [decide_eq_false hkind, if_neg Bool.false_ne_true, wlp_bind, hof.wlp_itemCheckEntry hsid]
      by_cases hmem : sid ∈ h.holders
      · rw [decide_eq_true hmem, Bool.not_true, if_neg Bool.false_ne_true, wlp_bind]
        refine hs₂.get fun s₃ hs₃ => ?_
        have hl := (hs.repr.cell it.key hkey).lease
        cases hlease : (a.cell it.key).lease with
        | none =>
          rw [hl, hlease]
          refine hs₃.writeBody hsid hkey hmarked fun s₄ v₄ version hversion hs₄ => ⟨v₄, _, hs₄, ?_⟩
          have hstep : Step (v.spared sid it.key) a sid (.oqwrite it) .ok _ :=
            .rewrite hmarked hhold hkind hmem
            (by simp [hlease]) hversion
          rw [← hlease] at hstep
          exact hstep
        | some l =>
          rw [hl, hlease]
          dsimp only
          by_cases hq : l.hasQRefLease = true
          · rw [hq, Bool.not_true, if_neg Bool.false_ne_true, wlp_bind]
            have hdrop := hs₃.dropLease (Q := fun _ s' => wlp (itemOqwriteBody sid it)
              (Refines c N t v a sid (.oqwrite it)) c s') hkey
            rw [hl.trans hlease, whenSome_some] at hdrop
            refine hdrop fun s₄ hs₄ => ?_
            refine hs₄.writeBody hsid hkey hmarked fun s₅ v₅ version hversion hs₅ =>
              ⟨v₅, _, hs₅, ?_⟩
            rw [enter_setCell, setCell_setCell, cell_setCell_self]
            refine .rewrite hmarked hhold hkind hmem (fun l' hl' => ?_) hversion
            rw [hlease] at hl'
            cases hl'
            exact hq
          · rw [Bool.eq_false_iff.mpr hq, Bool.not_false, if_pos rfl]
            exact .pure ⟨v, a, hs₃, .blocked hmarked hhold hkind hmem hlease
              (Bool.eq_false_iff.mpr hq)⟩
      · rw [decide_eq_false hmem, Bool.not_false, if_pos rfl, wlp_bind]
        exact (wlp_cleanSession hs₂ hsid hmarked).mono fun _ s₃ ⟨v₃, hs₃, _⟩ =>
          .pure ⟨v₃, _, hs₃, .foreign hmarked rfl hhold hkind hmem⟩

end

end Writing

/-! ## Incremental updates -/

section Updating

variable {N : Naming} {t : Clock} {v : Sight} {a : State} {key : Bytes}

/-- What an update makes of a pending version. -/
def Session.Op.Makes (op : Op) (version version' : Option Item) (r : CoResult) : Prop :=
  version.elim (r = .ok ∧ version' = none) fun pv =>
    r = (op.apply pv).1 ∧ ∃ pv', version' = some pv' ∧ pv'.data = (op.apply pv).2 ∧
      pv'.dataflags = pv.dataflags

/-- The part of an incremental update that works on the pending version; `pvIt` is the item that the
caller has in hand, which may lack the stamp of the one in the table. -/
def UpdatesVersion (c : Settings) (N : Naming) (t : Clock) (op : Op) (key : Bytes)
    (update : Option Item → ServerM CoResult) : Prop :=
  ∀ s v a pvIt, Serves c N t s v a → Option.Rel Item.Stamped pvIt (v.find (versionKey key)) →
    wlp (update pvIt) (fun r s' => ∃ v' version', Serves c N t s' v'
      (a.setCell key { a.cell key with version := version' }) ∧
      op.Makes (a.cell key).version version' r) c s

/-- `_item_add_delta_co` works on the pending version, whichever item the caller has in hand. -/
theorem updatesVersion_itemAddDeltaCo (hkey : N.Key key) :
    UpdatesVersion c N t (.oqDelta incr key delta) key fun _ => itemAddDeltaCo incr key delta := by
  intro s v a _ hs _
  have hversion := (hs.repr.cell key hkey).version
  rw [itemAddDeltaCo, wlp_bind, itemAddDelta, wlp_bind]
  refine hs.get fun s₁ hs₁ => ?_
  cases hpv : v.find (versionKey key) with
  | none =>
    rw [hpv] at hversion
    refine .pure (.pure ⟨v, none, ?_, ?_⟩)
    · rwa [hversion, setCell_self]
    · rw [← hversion]
      exact ⟨rfl, rfl⟩
  | some pv =>
    rw [hpv] at hversion
    rw [← hversion]
    dsimp only
    cases hnum : mcStrtoullLen pv.data with
    | none =>
      have happly : (Op.oqDelta incr key delta).apply pv = (.abort,
        pv.data) := by rw [Op.apply, hnum]
      refine .pure (.pure ⟨v, some pv, ?_, ?_⟩)
      · rwa [hversion, setCell_self]
      · exact ⟨by rw [happly], pv, rfl, by rw [happly], rfl⟩
    | some value =>
      have happly : (Op.oqDelta incr key delta).apply pv = (.ok,
        Op.deltaData incr delta value pv) := by
        rw [Op.apply, hnum]
      dsimp only
      have hne := decimal_ne_nil (addDelta incr value delta)
      split
      · next hlong =>
        rw [Op.deltaData, if_pos hlong] at happly
        refine .bind (wlp_itemAlloc_sight hs₁.sees fun s₂ nit hnkey hnflags hnexp hnralign hs₂ =>
          ?_)
        dsimp only
        have hnit : nit.key = versionKey key := by
          rw [hnkey, u8Name_of_lt pv.key_lt, hs.sees.key_eq hpv]
        have hlive : nit.expired t.now = false := by
          rw [Item.expired, hnexp]
          exact hs.sees.not_expired hpv
        refine .bind (wlp_itemReplace_sight hs₂ hpv hnit hlive fun s₃ nit' hst hs₃ =>
          .pure (.pure ⟨_, some nit', ⟨hs₃, ?_⟩, ?_⟩))
        · refine hs.repr.alloc.setVersion hkey ?_
          rintro _ ⟨⟩
          rwa [hst.data]
        · exact ⟨by rw [happly], nit', rfl, by rw [happly, hst.data], hst.dataflags.trans hnflags⟩
      · next hshort =>
        rw [Op.deltaData, if_neg hshort] at happly
        refine .bind (wlp_itemNextCas_sight hs₁.sees fun s₂ cas hs₂ => ?_)
        refine .bind (wlp_itemWrite_sight hs₂ hpv (fun _ => rfl) ⟨rfl, rfl⟩ fun s₃ hs₃ =>
          .pure (.pure ⟨_, _, ⟨hs₃, hs.repr.setVersion hkey fun it hit => ?_⟩, ?_⟩))
        · cases hit
          exact inPlaceData_ne_nil hne
        · exact ⟨by rw [happly], _, rfl, by rw [happly], rfl⟩

/-- `_item_append_prepend_co` puts a longer item in the place of the pending version. -/
theorem updatesVersion_itemAppendPrependCo {append : Bool} (hkey : N.Key key) :
    UpdatesVersion c N t (.oqConcat append key data) key fun pvIt => do
      whenSome pvIt fun pvIt => itemAppendPrependCo append pvIt data
      return .ok := by
  intro s v a pvIt hs hin
  have hversion := (hs.repr.cell key hkey).version
  generalize hpv : v.find (versionKey key) = version at hin hversion
  cases hin with
  | none =>
    refine .bind (.pure (.pure ⟨v, none, ?_, ?_⟩))
    · rwa [hversion, setCell_self]
    · rw [← hversion]
      exact ⟨rfl, rfl⟩
  | @some pv pv' hst =>
    rw [wlp_bind, whenSome_some, itemAppendPrependCo, wlp_bind]
    refine wlp_itemAlloc_sight hs.sees fun s₁ nit hnkey hnflags hnexp hnralign hs₁ => ?_
    have hnit : nit.key = versionKey key := by
      rw [hnkey, u8Name_of_lt pv.key_lt, ← hst.key, hs.sees.key_eq hpv]
    have hlive : nit.expired t.now = false := by
      rw [Item.expired, hnexp, ← hst.exptime]
      exact hs.sees.not_expired hpv
    have hfilled : pv.data ≠ [] := by
      rw [← hst.data]
      exact (hs.repr.cell key hkey).filled pv' (.inl hversion.symm)
    have hdata : (if append then pv.data ++ data else data ++ pv.data) ≠ [] := by
      cases append <;> simp [hfilled]
    rw [whenSome_some, wlp_bind]
    have hstorable : ({ nit with data := if append then pv.data ++ data else data ++ pv.data } :
      Item).storable = true := by
      simp [Item.storable, Item.nbyte, hdata]
    refine wlp_itemStore_sight hs₁ hstorable hlive fun s₂ nit' hnst hs₂ =>
      .pure (.pure ⟨_, some nit', ⟨hs₂, ?_⟩, ?_⟩)
    · dsimp only
      rw [hnit]
      refine hs.repr.alloc.setVersion hkey ?_
      rintro _ ⟨⟩
      rwa [hnst.data]
    · rw [← hversion]
      refine ⟨rfl, nit', rfl, ?_, ?_⟩
      · rw [hnst.data, Op.apply, hst.data]
      · rw [hnst.dataflags, hst.dataflags]
        exact hnflags

theorem Session.Op.apply_congr {pv pv' : Item} (op : Op) (hdata : pv.data = pv'.data)
    (hralign : pv.ralign = pv'.ralign) :
    op.apply pv = op.apply pv' := by
  cases op <;> simp only [apply, deltaData, inPlaceData, Item.nbyte, hdata, hralign]; rfl

theorem Session.Op.meets_of_updates (hop : op.updates = some key) : op.meets = some key := by
  cases op <;> first | exact hop | cases hop

theorem Session.Op.key_of_updates (hop : op.updates = some key) : op.key = key := by
  cases op <;> cases hop <;> rfl

section

variable (hs : Serves c N t s v a)

include hs

/-- The pending version that an incremental update works on, made if there is none. -/
theorem Serves.sessionVersion {Q : Option Item → Server → Prop} (hkey : N.Key key)
    (hQ : ∀ s' v' pvIt version', Serves c N t s' v'
      (a.setCell key { a.cell key with version := version' }) →
      v'.find (versionKey key) = version' → Option.Rel Item.Stamped pvIt version' →
      (version' = none ↔ Op.base (a.cell key) = none) →
      (∀ pv pv', Op.base (a.cell key) = some pv → version' = some pv' →
        pv'.data = pv.data ∧ pv'.dataflags = pv.dataflags ∧ pv'.ralign = pv.ralign) → Q pvIt s') :
    wlp (itemSessionVersion key (v.find key)) Q c s := by
  have hcell := hs.repr.cell key hkey
  rw [itemSessionVersion, wlp_bind]
  refine hs.get fun s₁ hs₁ => ?_
  cases hversion : (a.cell key).version with
  | some pv =>
    rw [hcell.version, hversion]
    have hbase : Op.base (a.cell key) = some pv := by rw [Op.base, hversion]
    refine .pure (hQ s₁ v (some pv) (some pv) ?_ (hcell.version.trans hversion)
      (.some (.refl pv)) ?_ ?_)
    · rwa [← hversion, setCell_self]
    · simp [hbase]
    · rintro _ _ hpv ⟨⟩
      rw [hbase] at hpv
      cases hpv
      exact ⟨rfl, rfl, rfl⟩
  | none =>
    rw [hcell.version, hversion]
    cases hvalue : (a.cell key).value with
    | none =>
      rw [hcell.value, hvalue]
      have hbase : Op.base (a.cell key) = none := by rw [Op.base, hversion, hvalue]; rfl
      refine .pure (hQ s₁ v none none ?_ (hcell.version.trans hversion) .none ?_ ?_)
      · rwa [← hversion, setCell_self]
      · simp [hbase]
      · rintro _ _ _ ⟨⟩
    | some it =>
      rw [hcell.value, hvalue]
      have hbase : Op.base (a.cell key) = some { it with ralign := false } := by
        rw [Op.base, hversion, hvalue]; rfl
      obtain rfl := hs.sees.key_eq (hcell.value.trans hvalue)
      refine hs₁.storeVersion hkey (hcell.filled it (.inr hvalue)) fun s₂ pv pv' hpv hralign hst
        hs₂ => .pure ?_
      refine hQ s₂ _ (some pv) (some pv') hs₂ Sight.find_set_self (.some hst) ?_ ?_
      · simp [hbase]
      · rintro _ _ hpv' ⟨⟩
        rw [hbase] at hpv'
        cases hpv'
        exact ⟨hpv.data, hpv.dataflags, hralign⟩

/-- The update of an incremental operation, with what it makes of a Q lease and of an I lease. -/
theorem Serves.deltaUpdate (hkey : N.Key key) (hupdate : UpdatesVersion c N t op key update) :
    wlp (itemOqDeltaUpdate key update) (fun r s' => ∃ v' c', Serves c N t s' v' (a.setCell key c') ∧
      op.Updates (a.cell key) c' r) c s := by
  rw [itemOqDeltaUpdate, wlp_bind]
  refine hs.get fun s₁ hs₁ => ?_
  refine .bind (hs₁.get fun s₂ hs₂ => hs₂.voidILease hkey ?_ ?_)
  · intro hi s₃ hs₃
    have hfind : v.find key = (v.set (leaseKey key) none).find key := by
      rw [Sight.find_set_of_ne hkey.unprefixed.ne_leaseKey]
    rw [wlp_bind, hfind]
    refine hs₃.sessionVersion hkey fun s₄ v₄ pvIt version' hs₄ hv₄ hst hnone hsome => ?_
    refine (hupdate s₄ v₄ _ pvIt hs₄ (hv₄ ▸ hst)).mono ?_
    rintro r s₅ ⟨v₅, version'', hs₅, hmakes⟩
    simp only [setCell_setCell, cell_setCell_self] at hs₅ hmakes hnone hsome
    have hbase : Op.base { a.cell key with lease := none } = Op.base (a.cell key) := rfl
    rw [hbase] at hnone hsome
    refine ⟨v₅, _, hs₅, fun l hl hq => ?_, fun _ => rfl, fun _ hb => ?_, fun _ pv hb => ?_,
      rfl, rfl, ?_⟩
    · have hli := hi l hl
      simp only [Item.hasILease, decide_eq_true_eq] at hli
      simp [Item.hasQLease, Item.hasQInvLease, Item.hasQRefLease, Item.hasQIncrLease, hli] at hq
    · rw [hnone.mpr hb] at hmakes
      exact hmakes
    · cases hpv : version' with
      | none =>
        rw [hnone.mp hpv] at hb
        cases hb
      | some pv₁ =>
        rw [hpv] at hmakes
        obtain ⟨hdata, hflags, hralign⟩ := hsome pv pv₁ hb hpv
        obtain ⟨hr, pv', hpv', hdata', hflags'⟩ := hmakes
        rw [op.apply_congr hdata hralign] at hr hdata'
        exact ⟨hr, pv', hpv', hdata', hflags'.trans hflags⟩
    · cases version' with
      | none => exact .inl hmakes.1
      | some pv => exact hmakes.1 ▸ op.apply_mem_results pv
  · intro l hlease hi _
    refine .pure ⟨v, a.cell key, ?_, ?_⟩
    · rwa [setCell_self]
    · have hnot : ¬ ∀ l', (a.cell key).lease = some l' → l'.hasILease = true := by simp [hlease, hi]
      exact ⟨fun _ _ _ => ⟨rfl, rfl⟩, fun h => absurd h hnot, fun h => absurd h hnot,
        fun h => absurd h hnot, rfl, rfl, .inl rfl⟩

theorem refines_itemOqDelta (hsid : N.Sid sid) (hkey : N.Key key)
    (hop : op.updates = some key) (hupdate : UpdatesVersion c N t op key update) :
    wlp (itemOqDelta sid key update) (Refines c N t v a sid op) c s := by
  have hopkey := op.key_of_updates hop
  refine hs.start (f := id) hsid rfl fun hmarked s₁ hs₁ => ?_
  refine .bind (hs₁.exclusive hsid hkey hmarked (fun hhold s₂ v₂ hs₂ => ?_)
    (fun h hhold hkind hmem s₂ hs₂ => ?_) fun h hhold hkind hmem s₂ v₂ hs₂ => ?_)
  · dsimp only
    refine .bind ((hs₂.deltaUpdate hkey hupdate).mono fun r s₃ ⟨v₃, c', hs₃, hupd⟩ => ?_)
    refine .bind (hs₃.occupy .refresh hsid hkey ?_ fun s₄ v₄ hs₄ _ => ?_)
    · rw [cell_setCell_self, hupd.hold, cell_vacate]
    refine .bind (hs₄.get fun s₅ hs₅ => ?_)
    refine .bind (hs₅.enter hsid hkey ?_ fun s₆ v₆ hs₆ _ => .pure ⟨v₆, _, hs₆, ?_⟩)
    · rw [marked_setCell, marked_setCell, marked_vacate (Sight.spared_self ..), hmarked]
    · simp only [enter_setCell, setCell_setCell, cell_setCell_self]
      rw [cell_vacate] at hupd
      rw [hopkey]
      refine .update hmarked hop hhold ⟨fun l hl hq => ?_, hupd.lease, hupd.nothing, hupd.made,
        hupd.value, rfl, hupd.result⟩
      obtain ⟨hr, hc⟩ := hupd.quarantined l hl hq
      exact ⟨hr, by rw [hc]⟩
  · dsimp only
    refine .bind ((hs₂.deltaUpdate hkey hupdate).mono fun r s₃ ⟨v₃, c', hs₃, hupd⟩ => ?_)
    refine .bind (hs₃.get fun s₄ hs₄ => ?_)
    refine .bind (hs₄.enter hsid hkey hmarked fun s₅ v₅ hs₅ _ => .pure ⟨v₅, _, hs₅, ?_⟩)
    rw [enter_setCell]
    exact .amend hmarked hop hhold hkind hmem hupd
  · exact .pure ⟨v₂, _, hs₂, .foreign hmarked (op.meets_of_updates hop) hhold hkind hmem⟩

theorem refines_oqDelta (hsid : N.Sid sid) (hkey : N.Key key) :
    wlp ((Op.oqDelta incr key delta).exec sid)
      (Refines c N t v a sid (.oqDelta incr key delta)) c s :=
  refines_itemOqDelta hs hsid hkey rfl (updatesVersion_itemAddDeltaCo hkey)

theorem refines_oqConcat {append : Bool} (hsid : N.Sid sid) (hkey : N.Key key) :
    wlp ((Op.oqConcat append key data).exec sid)
      (Refines c N t v a sid (.oqConcat append key data)) c s :=
  refines_itemOqDelta hs hsid hkey rfl (updatesVersion_itemAppendPrependCo hkey)

end

end Updating

/-! ## Registering -/

section Registering

variable {N : Naming} {t : Clock} {v : Sight} {a : State} {key : Bytes}

/-- The lease of a registration. -/
theorem Serves.registerLease (hs : Serves c N t s v a) (hkey : N.Key key)
    (hQ : ∀ s' v' lease, Serves c N t s' v' (a.setCell key { a.cell key with lease := lease }) →
      (∀ n, n ≠ leaseKey key → v'.find n = v.find n) →
      Session.Quarantines (a.cell key).lease lease → Q () s') :
    wlp (itemOqregLease key) Q c s := by
  rw [itemOqregLease, wlp_bind]
  refine hs.get fun s₁ hs₁ => hs₁.voidILease hkey (fun hi s₂ hs₂ => ?_) fun l hlease _ hq => ?_
  · refine .bind (hs₂.get fun s₃ hs₃ => ?_)
    refine .bind (hs₃.sessionLease hkey (.inr rfl) fun s₄ l l' hl _ hs₄ => ?_)
    simp only [setCell_setCell, cell_setCell_self] at hs₄
    refine .pure (hQ s₄ _ (some l) hs₄ ?_ ?_)
    · intro n hn
      rw [Sight.find_set_of_ne hn, Sight.find_alloc, Sight.find_set_of_ne hn]
    · exact .inr ⟨hi, l, rfl, hl⟩
  · refine .bind (hs₁.get fun s₂ hs₂ => .pure (hQ s₂ v (some l) ?_ (fun _ _ => rfl) ?_))
    · rwa [← hlease, setCell_self]
    · exact .inl ⟨l, hlease, hq, hlease.symm⟩

theorem refines_oqreg (hs : Serves c N t s v a) (hsid : N.Sid sid) (hkey : N.Key key) :
    wlp ((Op.oqreg key).exec sid) (Refines c N t v a sid (.oqreg key)) c s := by
  refine hs.start (f := id) hsid rfl fun hmarked s₁ hs₁ => ?_
  refine .bind (hs₁.registerLease hkey fun s₂ v₂ lease hs₂ hv₂ hlease => ?_)
  have hspared : v₂.spared sid key = v.spared sid key := by
    funext r
    rw [Sight.spared, Sight.spared, hv₂ _ coLeaseKey_ne_leaseKey]
  rw [wlp_bind, itemOqregColease, wlp_bind]
  refine hs₂.get fun s₃ hs₃ => ?_
  rcases hs₃.repr.hold_cases hkey with ⟨hnone, hhold⟩ | ⟨coleaseIt, h, hit, hhold, hof⟩
  · rw [hnone]
    dsimp only
    refine .bind (hs₃.occupy .invalidate hsid hkey hhold fun s₄ v₄ hs₄ _ => ?_)
    refine .bind (hs₄.get fun s₅ hs₅ => ?_)
    rcases hs₅.repr.hold_cases hkey with ⟨-, hhold'⟩ | ⟨coleaseIt, h, hit, hhold', hof⟩
    · rw [cell_setCell_self] at hhold'
      cases hhold'
    rw [cell_setCell_self] at hhold'
    cases hhold'
    rw [hit, deref_some, wlp_pure, wlp_bind, hof.hasCLease, decide_eq_false (by simp), when_false,
      wlp_pure, wlp_bind]
    refine hs₅.get fun s₆ hs₆ => ?_
    refine .bind (hs₆.enter hsid hkey hmarked fun s₇ v₇ hs₇ _ => .pure ⟨v₇, _, hs₇, ?_⟩)
    rw [cell_setCell_self] at hhold
    have hstep : Step (v.spared sid key) a sid (.oqreg key) .ok _ :=
      .register hmarked (fun h hh => by rw [hhold] at hh; cases hh) hlease
    rw [vacate_of_none hhold] at hstep
    simp only [enter_setCell, setCell_setCell, cell_setCell_self]
    exact hstep
  · rw [hit]
    dsimp only
    rw [wlp_pure, wlp_bind, hof.hasCLease]
    rw [cell_setCell_self] at hhold
    by_cases hkind : h.kind = .shared
    · rw [decide_eq_true hkind, when_true]
      refine hs₃.vacate hkey hit fun s₄ v₄ hs₄ => ?_
      rw [hspared] at hs₄
      refine hs₄.occupy .invalidate hsid hkey (by rw [cell_vacate]) fun s₅ v₅ hs₅ _ => ?_
      refine .bind (hs₅.get fun s₆ hs₆ => ?_)
      refine .bind (hs₆.enter hsid hkey ?_ fun s₇ v₇ hs₇ _ => .pure ⟨v₇, _, hs₇, ?_⟩)
      · rw [marked_setCell, marked_vacate (Sight.spared_self ..), marked_setCell, hmarked]
      · have hstep : Step (v.spared sid key) a sid (.oqreg key) .ok _ := .register hmarked
          (fun h' hh' => by rw [hhold] at hh'; cases hh'; exact hkind) hlease
        rw [vacate_setCell (c := { a.cell key with lease := lease }) rfl]
        simp only [enter_setCell, setCell_setCell, cell_setCell_self]
        exact hstep
    · rw [decide_eq_false hkind, when_false, wlp_pure, wlp_bind]
      refine hs₃.get fun s₄ hs₄ => ?_
      refine .bind (hs₄.enter hsid hkey hmarked fun s₅ v₅ hs₅ _ => .pure ⟨v₅, _, hs₅, ?_⟩)
      rw [enter_setCell]
      exact .reregister hmarked hhold hkind hlease

end Registering

/-! ## Ending a session -/

section Ending

variable {N : Naming} {t : Clock} {v : Sight} {a : State} {key : Bytes}

variable (hs : Serves c N t s v a)

include hs

/-- How a session ends: there is none, it has been aborted, or it is alive and its record is at
hand. -/
theorem Serves.ending {r : CoResult} {m : Item → ServerM CoResult} (hsid : N.Sid sid)
    (hop : op.unknown = some r)
    (hm : ∀ it q, v.find sid = some it → a.sess sid = some q → SessOf N it q → q.aborted = false →
      ∀ s', Serves c N t s' v a → wlp (m it) (Refines c N t v a sid op) c s') : wlp (do
      match ← itemGet sid with
      | none => return r
      | some sessIt =>
        if sessIt.sessStatus = .abort then
          itemUnlink sessIt
          return .abort
        else m sessIt) (Refines c N t v a sid op) c s := by
  refine .bind (hs.get fun s₁ hs₁ => ?_)
  rcases hs.repr.sess_cases hsid with ⟨hnone, hsess⟩ | ⟨it, q, hit, hq, hof⟩
  · rw [hnone]
    exact .pure ⟨v, a, hs₁, .unknown hop hsess⟩
  · rw [hit]
    dsimp only
    by_cases habort : q.aborted = true
    · rw [if_pos (hof.sessStatus_eq_iff.mpr habort), wlp_bind]
      refine hs₁.dropSess hsid hit fun s₂ hs₂ => .pure ⟨_, _, hs₂, .forget ?_⟩
      rwa [State.marked, hq, Option.any_some]
    · rw [if_neg (mt hof.sessStatus_eq_iff.mp habort)]
      exact hm it q hit hq hof (Bool.eq_false_iff.mpr habort) s₁ hs₁

theorem refines_coUnlease (hsid : N.Sid sid) :
    wlp (Op.coUnlease.exec sid) (Refines c N t v a sid .coUnlease) c s := by
  refine hs.ending hsid rfl fun it q hit hq hof halive s₁ hs₁ => ?_
  exact .bind ((wlp_cleanSessionKeys hs₁ hsid hit hq).mono fun _ s₂ ⟨v₂, hs₂, _⟩ =>
    .pure ⟨v₂, _, hs₂, .unlease hq halive⟩)

/-- The loop of `item_validate`. -/
theorem wlp_itemValidateKeys (hsid : N.Sid sid) (hkeys : ∀ k ∈ ks, N.Key k) :
    wlp (itemValidateKeys sid ks) (fun b s' => Serves c N t s' v a ∧
      (b = true ↔ ∀ k ∈ ks, ∀ h, (a.cell k).hold = some h → sid ∈ h.holders)) c s := by
  induction ks generalizing s with
  | nil => exact .pure ⟨hs, by simp⟩
  | cons k ks ih =>
    obtain ⟨hk, hkeys⟩ := forall_mem_cons.mp hkeys
    rw [itemValidateKeys, wlp_bind]
    refine hs.get fun s₁ hs₁ => ?_
    rw [wlp_bind]
    rcases hs.repr.hold_cases hk with ⟨hnone, hhold⟩ | ⟨it, h, hit, hhold, hof⟩
    · rw [hnone, wlp_itemCheckEntry_sight (o := none) rfl hsid.short, wlp_bind]
      refine (ih hs₁ hkeys).mono fun b s₂ ⟨hs₂, hb⟩ => .pure ⟨hs₂, ?_⟩
      simp [hb, hhold]
    · rw [hit, hof.wlp_itemCheckEntry hsid, wlp_bind]
      refine (ih hs₁ hkeys).mono fun b s₂ ⟨hs₂, hb⟩ => .pure ⟨hs₂, ?_⟩
      simp [hb, hhold]

theorem refines_validate (hsid : N.Sid sid) :
    wlp (Op.validate.exec sid) (Refines c N t v a sid .validate) c s := by
  refine hs.ending hsid rfl fun it q hit hq hof halive s₁ hs₁ => ?_
  obtain ⟨ks, henc, hks⟩ := hof.lists
  have hmem : ∀ k, k ∈ ks ↔ k ∈ q.keys := fun k => by rw [← hks, mem_toFinset]
  rw [wlp_bind, henc.entries, deref_some, wlp_pure, wlp_bind]
  refine (wlp_itemValidateKeys hs₁ hsid fun k hk => hof.keys k ((hmem k).mp hk)).mono fun b s₂
    ⟨hs₂, hb⟩ => ?_
  cases b with
  | true =>
    rw [if_pos rfl]
    exact .pure ⟨v, a, hs₂, .valid hq halive fun k hk => hb.mp rfl k ((hmem k).mpr hk)⟩
  | false =>
    rw [if_neg Bool.false_ne_true, wlp_bind]
    have hlost : ¬ ∀ k ∈ ks, ∀ h, (a.cell k).hold = some h → sid ∈ h.holders := fun hall =>
      Bool.false_ne_true (hb.mpr hall)
    push Not at hlost
    obtain ⟨k, hk, h, hhold, hnot⟩ := hlost
    refine (wlp_cleanSession hs₂ hsid ?_).mono fun _ s₃ ⟨v₃, hs₃, _⟩ =>
      .pure ⟨v₃, _, hs₃, .outdated hq halive ((hmem k).mp hk) hhold hnot⟩
    rw [State.marked, hq, Option.any_some, halive]

/-- The pending version of a key becomes its value. -/
theorem Serves.dcommitApply (hkey : N.Key key)
    (hQ : ∀ s' v' value, Serves c N t s' v'
      (a.setCell key { a.cell key with version := none, value := value }) →
      Option.Rel Publishes (a.cell key).version value →
      (∀ n, n ≠ key → n ≠ versionKey key → v'.find n = v.find n) → Q () s') :
    wlp (itemDcommitApply key (v.find key)) Q c s := by
  have hcell := hs.repr.cell key hkey
  rw [itemDcommitApply, wlp_bind]
  refine hs.get fun s₁ hs₁ => ?_
  cases hversion : (a.cell key).version with
  | none =>
    rw [hcell.version, hversion]
    refine hs₁.dropValue hkey fun s₂ hs₂ => hQ s₂ (v.set key none) none ?_ ?_ fun n hn _ =>
      Sight.find_set_of_ne hn
    · simpa only [hversion] using hs₂
    · rw [hversion]
      exact .none
  | some pv =>
    have hpv : v.find (versionKey key) = some pv := hcell.version.trans hversion
    rw [hpv]
    dsimp only
    refine .bind (wlp_itemAlloc_sight hs₁.sees fun s₂ nit hnkey hnflags hnexp hnralign hs₂ => ?_)
    rw [wlp_bind, deref_some, wlp_pure, wlp_bind]
    have hfilled : pv.data ≠ [] := hcell.filled pv (.inl hversion)
    have hnit : nit.key = key := hnkey.trans (u8Name_of_lt hkey.length_lt)
    have hstorable : ({ nit with data := pv.data } : Item).storable = true := by
      simp [Item.storable, Item.nbyte, hfilled]
    refine wlp_itemStore_sight hs₂ hstorable (by simp [Item.expired, hnexp]) fun s₃ nit' hst hs₃ =>
      ?_
    dsimp only at hs₃
    rw [hnit] at hs₃
    have hrepr := hs.repr.alloc.setValue (o := some nit') hkey (by rintro _ ⟨⟩; rwa [hst.data])
    have hpv' : (v.alloc.set key (some nit')).find (versionKey key) = some pv := by
      rwa [Sight.find_set_of_ne hkey.unprefixed.ne_versionKey.symm]
    refine wlp_itemUnlink_sight hs₃ hpv' fun s₄ hs₄ =>
      hQ s₄ _ (some nit') ⟨hs₄, ?_⟩ ?_ fun n hn hn' => ?_
    · have hrepr' := hrepr.setVersion (o := none) hkey (by simp)
      rwa [setCell_setCell, cell_setCell_self] at hrepr'
    · rw [hversion]
      exact .some ⟨hst.data, hst.dataflags.trans hnflags⟩
    · rw [Sight.find_set_of_ne hn', Sight.find_set_of_ne hn, Sight.find_alloc]

/-- What `item_dcommit` does to the value of a key. -/
theorem Serves.dcommitValue (hkey : N.Key key) (hof : HoldOf N it h)
    (hQ : ∀ s' v' version value, Serves c N t s' v'
      (a.setCell key { a.cell key with version := version, value := value }) →
      h.kind.Commits (a.cell key) { a.cell key with version := version, value := value } →
      (∀ n, n ≠ key → n ≠ versionKey key → v'.find n = v.find n) → Q () s') :
    wlp (itemDcommitValue key (v.find key) it) Q c s := by
  rw [itemDcommitValue, hof.hasOLeaseInv, hof.hasOLeaseRef, hof.hasCLease]
  cases hkind : h.kind with
  | invalidate =>
    rw [decide_eq_true rfl, if_pos rfl]
    refine hs.dropValue hkey fun s₁ hs₁ => hQ s₁ _ _ _ hs₁ ?_ fun n hn _ => Sight.find_set_of_ne hn
    rw [hkind]
    exact ⟨rfl, rfl⟩
  | refresh =>
    rw [decide_eq_false (by simp), if_neg Bool.false_ne_true, decide_eq_true rfl, if_pos rfl]
    refine hs.dcommitApply hkey fun s₁ v₁ value hs₁ hvalue hv₁ => hQ s₁ v₁ none value hs₁ ?_ hv₁
    rw [hkind]
    exact ⟨rfl, hvalue⟩
  | shared =>
    rw [decide_eq_false (by simp), if_neg Bool.false_ne_true, decide_eq_false (by simp),
      if_neg Bool.false_ne_true, decide_eq_true rfl, when_true]
    refine hs.retime hkey (.inl rfl) fun s₁ v₁ value hs₁ hvalue hv₁ =>
      hQ s₁ v₁ _ value hs₁ ?_ fun n hn _ => hv₁ n hn
    rw [hkind]
    exact ⟨rfl, hvalue⟩

/-- The body of the loop of `item_dcommit` works on the records of its key. -/
theorem wlp_itemDcommitKey (hkey : N.Key key) (hsid : N.Sid sid) :
    wlp (itemDcommitKey sid key) (fun _ s' => ∃ v' c', Serves c N t s' v' (a.setCell key c') ∧
      (a.cell key).Committed sid c' ∧ ∀ n, Unprefixed n → n ≠ key → v'.find n = v.find n) c s := by
  rw [itemDcommitKey, wlp_bind]
  refine hs.get fun s₁ hs₁ => ?_
  refine .bind (hs₁.get fun s₂ hs₂ => ?_)
  refine .bind (hs₂.dropLease hkey fun s₃ hs₃ => ?_)
  refine .bind (hs₃.get fun s₄ hs₄ => ?_)
  rcases hs₄.repr.hold_cases hkey with ⟨hnone, hhold⟩ | ⟨it, h, hit, hhold, hof⟩
  · rw [cell_setCell_self] at hhold
    change (a.cell key).hold = none at hhold
    rw [hnone, whenSome_none]
    refine .pure ⟨_, _, hs₄, ⟨rfl, ?_, fun _ => ⟨rfl, rfl⟩, fun h' hh' => ?_⟩, fun n hn _ => ?_⟩
    · rw [Cell.leave_of_none hhold]
    · rw [hhold] at hh'
      cases hh'
    · rw [Sight.find_set_of_ne hn.ne_leaseKey]
  · rw [cell_setCell_self] at hhold
    change (a.cell key).hold = some h at hhold
    rw [hit, whenSome_some, wlp_bind]
    have hvalue : v.find key = (v.set (leaseKey key) none).find key := by
      rw [Sight.find_set_of_ne hkey.unprefixed.ne_leaseKey]
    rw [hvalue]
    refine hs₄.dcommitValue hkey hof fun s₅ v₅ version value hs₅ hcommits hv₅ => ?_
    simp only [setCell_setCell, cell_setCell_self] at hs₅ hcommits
    have hit₅ : v₅.find (coLeaseKey key) = some it := by
      rw [hv₅ _ hkey.unprefixed.ne_coLeaseKey.symm coLeaseKey_ne_versionKey, hit]
    refine (wlp_itemRemoveSidColease hs₅ hkey hsid hit₅).mono fun _ s₆ ⟨v₆, hs₆, hv₆⟩ => ?_
    rw [setCell_setCell, cell_setCell_self] at hs₆
    refine ⟨v₆, _, hs₆, ⟨rfl, rfl, fun hfree => ?_, fun h' hh' => ?_⟩, fun n hn hne => ?_⟩
    · rw [hhold] at hfree
      cases hfree
    · rw [hhold] at hh'
      cases hh'
      revert hcommits
      cases h.kind <;> exact id
    · rw [hv₆ n hn.ne_coLeaseKey, hv₅ n hne hn.ne_versionKey, Sight.find_set_of_ne hn.ne_leaseKey]

/-- The loop of `item_dcommit`: every pass is about its own key. -/
theorem wlp_itemDcommit_loop (hkeys : ∀ k ∈ ks, N.Key k) (hnodup : ks.Nodup) (hsid : N.Sid sid) :
    wlp (forEach (itemDcommitKey sid) ks) (fun _ s' => ∃ v' a', Serves c N t s' v' a' ∧
        a'.sess = a.sess ∧
      (∀ k ∈ ks, (a.cell k).Committed sid (a'.cell k)) ∧ (∀ k, k ∉ ks → a'.cell k = a.cell k) ∧
      v'.find sid = v.find sid) c s := by
  induction ks generalizing s v a with
  | nil => exact .pure ⟨v, a, hs, rfl, nofun, fun _ _ => rfl, rfl⟩
  | cons key ks ih =>
    obtain ⟨hkey, hkeys⟩ := List.forall_mem_cons.mp hkeys
    obtain ⟨hnot, hnodup⟩ := List.nodup_cons.mp hnodup
    rw [forEach_cons, wlp_bind]
    refine (wlp_itemDcommitKey hs hkey hsid).mono fun _ s₁ ⟨v₁, c', hs₁, hc', hv₁⟩ => ?_
    refine (ih hs₁ hkeys hnodup).mono fun _ s₂ ⟨v₂, a₂, hs₂, hsess, hin, hout, hv₂⟩ =>
      ⟨v₂, a₂, hs₂, hsess, ?_, ?_, ?_⟩
    · intro k hk
      rcases List.mem_cons.mp hk with rfl | hk
      · rwa [hout k hnot, State.cell_setCell_self]
      · have := hin k hk
        rwa [State.cell_setCell_of_ne fun heq : k = key => hnot (heq ▸ hk)] at this
    · intro k hk
      rw [List.mem_cons, not_or] at hk
      rw [hout k hk.2, State.cell_setCell_of_ne hk.1]
    · rw [hv₂, hv₁ sid hsid.unprefixed (hsid.ne_key hkey)]

theorem refines_dcommit (hsid : N.Sid sid) :
    wlp (Op.dcommit.exec sid) (Refines c N t v a sid .dcommit) c s := by
  refine hs.ending hsid rfl fun it q hit hq hof halive s₁ hs₁ => ?_
  obtain ⟨ks, henc, hks⟩ := hof.lists
  have hmem : ∀ k, k ∈ ks ↔ k ∈ q.keys := fun k => by rw [← hks, mem_toFinset]
  rw [wlp_bind, henc.entries, deref_some, wlp_pure, wlp_bind]
  refine (wlp_itemDcommit_loop hs₁ (fun k hk => hof.keys k ((hmem k).mp hk)) henc.nodup hsid).mono
    fun _ s₂ ⟨v₂, a₂, hs₂, hsess, hin, hout, hv₂⟩ => ?_
  refine .bind (hs₂.dropSess hsid (hv₂.trans hit) fun s₃ hs₃ => .pure ⟨_, _, hs₃,
    .commit hq halive ?_ ?_ ?_⟩)
  · rw [State.drop, State.drop, hsess]
  · exact fun k hk => hin k ((hmem k).mpr hk)
  · exact fun k hk => hout k (mt (hmem k).mp hk)

end Ending

/-- The names in an operation. -/
def Session.Op.Named (N : Naming) : Op → Prop
  | validate | dcommit | coUnlease => True
  | op => N.Key op.key

/-- Every operation is a step of the sessions. -/
theorem refines_exec {N : Naming} {t : Clock} {v : Sight} {a : State} (op : Op)
    (hs : Serves c N t s v a) (hsid : N.Sid sid) (hop : op.Named N) :
    wlp (op.exec sid) (Refines c N t v a sid op) c s := by
  cases op with
  | ciget key leaseToken => exact refines_ciget hs hsid hop
  | oqread key => exact refines_oqread hs hsid hop
  | oqswap it => exact refines_oqswap hs hsid hop
  | oqwrite it => exact refines_oqwrite hs hsid hop
  | oqDelta incr key delta => exact refines_oqDelta hs hsid hop
  | oqConcat append key data => exact refines_oqConcat hs hsid hop
  | oqreg key => exact refines_oqreg hs hsid hop
  | validate => exact refines_validate hs hsid
  | dcommit => exact refines_dcommit hs hsid
  | coUnlease => exact refines_coUnlease hs hsid

end Rejig
