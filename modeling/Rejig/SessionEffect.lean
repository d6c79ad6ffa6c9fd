import Rejig.Orderly
import Rejig.Session
import Rejig.Sight

/-!
# The session operations do what they should

`Represents N v a` says how a state of sessions is kept in items: a session is a record under its
identifier whose payload lists its keys, a session lease is a record under `co:` whose payload lists
its holders, and the lease, the pending version and the value of a key are items themselves.

Each operation is followed once, on the sight.  The loops of `clean_session`, `abort_sessions` and
`item_dcommit` work on one key after the other, and each pass changes the records of its own key
only, so that a loop comes to one change of all keys.
-/

namespace Rejig

open Prog Session Option List State Finset

variable {Q : Unit → Server → Prop} {n : Bytes} {fuel : Nat} {it : Item} {ks : List Bytes}

/-- The name of a session, which its length byte can hold. -/
structure Naming.Sid (N : Naming) (n : Bytes) : Prop where
  unprefixed : Unprefixed n
  notKey : ¬ N.isKey n
  short : n.length < 256

/-- The flag of a session lease. -/
def Session.Kind.flag : Kind → CoFlag
  | .shared => .cLease
  | .refresh => .oLeaseRef
  | .invalidate => .oLeaseInv

/-- A record of a session. -/
structure SessOf (N : Naming) (it : Item) (q : Sess) : Prop where
  status : it.sessStatus = if q.aborted then .abort else .alive
  lists : ∃ ks, Encodes it.data ks ∧ ks.toFinset = q.keys
  keys : ∀ k ∈ q.keys, N.Key k

/-- A session lease. -/
structure HoldOf (N : Naming) (it : Item) (h : Hold) : Prop where
  flag : it.co = h.kind.flag
  lists : ∃ ks, Encodes it.data ks ∧ ks.toFinset = h.holders
  sids : ∀ sid ∈ h.holders, N.Sid sid
  nonempty : h.holders.Nonempty

/-- The records of a key. -/
structure CellOf (N : Naming) (v : Sight) (k : Bytes) (c : Cell) : Prop where
  hold : Option.Rel (HoldOf N) (v.find (coLeaseKey k)) c.hold
  lease : v.find (leaseKey k) = c.lease
  version : v.find (versionKey k) = c.version
  value : v.find k = c.value
  /-- What is under the name of a lease is a lease. -/
  kind : ∀ l, c.lease = some l → l.isLeaseHolder = true
  /-- There are no empty values. -/
  filled : ∀ it, c.version = some it ∨ c.value = some it → it.data ≠ []

/-- How the state of sessions is kept in items. -/
structure Represents (N : Naming) (v : Sight) (a : State) : Prop where
  sess : ∀ sid, N.Sid sid → Option.Rel (SessOf N) (v.find sid) (a.sess sid)
  cell : ∀ k, N.Key k → CellOf N v k (a.cell k)
  /-- Session leases on two keys are two items. -/
  addr_inj : ∀ k k' it it', N.Key k → N.Key k' → v.find (coLeaseKey k) = some it →
    v.find (coLeaseKey k') = some it' → it.addr = it'.addr → k = k'
  addr_lt : ∀ k it, N.Key k → v.find (coLeaseKey k) = some it → it.addr < v.next

/-- The names of the records of a key. -/
def cellNames (k : Bytes) : List Bytes := [coLeaseKey k, leaseKey k, versionKey k, k]

section Names

variable {N : Naming} {k k' sid : Bytes}

theorem coLeaseKey_injective : coLeaseKey k = coLeaseKey k' ↔ k = k' := by simp [coLeaseKey]

theorem coLeaseKey_ne_leaseKey : coLeaseKey k ≠ leaseKey k' := by simp [leaseKey, coLeaseKey]

theorem coLeaseKey_ne_versionKey : coLeaseKey k ≠ versionKey k' := by simp [versionKey, coLeaseKey]

theorem Naming.Key.unprefixed (h : N.Key k) : Unprefixed k := N.key_unprefixed h.isKey

theorem Naming.Sid.ne_key (h : N.Sid sid) (hk : N.Key k) : sid ≠ k := fun heq =>
      h.notKey (heq ▸ hk.isKey)

theorem Naming.Sid.not_leaseKey (key : Bytes) : ¬ N.Sid (leaseKey key) := fun h =>
      h.unprefixed.ne_leaseKey rfl

theorem Naming.Sid.not_versionKey (key : Bytes) : ¬ N.Sid (versionKey key) := fun h =>
      h.unprefixed.ne_versionKey rfl

theorem Naming.Sid.not_coLeaseKey (key : Bytes) : ¬ N.Sid (coLeaseKey key) := fun h =>
      h.unprefixed.ne_coLeaseKey rfl

theorem Naming.Sid.not_mem_cellNames (h : N.Sid sid) (hk : N.Key k) : sid ∉ cellNames k := by
  simp [cellNames, h.unprefixed.ne_coLeaseKey, h.unprefixed.ne_leaseKey, h.unprefixed.ne_versionKey,
    h.ne_key hk]

/-- Two keys have no record in common. -/
theorem Naming.Key.not_mem_cellNames (hk : N.Key k) (hk' : N.Key k') (hne : k' ≠ k)
    (hn : n ∈ cellNames k') :
    n ∉ cellNames k := by
  have hu := hk.unprefixed
  have hu' := hk'.unprefixed
  simp only [cellNames, List.mem_cons, List.not_mem_nil, or_false] at hn ⊢
  rcases hn with rfl | rfl | rfl | rfl
  · simp [coLeaseKey_injective, hne, coLeaseKey_ne_leaseKey, coLeaseKey_ne_versionKey,
      hu.ne_coLeaseKey.symm]
  · simp [hne, coLeaseKey_ne_leaseKey.symm, hu.ne_leaseKey.symm]
  · simp [hne, coLeaseKey_ne_versionKey.symm, leaseKey_ne_versionKey.symm, hu.ne_versionKey.symm]
  · simp [hne, hu'.ne_coLeaseKey, hu'.ne_leaseKey, hu'.ne_versionKey]

end Names

namespace CellOf

variable {N : Naming} {v v' : Sight} {k : Bytes} {c : Cell} {o : Option Item}

variable (h : CellOf N v k c)

include h

theorem congr (hv : ∀ n ∈ cellNames k, v'.find n = v.find n) : CellOf N v' k c where
  hold := by rw [hv _ (by simp [cellNames])]; exact h.hold
  lease := by rw [hv _ (by simp [cellNames])]; exact h.lease
  version := by rw [hv _ (by simp [cellNames])]; exact h.version
  value := by rw [hv _ (by simp [cellNames])]; exact h.value
  kind := h.kind
  filled := h.filled

theorem setHold {hold : Option Hold} (hk : N.Key k) (ho : Option.Rel (HoldOf N) o hold) :
    CellOf N (v.set (coLeaseKey k) o) k { c with hold := hold } where
  hold := by rwa [Sight.find_set_self]
  lease := by rw [Sight.find_set_of_ne coLeaseKey_ne_leaseKey.symm]; exact h.lease
  version := by rw [Sight.find_set_of_ne coLeaseKey_ne_versionKey.symm]; exact h.version
  value := by rw [Sight.find_set_of_ne hk.unprefixed.ne_coLeaseKey]; exact h.value
  kind := h.kind
  filled := h.filled

theorem setLease (hk : N.Key k) (ho : ∀ l, o = some l → l.isLeaseHolder = true) :
    CellOf N (v.set (leaseKey k) o) k { c with lease := o } where
  hold := by rw [Sight.find_set_of_ne coLeaseKey_ne_leaseKey]; exact h.hold
  lease := Sight.find_set_self
  version := by rw [Sight.find_set_of_ne leaseKey_ne_versionKey.symm]; exact h.version
  value := by rw [Sight.find_set_of_ne hk.unprefixed.ne_leaseKey]; exact h.value
  kind := ho
  filled := h.filled

theorem setVersion (hk : N.Key k) (ho : ∀ it, o = some it → it.data ≠ []) :
    CellOf N (v.set (versionKey k) o) k { c with version := o } where
  hold := by rw [Sight.find_set_of_ne coLeaseKey_ne_versionKey]; exact h.hold
  lease := by rw [Sight.find_set_of_ne leaseKey_ne_versionKey]; exact h.lease
  version := Sight.find_set_self
  value := by rw [Sight.find_set_of_ne hk.unprefixed.ne_versionKey]; exact h.value
  kind := h.kind
  filled it := Or.rec (ho it) fun hit => h.filled it (.inr hit)

theorem setValue (hk : N.Key k) (ho : ∀ it, o = some it → it.data ≠ []) :
    CellOf N (v.set k o) k { c with value := o } where
  hold := by rw [Sight.find_set_of_ne hk.unprefixed.ne_coLeaseKey.symm]; exact h.hold
  lease := by rw [Sight.find_set_of_ne hk.unprefixed.ne_leaseKey.symm]; exact h.lease
  version := by rw [Sight.find_set_of_ne hk.unprefixed.ne_versionKey.symm]; exact h.version
  value := Sight.find_set_self
  kind := h.kind
  filled it := Or.rec (fun hit => h.filled it (.inl hit)) (ho it)

end CellOf

namespace Represents

variable {N : Naming} {v : Sight} {a : State} {k sid : Bytes} {o : Option Item}

variable (h : Represents N v a)

include h

theorem alloc : Represents N v.alloc a where
  sess := h.sess
  cell k hk := (h.cell k hk).congr fun _ _ => rfl
  addr_inj := h.addr_inj
  addr_lt k it hk hit := Nat.lt_succ_of_lt (h.addr_lt k it hk hit)

/-- The record of a session changes. -/
theorem setSess {q : Option Sess} (hsid : N.Sid sid) (ho : Option.Rel (SessOf N) o q) :
    Represents N (v.set sid o) (a.setSess sid q) := by
  have hcell : ∀ k, N.Key k → ∀ n ∈ cellNames k, (v.set sid o).find n = v.find n := fun k hk n hn =>
    Sight.find_set_of_ne fun heq => hsid.not_mem_cellNames hk (heq ▸ hn)
  have hco : ∀ k, N.Key k → (v.set sid o).find (coLeaseKey k) = v.find (coLeaseKey k) := fun k hk =>
    hcell k hk _ mem_cons_self
  refine ⟨fun sid' hsid' => ?_, fun k hk => (h.cell k hk).congr (hcell k hk),
    fun k k' it it' hk hk' => ?_, fun k it hk => ?_⟩
  · rcases eq_or_ne sid' sid with rfl | hne
    · rwa [Sight.find_set_self, sess_setSess_self]
    · rw [Sight.find_set_of_ne hne, sess_setSess_of_ne hne]
      exact h.sess sid' hsid'
  · rw [hco k hk, hco k' hk']
    exact h.addr_inj k k' it it' hk hk'
  · rw [hco k hk]
    exact h.addr_lt k it hk

section

variable (hk : N.Key k)

include hk

/-- A record of a key changes; a session lease changes to a new one. -/
theorem setCell {c : Cell} (hn : n ∈ cellNames k)
    (hc : CellOf N (v.set n o) k c)
    (hnew : n = coLeaseKey k → ∀ it, o = some it → it.addr < v.next ∧
      ∀ k' it', N.Key k' → k' ≠ k → v.find (coLeaseKey k') = some it' → it'.addr ≠ it.addr) :
    Represents N (v.set n o) (a.setCell k c) := by
  have hother : ∀ k', N.Key k' → k' ≠ k → ∀ n' ∈ cellNames k', (v.set n o).find n' = v.find n' :=
    fun k' hk' hne n' hn' =>
    Sight.find_set_of_ne fun heq => hk.not_mem_cellNames hk' hne hn' (heq ▸ hn)
  have hco : ∀ k', N.Key k' → k' ≠ k → (v.set n o).find (coLeaseKey k') = v.find (coLeaseKey k') :=
    fun k' hk' hne =>
    hother k' hk' hne _ mem_cons_self
  -- the session lease of the key itself is an old or a new one
  have hself : ∀ it, (v.set n o).find (coLeaseKey k) = some it → it.addr < v.next ∧
      ∀ k' it', N.Key k' → k' ≠ k → v.find (coLeaseKey k') = some it' → it'.addr ≠ it.addr := by
    intro it hit
    rcases eq_or_ne n (coLeaseKey k) with rfl | hne
    · rw [Sight.find_set_self] at hit
      exact hnew rfl it hit
    · rw [Sight.find_set_of_ne hne.symm] at hit
      exact ⟨h.addr_lt k it hk hit, fun k' it' hk' hne' hit' heq =>
        hne' (h.addr_inj k' k it' it hk' hk hit' hit heq)⟩
  refine ⟨fun sid hsid => ?_, fun k' hk' => ?_, fun k₁ k₂ it₁ it₂ hk₁ hk₂ h₁ h₂ heq => ?_,
    fun k' it hk' hit => ?_⟩
  · rw [Sight.find_set_of_ne fun heq : sid = n => hsid.not_mem_cellNames hk (heq ▸ hn)]
    exact h.sess sid hsid
  · rcases eq_or_ne k' k with rfl | hne
    · rwa [cell_setCell_self]
    · rw [cell_setCell_of_ne hne]
      exact (h.cell k' hk').congr (hother k' hk' hne)
  · rcases eq_or_ne k₁ k with rfl | hne₁ <;> rcases eq_or_ne k₂ k₁ with rfl | hne₂
    · rfl
    · rw [hco k₂ hk₂ hne₂] at h₂
      exact absurd heq.symm ((hself it₁ h₁).2 k₂ it₂ hk₂ hne₂ h₂)
    · rfl
    · rw [hco k₁ hk₁ hne₁] at h₁
      rcases eq_or_ne k₂ k with rfl | hne
      · exact absurd heq ((hself it₂ h₂).2 k₁ it₁ hk₁ hne₁ h₁)
      · rw [hco k₂ hk₂ hne] at h₂
        exact h.addr_inj k₁ k₂ it₁ it₂ hk₁ hk₂ h₁ h₂ heq
  · rcases eq_or_ne k' k with rfl | hne
    · exact (hself it hit).1
    · rw [hco k' hk' hne] at hit
      exact h.addr_lt k' it hk' hit

theorem setLease (ho : ∀ l, o = some l → l.isLeaseHolder = true) :
    Represents N (v.set (leaseKey k) o) (a.setCell k { a.cell k with lease := o }) :=
  h.setCell hk (by simp [cellNames]) ((h.cell k hk).setLease hk ho) fun hn =>
    absurd hn.symm coLeaseKey_ne_leaseKey

theorem setVersion (ho : ∀ it, o = some it → it.data ≠ []) :
    Represents N (v.set (versionKey k) o) (a.setCell k { a.cell k with version := o }) :=
  h.setCell hk (by simp [cellNames]) ((h.cell k hk).setVersion hk ho) fun hn =>
    absurd hn.symm coLeaseKey_ne_versionKey

theorem setValue (ho : ∀ it, o = some it → it.data ≠ []) :
    Represents N (v.set k o) (a.setCell k { a.cell k with value := o }) :=
  h.setCell hk (by simp [cellNames]) ((h.cell k hk).setValue hk ho) fun hn =>
    absurd hn hk.unprefixed.ne_coLeaseKey

/-- The session lease of a key goes. -/
theorem dropHold : Represents N (v.set (coLeaseKey k) none)
      (a.setCell k { a.cell k with hold := none }) :=
  h.setCell hk (by simp [cellNames]) ((h.cell k hk).setHold hk .none) fun _ _ hit => nomatch hit

/-- The session lease of a key is made anew. -/
theorem newHold {hold : Hold} (hit : HoldOf N it hold) (haddr : it.addr = v.next) :
    Represents N (v.alloc.set (coLeaseKey k) (some it))
      (a.setCell k { a.cell k with hold := some hold }) := by
  refine h.alloc.setCell hk (by simp [cellNames]) ((h.alloc.cell k hk).setHold hk (.some hit)) ?_
  rintro - it' ⟨⟩
  refine ⟨haddr ▸ Nat.lt_succ_self _, fun k' it' hk' _ hit' heq => ?_⟩
  have hlt := h.addr_lt k' it' hk' hit'
  rw [heq, haddr] at hlt
  exact absurd hlt (lt_irrefl _)

/-- A key is held, and there is a session lease, or neither. -/
theorem hold_cases : (v.find (coLeaseKey k) = none ∧ (a.cell k).hold = none) ∨
    ∃ it hold, v.find (coLeaseKey k) = some it ∧ (a.cell k).hold = some hold ∧
    HoldOf N it hold := by
  have hrel := (h.cell k hk).hold
  generalize v.find (coLeaseKey k) = o, (a.cell k).hold = hold at hrel
  cases hrel with
  | none => exact .inl ⟨rfl, rfl⟩
  | some hit => exact .inr ⟨_, _, rfl, rfl, hit⟩

end

/-- There is a session, and a record of it, or neither. -/
theorem sess_cases (hsid : N.Sid sid) : (v.find sid = none ∧ a.sess sid = none) ∨
    ∃ it q, v.find sid = some it ∧ a.sess sid = some q ∧ SessOf N it q := by
  have hrel := h.sess sid hsid
  generalize v.find sid = o, a.sess sid = q at hrel
  cases hrel with
  | none => exact .inl ⟨rfl, rfl⟩
  | some hit => exact .inr ⟨_, _, rfl, rfl, hit⟩

end Represents

/-- A state in which the sessions are as in `a`, and a sight of it. -/
structure Serves (c : Settings) (N : Naming) (t : Clock) (s : Server) (v : Sight)
    (a : State) : Prop where
  sees : Sees c t s v
  repr : Represents N v a

namespace Serves

variable {c : Settings} {N : Naming} {t : Clock} {s : Server} {v : Sight} {a : State} {k : Bytes}

variable (h : Serves c N t s v a)

include h

theorem get {Q : Option Item → Server → Prop} (hQ : ∀ s', Serves c N t s' v a → Q (v.find n) s') :
    wlp (itemGet n) Q c s :=
  wlp_itemGet_sight h.sees fun s' hs' => hQ s' ⟨hs', h.repr⟩

/-- Drop the lease on a key, if there is one. -/
theorem dropLease (hk : N.Key k)
    (hQ : ∀ s', Serves c N t s' (v.set (leaseKey k) none)
      (a.setCell k { a.cell k with lease := none }) → Q () s') :
    wlp (whenSome (v.find (leaseKey k)) itemUnlink) Q c s :=
  wlp_unlinkFound_sight h.sees fun s' hs' => hQ s' ⟨hs', h.repr.setLease hk nofun⟩

/-- Drop the pending version of a key, if there is one. -/
theorem dropVersion (hk : N.Key k)
    (hQ : ∀ s', Serves c N t s' (v.set (versionKey k) none)
      (a.setCell k { a.cell k with version := none }) → Q () s') :
    wlp (whenSome (v.find (versionKey k)) itemUnlink) Q c s :=
  wlp_unlinkFound_sight h.sees fun s' hs' => hQ s' ⟨hs', h.repr.setVersion hk nofun⟩

/-- Drop the value of a key, if there is one. -/
theorem dropValue (hk : N.Key k)
    (hQ : ∀ s', Serves c N t s' (v.set k none)
      (a.setCell k { a.cell k with value := none }) → Q () s') :
    wlp (whenSome (v.find k) itemUnlink) Q c s :=
  wlp_unlinkFound_sight h.sees fun s' hs' => hQ s' ⟨hs', h.repr.setValue hk nofun⟩

end Serves

/-! ## Letting go of keys -/

section Leaving

variable {c : Settings} {N : Naming} {t : Clock} {s : Server} {v : Sight} {a : State} {h : Hold}
  {key sid : Bytes}

theorem HoldOf.listCo (hit : HoldOf N it h) : it.listCo = h.kind.flag := by
  have hflag := hit.flag
  rw [Item.listCo, ← hflag]
  cases hk : h.kind <;> simp [hk, Kind.flag] at hflag <;> simp [Item.hasCLease, Item.hasOLease,
    Item.hasOLeaseInv, Item.hasOLeaseRef, hflag]

section

variable (hs : Serves c N t s v a)

include hs

/-- `_item_remove_sid_colease` takes a session off the session lease. -/
theorem wlp_itemRemoveSidColease (hkey : N.Key key) (hsid : N.Sid sid)
    (hit : v.find (coLeaseKey key) = some it) :
    wlp (itemRemoveSidColease (some it) key sid) (fun _ s' => ∃ v',
      Serves c N t s' v' (a.setCell key ((a.cell key).leave {sid})) ∧
        ∀ n, n ≠ coLeaseKey key → v'.find n = v.find n) c s := by
  rcases hs.repr.hold_cases hkey with ⟨hnone, -⟩ | ⟨it', h, hsome, hhold, hof⟩
  · rw [hit] at hnone
    cases hnone
  rw [hit] at hsome
  cases hsome
  obtain ⟨ks, henc, hks⟩ := hof.lists
  have hmem : ∀ r, r ∈ ks ↔ r ∈ h.holders := fun r => by rw [← hks, List.mem_toFinset]
  rw [Cell.leave_of_some hhold]
  refine wlp_itemRemoveEntryFromList_sight hs.sees hit henc hsid.short (fun habsent => ?_)
    (fun hpresent hlast s' hs' => ?_)
    fun hpresent hrest s' it' hnew henc' hlease hco hs' => ?_
  · refine ⟨v, ?_, fun _ _ => rfl⟩
    rw [Hold.without_of_notMem (mt (hmem sid).mpr habsent) hof.nonempty, ← hhold, setCell_self]
    exact hs
  · have hsub : h.holders ⊆ {sid} := by
      intro r hr
      rw [Finset.mem_singleton]
      by_contra hne
      have herase := (mem_erase_of_ne hne).mpr ((hmem r).mpr hr)
      rw [hlast] at herase
      cases herase
    rw [Hold.without_of_subset hsub]
    exact ⟨_, ⟨hs', hs.repr.dropHold hkey⟩, fun n hn => Sight.find_set_of_ne hn⟩
  · have herase : (ks.erase sid).toFinset = h.holders \ {sid} := by
      ext r
      rw [List.mem_toFinset, henc.nodup.mem_erase_iff, Finset.mem_sdiff, Finset.mem_singleton,
        hmem, and_comm]
    have hrest' : (h.holders \ {sid}).Nonempty := by
      rw [← herase]
      exact toFinset_nonempty_iff _ |>.mpr hrest
    have hsub : ¬ h.holders ⊆ {sid} := sdiff_nonempty.mp hrest'
    rw [Hold.without_of_not_subset hsub]
    have hof' : HoldOf N it' ⟨h.kind, h.holders \ {sid}⟩ :=
      { flag := hco.trans hof.listCo
        lists := ⟨_, henc', herase⟩
        sids := fun r hr => hof.sids r (mem_sdiff.mp hr).1
        nonempty := hrest' }
    exact ⟨_, ⟨hs', hs.repr.newHold hkey hof' hnew.addr⟩, fun n hn => Sight.find_set_of_ne hn⟩

/-- Take a session off the session lease of a key, if there is one. -/
theorem wlp_leave (hkey : N.Key key) (hsid : N.Sid sid) :
    wlp (whenSome (v.find (coLeaseKey key)) fun coleaseIt => itemRemoveSidColease coleaseIt key sid)
      (fun _ s' => ∃ v', Serves c N t s' v' (a.setCell key ((a.cell key).leave {sid})) ∧
        ∀ n, n ≠ coLeaseKey key → v'.find n = v.find n) c s := by
  rcases hs.repr.hold_cases hkey with ⟨hnone, hhold⟩ | ⟨it, h, hsome, -⟩
  · rw [hnone, whenSome_none, wlp_pure, Cell.leave_of_none hhold, setCell_self]
    exact ⟨v, hs, fun _ _ => rfl⟩
  · rw [hsome, whenSome_some]
    exact wlp_itemRemoveSidColease hs hkey hsid hsome

/-- The body of the loop of `clean_session` works on the records of its key. -/
theorem wlp_cleanSessionKey (hkey : N.Key key) (hsid : N.Sid sid) :
    wlp (cleanSessionKey sid key) (fun _ s' =>
        ∃ v', Serves c N t s' v' (a.setCell key ((a.cell key).clean sid)) ∧
      ∀ n, Unprefixed n → v'.find n = v.find n) c s := by
  rw [cleanSessionKey, wlp_bind]
  refine hs.get fun s₁ hs₁ => ?_
  refine .bind (hs₁.dropLease hkey fun s₂ hs₂ => ?_)
  refine .bind (hs₂.get fun s₃ hs₃ => ?_)
  refine .bind ((wlp_leave hs₃ hkey hsid).mono fun _ s₄ ⟨v₄, hs₄, hv₄⟩ => ?_)
  refine .bind (hs₄.get fun s₅ hs₅ => ?_)
  refine hs₅.dropVersion hkey fun s₆ hs₆ => ?_
  simp only [setCell_setCell, cell_setCell_self] at hs₆
  refine ⟨_, hs₆, fun n hn => ?_⟩
  rw [Sight.find_set_of_ne hn.ne_versionKey, hv₄ n hn.ne_coLeaseKey,
    Sight.find_set_of_ne hn.ne_leaseKey]

/-- The loop of `clean_session`: every pass is about its own key. -/
theorem wlp_cleanSession_loop (hkeys : ∀ k ∈ ks, N.Key k) (hnodup : ks.Nodup) (hsid : N.Sid sid) :
    wlp (forEach (cleanSessionKey sid) ks) (fun _ s' =>
        ∃ v', Serves c N t s' v' (a.over ks.toFinset (·.clean sid)) ∧
      ∀ n, Unprefixed n → v'.find n = v.find n) c s := by
  induction ks generalizing s v a with
  | nil => exact .pure ⟨v, hs, fun _ _ => rfl⟩
  | cons key ks ih =>
    obtain ⟨hkey, hkeys⟩ := forall_mem_cons.mp hkeys
    obtain ⟨hnot, hnodup⟩ := nodup_cons.mp hnodup
    rw [forEach_cons, wlp_bind, toFinset_cons, over_insert _ (mt List.mem_toFinset.mp hnot)]
    refine (wlp_cleanSessionKey hs hkey hsid).mono fun _ s₁ ⟨v₁, hs₁, hv₁⟩ => ?_
    exact (ih hs₁ hkeys hnodup).mono fun _ s₂ ⟨v₂, hs₂, hv₂⟩ =>
      ⟨v₂, hs₂, fun n hn => (hv₂ n hn).trans (hv₁ n hn)⟩

/-- A session is taken off its keys and forgotten. -/
theorem wlp_cleanSessionKeys {q : Sess} (hsid : N.Sid sid) (hit : v.find sid = some it)
    (hq : a.sess sid = some q) :
    wlp (cleanSessionKeys sid it) (fun _ s' => ∃ v', Serves c N t s' v' (a.clean sid) ∧
      ∀ n, Unprefixed n → n ≠ sid → v'.find n = v.find n) c s := by
  rcases hs.repr.sess_cases hsid with ⟨-, hnone⟩ | ⟨it', q', hit', hq', hof⟩
  · rw [hq] at hnone
    cases hnone
  rw [hit] at hit'
  rw [hq] at hq'
  cases hit'
  cases hq'
  obtain ⟨ks, henc, hks⟩ := hof.lists
  rw [cleanSessionKeys, wlp_bind, henc.entries, deref_some, wlp_pure, wlp_bind]
  have hkeys : ∀ k ∈ ks, N.Key k := fun k hk => hof.keys k (hks ▸ List.mem_toFinset.mpr hk)
  refine (wlp_cleanSession_loop hs hkeys henc.nodup hsid).mono fun _ s₁ ⟨v₁, hs₁, hv₁⟩ => ?_
  obtain rfl := hs.sees.key_eq hit
  refine wlp_itemUnlink_sight hs₁.sees ((hv₁ _ hsid.unprefixed).trans hit) fun s₂ hs₂ => ?_
  have hclean : a.clean it.key = (a.over ks.toFinset (·.clean it.key)).setSess it.key none := by
    rw [State.clean, State.keys, hq, elim_some, ← hks]
    rfl
  rw [hclean]
  exact ⟨_, ⟨hs₂, hs₁.repr.setSess hsid .none⟩,
    fun n hn hne => (Sight.find_set_of_ne hne).trans (hv₁ n hn)⟩

/-- `clean_session` of a session that has not been aborted. -/
theorem wlp_cleanSession (hsid : N.Sid sid) (hmarked : a.marked sid = false) :
    wlp (cleanSession sid) (fun _ s' => ∃ v', Serves c N t s' v' (a.clean sid) ∧
      ∀ n, Unprefixed n → n ≠ sid → v'.find n = v.find n) c s := by
  rw [cleanSession, wlp_bind]
  refine hs.get fun s₁ hs₁ => ?_
  rcases hs.repr.sess_cases hsid with ⟨hnone, hsess⟩ | ⟨it, q, hit, hq, hof⟩
  · rw [hnone, whenSome_none, wlp_pure]
    refine ⟨v, ?_, fun _ _ _ => rfl⟩
    have hsame : a.clean sid = a := by
      have hkeys : a.keys sid = ∅ := by rw [State.keys, hsess, elim_none]
      rw [State.clean, hkeys, ← hsess, Function.update_eq_self]
      rfl
    rwa [hsame]
  · rw [hit, whenSome_some]
    have halive : it.sessStatus ≠ .abort := by
      rw [State.marked, hq, any_some] at hmarked
      rw [hof.status, hmarked]
      simp
    rw [if_neg halive]
    exact wlp_cleanSessionKeys hs₁ hsid hit hq

end

end Leaving

/-! ## Aborting readers -/

/-- Whether `abort_sessions` takes the entry `r` of a list for the session itself. -/
def takenFor (sid data r : Bytes) : Bool :=
  (trigKeylistEntries data).any fun psids => (psids.zip (trigKeylistTails data)).any fun p =>
    p.1 = r && sameSession sid p.2 = some true

/-- The readers of a key that a write of a session does not abort. -/
def Sight.spared (v : Sight) (sid key r : Bytes) : Bool :=
  r = sid || (v.find (coLeaseKey key)).any fun it => takenFor sid it.data r

section Entries

variable {sid r mem : Bytes}

theorem isPrefix_of_mem_tails (hs : ∀ k ∈ ks, Short k) (hf : ks.length ≤ fuel)
    (h : (r, mem) ∈ ks.zip (trigTailsFrom fuel (encode ks))) : r <+: mem := by
  induction ks generalizing fuel with
  | nil => cases h
  | cons k ks ih =>
    obtain ⟨fuel, rfl⟩ : ∃ f, fuel = f + 1 := ⟨fuel - 1, by simp at hf; omega⟩
    rw [encode_cons, trigTailsFrom, (hs k mem_cons_self).toNat_ofNat, drop_left, zip_cons_cons] at h
    rcases mem_cons.mp h with h | h
    · cases h
      exact prefix_append ..
    · exact ih (fun k' hk' => hs k' (mem_cons_of_mem _ hk')) (Nat.le_of_succ_le_succ hf) h

theorem length_trigTailsFrom_encode (hs : ∀ k ∈ ks, Short k) (hf : ks.length ≤ fuel) :
    (trigTailsFrom fuel (encode ks)).length = ks.length := by
  induction ks generalizing fuel with
  | nil => cases fuel <;> rfl
  | cons k ks ih =>
    obtain ⟨fuel, rfl⟩ : ∃ f, fuel = f + 1 := ⟨fuel - 1, by simp at hf; omega⟩
    rw [encode_cons, trigTailsFrom, (hs k mem_cons_self).toNat_ofNat, drop_left, length_cons,
      ih (fun k' hk' => hs k' (mem_cons_of_mem _ hk')) (Nat.le_of_succ_le_succ hf), length_cons]

/-- A session is the same as itself, whatever follows its entry. -/
theorem sameSession_self (h : sid <+: mem) : sameSession sid mem = some true := by
  obtain ⟨rest, rfl⟩ := h
  rw [sameSession, if_pos (by simp), take_left]
  simp

theorem mem_zip_unique {l l' : List Bytes} (hl : l.Nodup) {m m' : Bytes} (h : (r, m) ∈ l.zip l')
    (h' : (r, m') ∈ l.zip l') : m = m' := by
  induction l generalizing l' with
  | nil => cases h
  | cons k l ih =>
    obtain ⟨hk, hl⟩ := nodup_cons.mp hl
    cases l' with
    | nil => cases h
    | cons t l' =>
      rw [zip_cons_cons] at h h'
      rcases mem_cons.mp h with heq | hrest <;> rcases mem_cons.mp h' with heq' | hrest'
      · cases heq
        cases heq'
        rfl
      · cases heq
        exact absurd (of_mem_zip hrest').1 hk
      · cases heq'
        exact absurd (of_mem_zip hrest).1 hk
      · exact ih hl hrest hrest'

/-- What `abort_sessions` finds out about an entry is whether it is taken for the session. -/
theorem spared_of_sameSession {v : Sight} {key : Bytes} (hit : v.find (coLeaseKey key) = some it)
    (henc : Encodes it.data ks) (hmem : (r, mem) ∈ ks.zip (trigKeylistTails it.data)) {b : Bool}
    (hsame : sameSession sid mem = some b) : v.spared sid key r = b := by
  have htaken : takenFor sid it.data r = b := by
    rw [takenFor, henc.entries, any_some]
    cases b with
    | true => exact any_eq_true.mpr ⟨_, hmem, by simp [hsame]⟩
    | false =>
      rw [List.any_eq_false]
      rintro ⟨r', mem'⟩ hmem' htrue
      simp only [Bool.and_eq_true, decide_eq_true_eq] at htrue
      obtain ⟨rfl, hsame'⟩ := htrue
      rw [mem_zip_unique henc.nodup hmem' hmem, hsame] at hsame'
      cases hsame'
  rw [Sight.spared, hit, any_some, htaken]
  cases b with
  | true => exact Bool.or_true _
  | false =>
    have hne : r ≠ sid := by
      rintro rfl
      rw [trigKeylistTails, henc.eq_encode] at hmem
      rw [sameSession_self (isPrefix_of_mem_tails henc.short (length_le_length_encode ks)
        hmem)] at hsame
      cases hsame
    simp [hne]

end Entries

section Aborting

variable {c : Settings} {N : Naming} {t : Clock} {s : Server} {v : Sight} {a : State}
  {key k sid psid : Bytes}

/-- The inner loop of `abort_sessions` works on the records of its key, and leaves the key that is
written alone. -/
theorem wlp_abortSessionsKey (hs : Serves c N t s v a) (hkey : N.Key key) (hk : N.Key k)
    (hpsid : N.Sid psid) (hit : v.find (coLeaseKey key) = some it) :
    wlp (abortSessionsKey it psid k) (fun _ s' =>
        ∃ v', Serves c N t s' v' (if k = key then a else a.setCell k ((a.cell k).expel {psid})) ∧
        (∀ n, Unprefixed n → v'.find n = v.find n) ∧ v'.find (coLeaseKey key) = some it) c s := by
  rw [abortSessionsKey, wlp_bind]
  refine hs.get fun s₁ hs₁ => ?_
  rcases hs.repr.hold_cases hk with ⟨hnone, hhold⟩ | ⟨tit, h, htit, hhold, hof⟩
  · rw [hnone, whenSome_none, wlp_pure]
    refine ⟨v, ?_, fun _ _ => rfl, hit⟩
    split
    · exact hs₁
    · rwa [Cell.expel_of_none hhold, setCell_self]
  · rw [htit, whenSome_some]
    by_cases hsame : k = key
    · subst hsame
      rw [hit] at htit
      cases htit
      rw [decide_eq_false (not_not.mpr rfl), when_false, wlp_pure, if_pos rfl]
      exact ⟨v, hs₁, fun _ _ => rfl, hit⟩
    · have haddr : tit.addr ≠ it.addr := fun heq =>
        hsame (hs.repr.addr_inj k key tit it hk hkey htit hit heq)
      obtain ⟨ks, henc, hks⟩ := hof.lists
      rw [decide_eq_true haddr, when_true, wlp_bind,
        wlp_itemCheckEntry_sight (o := some tit) henc hpsid.short, wlp_bind, if_neg hsame]
      have hleave : wlp (when (decide (psid ∈ ks)) (itemRemoveSidColease (some tit) k psid))
        (fun _ s' => ∃ v', Serves c N t s' v' (a.setCell k ((a.cell k).leave {psid})) ∧
            ∀ n, n ≠ coLeaseKey k → v'.find n = v.find n) c s₁ := by
        rw [wlp_when]
        refine ⟨fun _ => wlp_itemRemoveSidColease hs₁ hk hpsid htit,
          fun habsent => ⟨v, ?_, fun _ _ => rfl⟩⟩
        have habsent : psid ∉ h.holders := by
          rw [← hks, List.mem_toFinset]
          simpa using habsent
        rw [Cell.leave_of_some hhold, Hold.without_of_notMem habsent hof.nonempty, ← hhold,
          setCell_self]
        exact hs₁
      refine hleave.mono fun _ s₂ ⟨v₂, hs₂, hv₂⟩ => ?_
      refine .bind (hs₂.get fun s₃ hs₃ => hs₃.dropLease hk fun s₄ hs₄ => ?_)
      rw [Cell.expel_of_some (singleton_ne_empty psid) hhold]
      rw [Cell.leave_of_some hhold, setCell_setCell, cell_setCell_self] at hs₄
      refine ⟨_, hs₄, fun n hn => ?_, ?_⟩
      · rw [Sight.find_set_of_ne hn.ne_leaseKey, hv₂ n hn.ne_coLeaseKey]
      · rw [Sight.find_set_of_ne coLeaseKey_ne_leaseKey,
          hv₂ _ (mt coLeaseKey_injective.mp (Ne.symm hsame)), hit]

theorem wlp_abortSessionsKey_loop (hs : Serves c N t s v a) (hkey : N.Key key)
    (hkeys : ∀ k ∈ ks, N.Key k) (hnodup : ks.Nodup) (hpsid : N.Sid psid)
    (hit : v.find (coLeaseKey key) = some it) :
    wlp (forEach (abortSessionsKey it psid) ks) (fun _ s' => ∃ v',
      Serves c N t s' v' (a.over (ks.toFinset.erase key) (·.expel {psid})) ∧
        (∀ n, Unprefixed n → v'.find n = v.find n) ∧ v'.find (coLeaseKey key) = some it) c s := by
  induction ks generalizing s v a with
  | nil => exact .pure ⟨v, hs, fun _ _ => rfl, hit⟩
  | cons k ks ih =>
    obtain ⟨hk, hkeys⟩ := forall_mem_cons.mp hkeys
    obtain ⟨hnot, hnodup⟩ := nodup_cons.mp hnodup
    have hnot : k ∉ ks.toFinset := mt List.mem_toFinset.mp hnot
    rw [forEach_cons, wlp_bind]
    refine (wlp_abortSessionsKey hs hkey hk hpsid hit).mono fun _ s₁ ⟨v₁, hs₁, hv₁, hit₁⟩ => ?_
    refine (ih hs₁ hkeys hnodup hit₁).mono fun _ s₂ ⟨v₂, hs₂, hv₂, hit₂⟩ =>
      ⟨v₂, ?_, fun n hn => (hv₂ n hn).trans (hv₁ n hn), hit₂⟩
    rw [toFinset_cons]
    by_cases hsame : k = key
    · subst hsame
      rw [if_pos rfl, erase_eq_of_notMem hnot] at hs₂
      rwa [erase_insert hnot]
    · rw [erase_insert_of_ne hsame, over_insert _ (mt mem_of_mem_erase hnot)]
      rwa [if_neg hsame] at hs₂

/-- The body of the loop of `abort_sessions` aborts one session, unless it takes it for the one that
writes. -/
theorem wlp_abortSession {mem : Bytes} {sp : Bool} (hs : Serves c N t s v a) (hkey : N.Key key)
    (hpsid : N.Sid psid) (hit : v.find (coLeaseKey key) = some it)
    (hsp : ∀ b, sameSession sid mem = some b → b = sp) :
    wlp (abortSession it sid psid mem) (fun _ s' => ∃ v',
      Serves c N t s' v' (a.abort key (if !sp && (a.sess psid).isSome then {psid} else ∅)) ∧
        v'.find (coLeaseKey key) = some it) c s := by
  rw [abortSession, wlp_bind]
  refine hs.get fun s₁ hs₁ => ?_
  rcases hs.repr.sess_cases hpsid with ⟨hnone, hsess⟩ | ⟨psessIt, q, hfound, hsess, hof⟩
  · rw [hnone, whenSome_none, wlp_pure, hsess]
    refine ⟨v, ?_, hit⟩
    rwa [Option.isSome_none, Bool.and_false, if_neg Bool.false_ne_true, State.abort_empty]
  · rw [hfound, whenSome_some, wlp_bind, wlp_deref]
    intro same hsame
    obtain rfl := hsp same hsame
    rw [wlp_when, hsess, Option.isSome_some, Bool.and_true]
    refine ⟨fun hother => ?_, fun hother => ⟨v, ?_, hit⟩⟩
    · obtain rfl := hs.sees.key_eq hfound
      obtain ⟨ks, henc, hks⟩ := hof.lists
      refine .bind (wlp_itemWrite_sight hs₁.sees hfound (fun _ => rfl) ⟨rfl, rfl⟩ fun s₂ hs₂ => ?_)
      have hmarked : SessOf N { psessIt with sessStatus := .abort } { q with aborted := true } :=
        { status := rfl
          lists := ⟨ks, henc, hks⟩
          keys := hof.keys }
      have hserves : Serves c N t s₂ _ _ := ⟨hs₂, hs₁.repr.setSess hpsid (.some hmarked)⟩
      rw [wlp_bind, henc.entries, deref_some, wlp_pure]
      have hkeys : ∀ k ∈ ks, N.Key k := fun k hk => hof.keys k (hks ▸ List.mem_toFinset.mpr hk)
      have hit₂ : (v.set psessIt.key (some { psessIt with sessStatus := .abort })).find
        (coLeaseKey key) = some it := by
        rwa [Sight.find_set_of_ne hpsid.unprefixed.ne_coLeaseKey.symm]
      refine (wlp_abortSessionsKey_loop hserves hkey hkeys henc.nodup hpsid hit₂).mono
        fun _ s₃ ⟨v₃, hs₃, _, hit₃⟩ => ⟨v₃, ?_, hit₃⟩
      rw [hks] at hs₃
      rwa [if_pos hother, abort_singleton a key hsess]
    · rwa [if_neg (by simpa using hother), abort_empty]

/-- The readers in a list that a write aborts. -/
def abortable (a : State) (spared : Bytes → Bool) (rs : List Bytes) : Finset Bytes :=
  (rs.filter fun r => !spared r && (a.sess r).isSome).toFinset

theorem wlp_abortSession_loop {spared : Bytes → Bool} {ps : List (Bytes × Bytes)}
    (hs : Serves c N t s v a) (hkey : N.Key key) (hsids : ∀ p ∈ ps, N.Sid p.1)
    (hit : v.find (coLeaseKey key) = some it)
    (hsp : ∀ p ∈ ps, ∀ b, sameSession sid p.2 = some b → spared p.1 = b) :
    wlp (forEach (fun p => abortSession it sid p.1 p.2) ps) (fun _ s' => ∃ v',
      Serves c N t s' v' (a.abort key (abortable a spared (ps.map Prod.fst))) ∧
        v'.find (coLeaseKey key) = some it) c s := by
  induction ps generalizing s v a with
  | nil =>
    refine .pure ⟨v, ?_, hit⟩
    rwa [abortable, map_nil, filter_nil, toFinset_nil, abort_empty]
  | cons p ps ih =>
    obtain ⟨hsid, hsids⟩ := forall_mem_cons.mp hsids
    obtain ⟨hsp₁, hsp⟩ := forall_mem_cons.mp hsp
    rw [forEach_cons, wlp_bind]
    refine (wlp_abortSession hs hkey hsid hit fun b hb => (hsp₁ b hb).symm).mono fun _ s₁ ⟨v₁,
      hs₁, hit₁⟩ => ?_
    refine (ih hs₁ hsids hit₁ hsp).mono fun _ s₂ ⟨v₂, hs₂, hit₂⟩ => ⟨v₂, ?_, hit₂⟩
    have hsame : ∀ sids, abortable (a.abort key sids) spared (ps.map Prod.fst) = abortable a spared
      (ps.map Prod.fst) :=
      fun sids => by simp only [abortable, isSome_abort]
    have hcons : abortable a spared ((p :: ps).map Prod.fst) =
        (if !spared p.1 && (a.sess p.1).isSome then {p.1} else ∅) ∪ abortable a spared
          (ps.map Prod.fst) := by
      rw [abortable, List.map_cons, List.filter_cons]
      split
      · rw [List.toFinset_cons, Finset.insert_eq]
        rfl
      · rw [empty_union]
        rfl
    rwa [abort_abort, hsame, ← hcons] at hs₂

/-- `abort_sessions` aborts the readers of a key. -/
theorem wlp_abortSessions (hs : Serves c N t s v a) (hkey : N.Key key)
    (hit : v.find (coLeaseKey key) = some it) :
    wlp (abortSessions it sid) (fun _ s' => ∃ v',
      Serves c N t s' v' (a.abort key (a.victims (v.spared sid key) key)) ∧
        v'.find (coLeaseKey key) = some it) c s := by
  rcases hs.repr.hold_cases hkey with ⟨hnone, -⟩ | ⟨it', h, hsome, hhold, hof⟩
  · rw [hit] at hnone
    cases hnone
  rw [hit] at hsome
  cases hsome
  obtain ⟨ks, henc, hks⟩ := hof.lists
  rw [abortSessions, wlp_bind, henc.entries, deref_some, wlp_pure]
  have hlength : ks.length ≤ (trigKeylistTails it.data).length := by
    rw [trigKeylistTails, henc.eq_encode]
    exact (length_trigTailsFrom_encode henc.short (length_le_length_encode ks)).ge
  have hsids : ∀ p ∈ ks.zip (trigKeylistTails it.data), N.Sid p.1 := fun p hp =>
    hof.sids p.1 (hks ▸ List.mem_toFinset.mpr (of_mem_zip hp).1)
  refine (wlp_abortSession_loop hs hkey hsids hit fun p hp b hb =>
    spared_of_sameSession hit henc hp hb).mono
    fun _ s₁ ⟨v₁, hs₁, hit₁⟩ => ⟨v₁, ?_, hit₁⟩
  have hvictims : a.victims (v.spared sid key) key = abortable a (v.spared sid key) ks := by
    rw [State.victims, hhold, elim_some, ← hks, abortable, toFinset_filter]
  rwa [map_fst_zip hlength, ← hvictims] at hs₁

/-- Readers are aborted, and their session lease goes. -/
theorem Serves.vacate {α : Type} {m : ServerM α} {Q : α → Server → Prop} (hs : Serves c N t s v a)
    (hkey : N.Key key) (hit : v.find (coLeaseKey key) = some it)
    (hm : ∀ s' v', Serves c N t s' v' (a.vacate (v.spared sid key) key) → wlp m Q c s') :
    wlp (abortSessions it sid >>= fun _ => itemUnlink it >>= fun _ => m) Q c s := by
  refine .bind ((wlp_abortSessions hs hkey hit).mono fun _ s₁ ⟨v₁, hs₁, hit₁⟩ => .bind ?_)
  refine wlp_itemUnlink_sight hs₁.sees hit₁ fun s₂ hs₂ => hm s₂ _ ⟨hs₂, ?_⟩
  have hcell : (a.abort key (a.victims (v.spared sid key) key)).cell key = a.cell key := if_pos rfl
  have hrepr := hs₁.repr.dropHold hkey
  rwa [hcell] at hrepr

end Aborting

end Rejig
