import Rejig.Co
import Mathlib.Data.Finset.Lattice.Lemmas
import Mathlib.Data.Finset.Basic

/-!
# Sessions, abstractly

What the session operations do, said about the things that sessions are: a session has a set of keys
and may have been aborted; a key is held by a set of sessions, which share it or of which one may
write it; and a key has a lease, a pending version and a value.  Encodings, the identity of records
and the order of entries are gone, and so are the loops: what an operation does to many keys is one
function on all of them.

`Step a sid op r a'` lists what an operation can do, branch by branch.  That the operations of
`mc_items.c` do this is proved in `Rejig.SessionRefines`; the modules after it argue about `Step`
alone.
-/

namespace Rejig.Session

open Option Function Finset

variable {sids : Finset Bytes} {q : Option Sess}

/-- What the holders of a key may do with it. -/
inductive Kind where
  | shared
  | refresh
  | invalidate
deriving DecidableEq, Repr

/-- A session lease: who holds a key, and what for. -/
structure Hold where
  kind : Kind
  holders : Finset Bytes

/-- What is left of a session lease when sessions let go of it. -/
def Hold.without (h : Hold) (sids : Finset Bytes) : Option Hold :=
  if h.holders ⊆ sids then none else some { h with holders := h.holders \ sids }

/-- A session. -/
structure Sess where
  aborted : Bool
  keys : Finset Bytes

/-- The records of a key. -/
structure Cell where
  hold : Option Hold
  lease : Option Item
  version : Option Item
  value : Option Item

/-- All sessions, and all keys. -/
@[ext]
structure State where
  sess : Bytes → Option Sess
  cell : Bytes → Cell

/-! ## Changes -/

namespace Cell

/-- Sessions let go of a key. -/
def leave (c : Cell) (sids : Finset Bytes) : Cell := { c with hold := c.hold.bind (·.without sids) }

/-- A session is cleaned off a key. -/
def clean (c : Cell) (sid : Bytes) : Cell := { c.leave {sid} with lease := none, version := none }

/-- Sessions that were aborted are taken off a key, and its lease goes if it is held at all. -/
def expel (c : Cell) (sids : Finset Bytes) : Cell :=
  if sids = ∅ || c.hold.isNone then c else { c.leave sids with lease := none }

end Cell

namespace State

/-- Whether a session has been aborted. -/
def marked (a : State) (sid : Bytes) : Bool := (a.sess sid).any Sess.aborted

/-- The keys of a session. -/
def keys (a : State) (sid : Bytes) : Finset Bytes := (a.sess sid).elim ∅ Sess.keys

/-- Change the records of a key. -/
def setCell (a : State) (key : Bytes) (c : Cell) : State := { a with cell := update a.cell key c }

/-- A session is forgotten. -/
def drop (a : State) (sid : Bytes) : State := { a with sess := update a.sess sid none }

/-- A key is entered in the list of a session. -/
def enter (a : State) (sid key : Bytes) : State :=
  { a with sess := update a.sess sid (some ⟨false, insert key (a.keys sid)⟩) }

/-- A session is taken off all its keys, and forgotten. -/
def clean (a : State) (sid : Bytes) : State where
  sess := update a.sess sid none
  cell k := if k ∈ a.keys sid then (a.cell k).clean sid else a.cell k

/-- The readers that a write to a key aborts: those there are, except the ones that are spared. -/
def victims (a : State) (spared : Bytes → Bool) (key : Bytes) : Finset Bytes :=
  (a.cell key).hold.elim ∅ fun h => h.holders.filter fun r => !spared r && (a.sess r).isSome

/-- Sessions are aborted on behalf of a write to a key: they are marked, and taken off their other
keys. -/
def abort (a : State) (key : Bytes) (sids : Finset Bytes) : State where
  sess r := if r ∈ sids then (a.sess r).map fun q => { q with aborted := true } else a.sess r
  cell k := if k = key then a.cell key else (a.cell k).expel {r ∈ sids | k ∈ a.keys r}

/-- The readers of a key are aborted, and the key is free. -/
def vacate (a : State) (spared : Bytes → Bool) (key : Bytes) : State :=
  (a.abort key (a.victims spared key)).setCell key { a.cell key with hold := none }

end State

/-! ### How changes compose -/

namespace State

variable {a : State} {k k' sid sid' : Bytes} {c : Cell}

@[simp] theorem cell_setCell_self : (a.setCell k c).cell k = c := update_self ..

theorem cell_setCell_of_ne (h : k' ≠ k) : (a.setCell k c).cell k' = a.cell k' := update_of_ne h ..

@[simp] theorem sess_setCell : (a.setCell k c).sess = a.sess := rfl

/-- Change a session. -/
def setSess (a : State) (sid : Bytes) (q : Option Sess) : State :=
  { a with sess := update a.sess sid q }

@[simp] theorem sess_setSess_self : (a.setSess sid q).sess sid = q := update_self ..

theorem sess_setSess_of_ne (h : sid' ≠ sid) : (a.setSess sid q).sess sid' = a.sess sid' :=
  update_of_ne h ..

@[simp] theorem cell_setSess : (a.setSess sid q).cell = a.cell := rfl

end State

theorem State.setCell_self (a : State) (k : Bytes) : a.setCell k (a.cell k) = a := by
  rw [State.setCell, update_eq_self]

@[simp] theorem State.setCell_setCell (a : State) (k : Bytes) (c c' : Cell) :
    (a.setCell k c).setCell k c' = a.setCell k c' := by
  rw [State.setCell, State.setCell, update_idem]
  rfl

/-- Change the records of many keys, each on its own. -/
def State.over (a : State) (ks : Finset Bytes) (f : Cell → Cell) : State :=
  { a with cell := fun k => if k ∈ ks then f (a.cell k) else a.cell k }

/-- One key after the other is all of them at once. -/
theorem State.over_insert (a : State) {k : Bytes} {ks : Finset Bytes} (hk : k ∉ ks)
    (f : Cell → Cell) :
    a.over (insert k ks) f = (a.setCell k (f (a.cell k))).over ks f := by
  apply State.ext
  · rfl
  · funext k'
    rcases eq_or_ne k' k with rfl | hne
    · simp [State.over, hk]
    · simp [State.over, hne, cell_setCell_of_ne hne]

variable {h : Hold} {sid : Bytes} {c : Cell}

theorem Hold.without_of_notMem (hsid : sid ∉ h.holders) (hne : h.holders.Nonempty) :
    h.without {sid} = some h := by
  have hsub : ¬ h.holders ⊆ {sid} := by
    obtain ⟨r, hr⟩ := hne
    intro hsub
    have := mem_singleton.mp (hsub hr)
    exact hsid (this ▸ hr)
  rw [without, if_neg hsub, sdiff_singleton_eq_erase, erase_eq_of_notMem hsid]

theorem Hold.without_of_subset (hsub : h.holders ⊆ sids) : h.without sids = none := if_pos hsub

theorem Hold.without_of_not_subset (hsub : ¬ h.holders ⊆ sids) :
    h.without sids = some ⟨h.kind, h.holders \ sids⟩ := if_neg hsub

theorem Cell.leave_of_none (hc : c.hold = none) : c.leave sids = c := by
  rw [leave, hc, bind_none, ← hc]

theorem Cell.leave_of_some (hc : c.hold = some h) :
    c.leave sids = { c with hold := h.without sids } := by
  rw [leave, hc, bind_some]

theorem Cell.expel_empty (c : Cell) : c.expel ∅ = c := by
  rw [expel, decide_eq_true rfl]
  rfl

theorem Cell.expel_of_none (hc : c.hold = none) : c.expel sids = c := by
  rw [expel, hc, isNone_none, Bool.or_true]
  rfl

theorem Cell.expel_of_some (hne : sids ≠ ∅) (hc : c.hold = some h) :
    c.expel sids = { c with hold := h.without sids, lease := none } := by
  rw [expel, decide_eq_false hne, hc, leave_of_some hc]
  rfl

theorem Hold.bind_without (h : Hold) (A B : Finset Bytes) :
    (h.without A).bind (·.without B) = h.without (A ∪ B) := by
  by_cases hA : h.holders ⊆ A
  · rw [without_of_subset hA, without_of_subset (hA.trans subset_union_left), bind_none]
  · rw [without_of_not_subset hA, bind_some, without, without]
    have hsub : h.holders \ A ⊆ B ↔ h.holders ⊆ A ∪ B := sdiff_le_iff
    have hdiff : (h.holders \ A) \ B = h.holders \ (A ∪ B) := sdiff_sdiff_left
    simp only [hsub, hdiff]

/-- Sessions may be expelled one after the other. -/
theorem Cell.expel_expel (c : Cell) (A B : Finset Bytes) :
    (c.expel A).expel B = c.expel (A ∪ B) := by
  by_cases hA : A = ∅
  · rw [hA, expel_empty, empty_union]
  by_cases hB : B = ∅
  · rw [hB, expel_empty, union_empty]
  have hAB : A ∪ B ≠ ∅ := fun hempty => hA (union_eq_empty.mp hempty).1
  cases hc : c.hold with
  | none => rw [expel_of_none hc, expel_of_none hc, expel_of_none hc]
  | some h =>
    rw [expel_of_some hA hc, expel_of_some hAB hc, ← h.bind_without A B]
    cases hw : h.without A with
    | none => exact expel_of_none rfl
    | some h' => exact expel_of_some hB rfl

theorem State.keys_abort (a : State) (key r : Bytes) (sids : Finset Bytes) :
    (a.abort key sids).keys r = a.keys r := by
  simp only [keys, abort]
  split
  · cases a.sess r <;> rfl
  · rfl

theorem State.isSome_abort (a : State) (key r : Bytes) (sids : Finset Bytes) :
    ((a.abort key sids).sess r).isSome = (a.sess r).isSome := by
  simp only [abort]
  split
  · rw [isSome_map]
  · rfl

theorem State.abort_empty (a : State) (key : Bytes) : a.abort key ∅ = a := by
  apply State.ext
  · rfl
  · funext k
    simp only [abort, filter_empty, Cell.expel_empty]
    split
    · next h => rw [h]
    · rfl

/-- Sessions may be aborted one after the other. -/
theorem State.abort_abort (a : State) (key : Bytes) (A B : Finset Bytes) :
    (a.abort key A).abort key B = a.abort key (A ∪ B) := by
  apply State.ext
  · funext r
    simp only [abort, mem_union]
    by_cases hA : r ∈ A <;> by_cases hB : r ∈ B <;> cases a.sess r <;> simp [hA, hB]
  · funext k
    by_cases hk : k = key
    · simp [abort, hk]
    · have hexpel : ∀ b : State, ∀ sids, (b.abort key sids).cell k = (b.cell k).expel
        {r ∈ sids | k ∈ b.keys r} :=
        fun _ _ => if_neg hk
      simp only [hexpel, keys_abort, Cell.expel_expel, filter_union]

/-- One session, seen key by key. -/
theorem State.abort_singleton (a : State) (key : Bytes) {r : Bytes} {q : Sess}
    (hq : a.sess r = some q) :
    a.abort key {r} = (a.setSess r (some { q with aborted := true })).over (q.keys.erase key)
      (·.expel {r}) := by
  have hkeys : a.keys r = q.keys := by rw [keys, hq, elim_some]
  apply State.ext
  · funext r'
    rcases eq_or_ne r' r with rfl | hne
    · simp [abort, State.over, setSess, hq]
    · simp [abort, State.over, setSess, hne]
  · funext k
    by_cases hk : k = key
    · simp [abort, State.over, hk]
    · by_cases hmem : k ∈ q.keys
      · have hfilter : ({r' ∈ ({r} : Finset Bytes) | k ∈ a.keys r'}) = {r} :=
          filter_true_of_mem fun r' hr' => by rwa [mem_singleton.mp hr', hkeys]
        simp [abort, State.over, hk, hmem, hfilter]
      · have hfilter : ({r' ∈ ({r} : Finset Bytes) | k ∈ a.keys r'}) = ∅ :=
          filter_false_of_mem fun r' hr' => by rwa [mem_singleton.mp hr', hkeys]
        simp [abort, State.over, hk, hmem, hfilter, Cell.expel_empty]

namespace State

variable {a : State} {spared : Bytes → Bool} {key k : Bytes}

@[simp] theorem cell_enter : (a.enter sid key).cell = a.cell := rfl

@[simp] theorem keys_enter_self : (a.enter sid key).keys sid = insert key (a.keys sid) := by
  have hsess : (a.enter sid key).sess sid = some ⟨false, insert key (a.keys sid)⟩ := update_self ..
  rw [keys, hsess, elim_some]

/-- Entering a key and changing a key do not interfere. -/
theorem enter_setCell : (a.setCell k c).enter sid key = (a.enter sid key).setCell k c := rfl

@[simp] theorem cell_vacate : (a.vacate spared key).cell key = { a.cell key with hold := none } :=
  cell_setCell_self

theorem cell_vacate_of_ne (h : k ≠ key) :
    (a.vacate spared key).cell k = (a.cell k).expel {r ∈ a.victims spared key | k ∈ a.keys r} := by
  rw [vacate, cell_setCell_of_ne h]
  exact if_neg h

theorem sess_vacate_of_notMem (h : sid ∉ a.victims spared key) :
    (a.vacate spared key).sess sid = a.sess sid :=
  if_neg h

@[simp] theorem marked_setCell : (a.setCell k c).marked sid = a.marked sid := rfl

/-- A key that nobody holds is free already. -/
theorem vacate_of_none (h : (a.cell key).hold = none) : a.vacate spared key = a := by
  have hvictims : a.victims spared key = ∅ := by rw [victims, h, elim_none]
  rw [vacate, hvictims, abort_empty, ← h, setCell_self]

/-- What is done to the other records of a key may as well be done once its readers are gone. -/
theorem vacate_setCell (hc : c.hold = (a.cell key).hold) :
    (a.setCell key c).vacate spared key = (a.vacate spared key).setCell key
      { c with hold := none } := by
  have hvictims : (a.setCell key c).victims spared key = a.victims spared key := by
    rw [victims, victims, cell_setCell_self, hc]
    rfl
  rw [vacate, vacate, hvictims, cell_setCell_self, setCell_setCell]
  apply State.ext
  · rfl
  · funext k
    rcases eq_or_ne k key with rfl | hne
    · simp
    · rw [cell_setCell_of_ne hne, cell_setCell_of_ne hne]
      simp only [abort, if_neg hne, cell_setCell_of_ne hne]
      rfl

/-- A session that is spared is not marked. -/
theorem marked_vacate (hsid : spared sid = true) :
    (a.vacate spared key).marked sid = a.marked sid := by
  have hnot : sid ∉ a.victims spared key := by
    rw [victims]
    cases (a.cell key).hold <;> simp [hsid]
  simp [vacate, marked, abort, hnot]

/-- A key that a session has already may be entered again. -/
theorem enter_of_mem {q : Sess} (hq : a.sess sid = some q) (halive : q.aborted = false)
    (hkey : key ∈ q.keys) :
    a.enter sid key = a := by
  have hsess : some (⟨false, insert key (a.keys sid)⟩ : Sess) = a.sess sid := by
    rw [keys, hq, elim_some, insert_eq_of_mem hkey, ← halive]
  rw [enter, hsess, update_eq_self]

end State

/-! ## Operations -/

/-- The value that a pending version becomes. -/
structure Publishes (pv it : Item) : Prop where
  data : it.data = pv.data
  dataflags : it.dataflags = pv.dataflags

/-- An item whose expiry was changed. -/
def Retimed (it it' : Item) : Prop := ∃ exptime, it' = { it with exptime := exptime }

/-- What a commit makes of the version and the value of a key, by the kind of the session lease. -/
def Kind.Commits (c c' : Cell) : Kind → Prop
  | .invalidate => c'.version = c.version ∧ c'.value = none
  | .refresh => c'.version = none ∧ Option.Rel Publishes c.version c'.value
  | .shared => c'.version = c.version ∧ Option.Rel Retimed c.value c'.value

/-- What a commit of a session makes of one of its keys. -/
structure Cell.Committed (sid : Bytes) (c c' : Cell) : Prop where
  lease : c'.lease = none
  hold : c'.hold = (c.leave {sid}).hold
  free : c.hold = none → c'.version = c.version ∧ c'.value = c.value
  held : ∀ h, c.hold = some h → h.kind.Commits c c'

/-- The operations on behalf of a session. -/
inductive Op where
  | ciget (key : Bytes) (leaseToken : UInt64)
  | oqread (key : Bytes)
  | oqswap (it : Item)
  | oqwrite (it : Item)
  | oqDelta (incr : Bool) (key : Bytes) (delta : UInt64)
  | oqConcat (append : Bool) (key data : Bytes)
  | oqreg (key : Bytes)
  | validate
  | dcommit
  | coUnlease

namespace Op

/-- The key of an operation that a foreign exclusive lease on it ends. -/
def meets : Op → Option Bytes
  | ciget key _ | oqread key | oqDelta _ key _ | oqConcat _ key _ => some key
  | oqwrite it => some it.key
  | _ => none

/-- The answer when there is no such session. -/
def unknown : Op → Option CoResult
  | validate => some .abort
  | dcommit | coUnlease => some .notFound
  | _ => none

/-- The key of an incremental update. -/
def updates : Op → Option Bytes
  | oqDelta _ key _ | oqConcat _ key _ => some key
  | _ => none

/-- The text after an increment in place, or in a longer item. -/
def deltaData (incr : Bool) (delta value : UInt64) (pv : Item) : Bytes :=
  let buf := decimal (addDelta incr value delta)
  if pv.nbyte < buf.length then buf else inPlaceData pv buf

/-- What an incremental update makes of a payload, and the result. -/
def apply (pv : Item) : Op → CoResult × Bytes
  | oqDelta incr _ delta =>
    match mcStrtoullLen pv.data with
    | none => (.abort, pv.data)
    | some value => (.ok, deltaData incr delta value pv)
  | oqConcat append _ data => (.ok, if append then pv.data ++ data else data ++ pv.data)
  | _ => (.ok, pv.data)

/-- What an incremental update works on: the pending version, or a copy of the value. -/
def base (c : Cell) : Option Item :=
  match c.version with
  | some pv => some pv
  | none => c.value.map fun it => { it with ralign := false }

/-- What an incremental update makes of the lease and the pending version of a key.  A Q lease makes
it do nothing; an I lease gives way. -/
structure Updates (op : Op) (c c' : Cell) (r : CoResult) : Prop where
  quarantined : ∀ l, c.lease = some l → l.hasQLease = true → r = .ok ∧ c' = c
  lease : (∀ l, c.lease = some l → l.hasILease = true) → c'.lease = none
  nothing : (∀ l, c.lease = some l → l.hasILease = true) → base c = none →
    r = .ok ∧ c'.version = none
  made : (∀ l, c.lease = some l → l.hasILease = true) → ∀ pv, base c = some pv →
    r = (op.apply pv).1 ∧ ∃ pv', c'.version = some pv' ∧ pv'.data = (op.apply pv).2 ∧
    pv'.dataflags = pv.dataflags
  value : c'.value = c.value
  hold : c'.hold = c.hold
  result : r = .ok ∨ r = .abort

end Op

/-- A pending version with the payload of an item. -/
structure Writes (it pv : Item) : Prop where
  data : pv.data = it.data
  dataflags : pv.dataflags = it.dataflags

/-- The pending version that `oqwrite` leaves. -/
def Leaves (it : Item) (version : Option Item) : Prop :=
  if it.nbyte = 0 then version = none else ∃ pv, version = some pv ∧ Writes it pv

/-- The lease that a registration leaves. -/
def Quarantines (lease lease' : Option Item) : Prop :=
  (∃ l, lease = some l ∧ l.hasQLease = true ∧ lease' = lease) ∨
    (∀ l, lease = some l → l.hasILease = true) ∧ ∃ l, lease' = some l ∧ l.lease = .qInv

/-- What an operation of a session does, and its result.  The readers that are `spared` are not
aborted by a write of the session. -/
inductive Step (spared : Bytes → Bool) (a : State) (sid : Bytes) : Op → CoResult → State → Prop
  /-- The session has been aborted. -/
  | forget {op : Op} (hmarked : a.marked sid = true) : Step spared a sid op .abort (a.drop sid)
  /-- There is no session to end. -/
  | unknown {op : Op} {r : CoResult} (hop : op.unknown = some r) (hsess : a.sess sid = none) :
      Step spared a sid op r a
  /-- Another session may write the key: this one gives up all it has. -/
  | foreign {op : Op} {key : Bytes} {h : Hold} (hmarked : a.marked sid = false)
      (hop : op.meets = some key)
      (hhold : (a.cell key).hold = some h) (hkind : h.kind ≠ .shared) (hsid : sid ∉ h.holders) :
      Step spared a sid op .abort (a.clean sid)
  /-- The session may write the key, and reads it. -/
  | ownRead {op : Op} {key : Bytes} {h : Hold} (hmarked : a.marked sid = false)
      (hop : op = .oqread key ∨ ∃ leaseToken, op = .ciget key leaseToken)
      (hhold : (a.cell key).hold = some h) (hkind : h.kind ≠ .shared) (hsid : sid ∈ h.holders) :
        Step spared a sid op .ok a
  /-- A read of a key with an I lease. -/
  | leased {key : Bytes} {leaseToken : UInt64} {l : Item} (hmarked : a.marked sid = false)
      (hhold : ∀ h, (a.cell key).hold = some h → h.kind = .shared)
        (hlease : (a.cell key).lease = some l)
      (hi : l.hasILease = true) :
      Step spared a sid (.ciget key leaseToken)
        (if l.leaseValue = leaseToken then .ok else .retry) a
  /-- A read of a key with a Q lease. -/
  | quarantined {key : Bytes} {leaseToken : UInt64} {l : Item} {r : CoResult}
      (hmarked : a.marked sid = false)
      (hhold : ∀ h, (a.cell key).hold = some h → h.kind = .shared)
        (hlease : (a.cell key).lease = some l)
      (hq : l.hasQLease = true) (hr : r = .retry ∨ r = .ok ∧ key ∈ a.keys sid) :
      Step spared a sid (.ciget key leaseToken) r a
  /-- A read that shares the key, with an I lease where there is no value. -/
  | share {key : Bytes} {leaseToken : UInt64} {c' : Cell} (hmarked : a.marked sid = false)
      (hhold : ∀ h, (a.cell key).hold = some h → h.kind = .shared)
        (hlease : (a.cell key).lease = none)
      (hc : c'.hold = some ⟨.shared, insert sid ((a.cell key).hold.elim ∅ Hold.holders)⟩)
      (hversion : c'.version = (a.cell key).version) (hvalue : c'.value = (a.cell key).value)
      (hhit : (a.cell key).value ≠ none → c'.lease = none)
      (hmiss : (a.cell key).value = none → ∃ l, c'.lease = some l ∧ l.lease = .i) :
      Step spared a sid (.ciget key leaseToken) .ok ((a.enter sid key).setCell key c')
  /-- A read for update of a key with a refresh lease: the readers are gone by now. -/
  | occupied {key : Bytes} {l l' : Item} (hmarked : a.marked sid = false)
      (hhold : ∀ h, (a.cell key).hold = some h → h.kind = .shared)
      (hlease : (a.cell key).lease = some l) (hq : l.hasQRefLease = true)
        (hl : l' = { l with pinned := false }) : Step spared a sid (.oqread key) .abort
        ((a.vacate spared key).setCell key { a.cell key with hold := none, lease := some l' })
  /-- A read for update. -/
  | grant {key : Bytes} {c' : Cell} (hmarked : a.marked sid = false)
      (hhold : ∀ h, (a.cell key).hold = some h → h.kind = .shared)
      (hlease : ∀ l, (a.cell key).lease = some l → l.hasQRefLease = false)
      (hc : c'.hold = some ⟨.refresh, {sid}⟩) (hl : ∃ l, c'.lease = some l ∧ l.lease = .qRef)
      (hversion : c'.version = (a.cell key).version)
        (hvalue : Option.Rel Retimed (a.cell key).value c'.value) :
        Step spared a sid (.oqread key) .ok (((a.vacate spared key).enter sid key).setCell key c')
  /-- A swap without the lease it needs. -/
  | unheld {it : Item} {r : CoResult} (hmarked : a.marked sid = false)
      (hr : ((∀ h, (a.cell it.key).hold = some h → h.kind = .shared) ∧ r = .abort) ∨
        (∃ h, (a.cell it.key).hold = some h ∧ h.kind ≠ .shared ∧ sid ∈ h.holders) ∧
          (∀ l, (a.cell it.key).lease = some l → l.hasQRefLease = false) ∧ r = .invalid) :
      Step spared a sid (.oqswap it) r a
  /-- A swap on a key that another session may write drops the lease of that session. -/
  | robbed {it : Item} {h : Hold} (hmarked : a.marked sid = false)
      (hhold : (a.cell it.key).hold = some h)
      (hkind : h.kind ≠ .shared) (hsid : sid ∉ h.holders) :
      Step spared a sid (.oqswap it) .abort (a.setCell it.key { a.cell it.key with hold := none })
  /-- A swap without a body. -/
  | emptied {it : Item} {h : Hold} {l : Item} (hmarked : a.marked sid = false)
      (hhold : (a.cell it.key).hold = some h) (hkind : h.kind ≠ .shared) (hsid : sid ∈ h.holders)
      (hlease : (a.cell it.key).lease = some l) (hq : l.hasQRefLease = true) (hit : it.nbyte = 0) :
      Step spared a sid (.oqswap it) .invalid
        (a.setCell it.key { a.cell it.key with lease := none })
  /-- A swap. -/
  | swap {it : Item} {h : Hold} {l pv : Item} (hmarked : a.marked sid = false)
      (hhold : (a.cell it.key).hold = some h) (hkind : h.kind ≠ .shared) (hsid : sid ∈ h.holders)
      (hlease : (a.cell it.key).lease = some l) (hq : l.hasQRefLease = true) (hit : it.nbyte ≠ 0)
      (hpv : Writes it pv) :
      Step spared a sid (.oqswap it) .ok
        (a.setCell it.key { a.cell it.key with lease := none, version := some pv })
  /-- A write to a key that no session may write. -/
  | write {it : Item} {version : Option Item} (hmarked : a.marked sid = false)
      (hhold : ∀ h, (a.cell it.key).hold = some h → h.kind = .shared)
      (hversion : Leaves it version) :
      Step spared a sid (.oqwrite it) .ok
        (((a.vacate spared it.key).enter sid it.key).setCell it.key { a.cell it.key with
          hold := some ⟨.refresh, {sid}⟩
          lease := if (a.cell it.key).hold.isSome then none else (a.cell it.key).lease
          version := version })
  /-- A write without the lease it needs. -/
  | blocked {it : Item} {h : Hold} {l : Item} (hmarked : a.marked sid = false)
      (hhold : (a.cell it.key).hold = some h) (hkind : h.kind ≠ .shared) (hsid : sid ∈ h.holders)
      (hlease : (a.cell it.key).lease = some l) (hq : l.hasQRefLease = false) :
      Step spared a sid (.oqwrite it) .invalid a
  /-- A write to a key that the session may write. -/
  | rewrite {it : Item} {h : Hold} {version : Option Item} (hmarked : a.marked sid = false)
      (hhold : (a.cell it.key).hold = some h) (hkind : h.kind ≠ .shared) (hsid : sid ∈ h.holders)
      (hlease : ∀ l, (a.cell it.key).lease = some l → l.hasQRefLease = true)
        (hversion : Leaves it version) :
        Step spared a sid (.oqwrite it) .ok ((a.enter sid it.key).setCell it.key
        { a.cell it.key with lease := none, version := version })
  /-- An incremental update of a key that no session may write. -/
  | update {op : Op} {key : Bytes} {c' : Cell} {r : CoResult} (hmarked : a.marked sid = false)
      (hop : op.updates = some key)
      (hhold : ∀ h, (a.cell key).hold = some h → h.kind = .shared)
      (hc : op.Updates { a.cell key with hold := some ⟨.refresh, {sid}⟩ } c' r) :
      Step spared a sid op r (((a.vacate spared key).enter sid key).setCell key c')
  /-- An incremental update of a key that the session may write. -/
  | amend {op : Op} {key : Bytes} {h : Hold} {c' : Cell} {r : CoResult}
      (hmarked : a.marked sid = false)
      (hop : op.updates = some key) (hhold : (a.cell key).hold = some h) (hkind : h.kind ≠ .shared)
      (hsid : sid ∈ h.holders) (hc : op.Updates (a.cell key) c' r) :
      Step spared a sid op r ((a.enter sid key).setCell key c')
  /-- A registration of a key that no session may write. -/
  | register {key : Bytes} {lease : Option Item} (hmarked : a.marked sid = false)
      (hhold : ∀ h, (a.cell key).hold = some h → h.kind = .shared)
      (hlease : Quarantines (a.cell key).lease lease) :
      Step spared a sid (.oqreg key) .ok (((a.vacate spared key).enter sid key).setCell key
        { a.cell key with hold := some ⟨.invalidate, {sid}⟩, lease := lease })
  /-- A registration of a key that some session may write leaves the session lease as it is. -/
  | reregister {key : Bytes} {h : Hold} {lease : Option Item} (hmarked : a.marked sid = false)
      (hhold : (a.cell key).hold = some h) (hkind : h.kind ≠ .shared)
        (hlease : Quarantines (a.cell key).lease lease) : Step spared a sid (.oqreg key) .ok
        ((a.enter sid key).setCell key { a.cell key with lease := lease })
  /-- A session whose keys are held by it, as far as they are held. -/
  | valid {q : Sess} (hsess : a.sess sid = some q) (halive : q.aborted = false)
      (hkeys : ∀ k ∈ q.keys, ∀ h, (a.cell k).hold = some h → sid ∈ h.holders) :
        Step spared a sid .validate .ok a
  /-- A session that has lost a key to another one. -/
  | outdated {q : Sess} {k : Bytes} {h : Hold} (hsess : a.sess sid = some q)
      (halive : q.aborted = false)
      (hk : k ∈ q.keys) (hhold : (a.cell k).hold = some h) (hsid : sid ∉ h.holders) :
      Step spared a sid .validate .abort (a.clean sid)
  /-- A commit. -/
  | commit {q : Sess} {a' : State} (hsess : a.sess sid = some q) (halive : q.aborted = false)
      (hs : a'.sess = (a.drop sid).sess) (hin : ∀ k ∈ q.keys, (a.cell k).Committed sid (a'.cell k))
      (hout : ∀ k, k ∉ q.keys → a'.cell k = a.cell k) : Step spared a sid .dcommit .ok a'
  /-- A session gives up. -/
  | unlease {q : Sess} (hsess : a.sess sid = some q) (halive : q.aborted = false) :
      Step spared a sid .coUnlease .ok (a.clean sid)

/-- The results that an operation can have. -/
def Op.results : Op → List CoResult
  | ciget .. => [.ok, .abort, .retry]
  | oqread _ | oqDelta .. | oqConcat .. | oqreg _ | validate => [.ok, .abort]
  | oqswap _ | oqwrite _ => [.ok, .abort, .invalid]
  | dcommit | coUnlease => [.ok, .abort, .notFound]

theorem Op.apply_mem_results (op : Op) (pv : Item) :
    (op.apply pv).1 = .ok ∨ (op.apply pv).1 = .abort := by
  cases op with
  | oqDelta incr key delta =>
    rw [apply]
    split
    · exact .inr rfl
    · exact .inl rfl
  | _ => exact .inl rfl

theorem Step.mem_results {spared : Bytes → Bool} {a a' : State} {op : Op} {r : CoResult}
    (h : Step spared a sid op r a') : r ∈ op.results := by
  cases h with
  | forget => cases op <;> simp [Op.results]
  | unknown hop =>
    cases op with
    | validate | dcommit | coUnlease =>
      cases hop
      simp [Op.results]
    | _ => cases hop
  | foreign _ hop =>
    cases op with
    | ciget | oqread | oqwrite | oqDelta | oqConcat => simp [Op.results]
    | _ => cases hop
  | ownRead _ hop =>
    rcases hop with rfl | ⟨_, rfl⟩ <;> simp [Op.results]
  | leased => split <;> simp [Op.results]
  | quarantined _ _ _ _ hr => rcases hr with rfl | ⟨rfl, -⟩ <;> simp [Op.results]
  | unheld _ hr => rcases hr with ⟨-, rfl⟩ | ⟨-, -, rfl⟩ <;> simp [Op.results]
  | update _ hop _ hc | amend _ hop _ _ _ hc =>
    cases op with
    | oqDelta | oqConcat => rcases hc.result with rfl | rfl <;> simp [Op.results]
    | _ => cases hop
  | _ => simp [Op.results]

end Rejig.Session
