import Rejig.SessionAbort

/-!
# What a refused request does to others

A session whose request is refused may lose all it has, but no other session should notice.
`Unharmed` is what the others would notice, and `Gentle` is when they do not: a refused request
drives readers out before it is refused, gives up keys with what others have on them, or drops a
lease that names others, and each of these is one field.
-/

namespace Rejig

open Prog

/-- The results of a refused request. -/
def CoResult.refused : CoResult → Bool
  | .abort | .invalid | .retry => true
  | _ => false

namespace Session

/-- The lease and the pending version of a key may be another session's: another session holds the
key, or works on it.  The session lease does not say who was granted the lease or wrote the version:
a second registration is granted although the session lease names another session, and a version
outlives the session lease under which it was written. -/
def State.Foreign (N : Naming) (a : State) (sid k : Bytes) : Prop :=
  ∃ u, u ≠ sid ∧ ((a.cell k).Lists u ∨ N.Sid u ∧ a.Works u k)

/-- What is left of a key for the sessions other than one. -/
structure Cell.Kept (sid : Bytes) (foreign : Prop) (c c' : Cell) : Prop where
  value : c'.value = c.value
  hold : ∀ h, c.hold = some h → (∃ u ∈ h.holders, u ≠ sid) →
    ∃ h', c'.hold = some h' ∧ h'.kind = h.kind ∧ ∀ u, u ≠ sid → (u ∈ h'.holders ↔ u ∈ h.holders)
  lease : foreign → c'.lease = c.lease
  version : foreign → Option.Rel Writes c.version c'.version

/-- The sessions other than one have what they had, and all values are the same. -/
structure Unharmed (N : Naming) (sid : Bytes) (a a' : State) : Prop where
  sess : ∀ u, N.Sid u → u ≠ sid → a'.sess u = a.sess u
  cell : ∀ k, N.Key k → (a.cell k).Kept sid (a.Foreign N sid k) (a'.cell k)

/-- No session may write the key. -/
def Cell.Open (c : Cell) : Prop := ∀ h, c.hold = some h → h.kind = .shared

/-- The request makes its session give up all it has: it meets the exclusive lease of another
session, or validation finds a key that the session has lost to another one. -/
def GivesUp (a : State) (sid : Bytes) (op : Op) : Prop :=
  a.marked sid = false ∧
    ((∃ key h, op.meets = some key ∧ (a.cell key).hold = some h ∧ h.kind ≠ .shared ∧
      sid ∉ h.holders) ∨
      op = .validate ∧ ∃ k ∈ a.keys sid, ∃ h, (a.cell k).hold = some h ∧ sid ∉ h.holders)

/-- When the refusal of a request does not hurt others. -/
structure Gentle (N : Naming) (a : State) (sid : Bytes) (op : Op) : Prop where
  /-- A session that gives up has nothing on keys of others that goes with it. -/
  cleans : GivesUp a sid op → ∀ k ∈ a.keys sid, a.Foreign N sid k → (a.cell k).lease = none ∧
    (a.cell k).version = none
  /-- A swap on a key that some session may write is by one that may write it, and a refresh lease
  that it drops is on a key of no others. -/
  swaps : ∀ it, op = .oqswap it → a.marked sid = false → ∀ h, (a.cell it.key).hold = some h →
    h.kind ≠ .shared →
    sid ∈ h.holders ∧ ∀ l, (a.cell it.key).lease = some l → l.hasQRefLease = true →
    ¬ a.Foreign N sid it.key
  /-- A read for update that meets a refresh lease finds no readers. -/
  reads : ∀ key, op = .oqread key → a.marked sid = false → (a.cell key).Open →
    (∀ u, (a.cell key).Lists u → u = sid) ∧
      (a.Foreign N sid key → ∀ l, (a.cell key).lease = some l → l.pinned = false)
  /-- An incremental update finds no readers. -/
  updates : ∀ key, op.updates = some key → a.marked sid = false → (a.cell key).Open →
    ∀ u, (a.cell key).Lists u → u = sid
  /-- An incremental update of a key of others finds a pending version, and no lease. -/
  amends : ∀ key, op.updates = some key → a.marked sid = false →
    ((a.cell key).Open ∨ (a.cell key).Lists sid) →
    a.Foreign N sid key → (a.cell key).lease = none ∧ (a.cell key).version ≠ none

/-- What the records of a run say about the names in them. -/
structure State.Formed (N : Naming) (a : State) : Prop where
  nonempty : ∀ k, N.Key k → ∀ h, (a.cell k).hold = some h → h.holders.Nonempty
  keys : ∀ sid, N.Sid sid → ∀ k ∈ a.keys sid, N.Key k
  lease : ∀ k, N.Key k → ∀ l, (a.cell k).lease = some l → l.isLeaseHolder = true

/-! ## Keys -/

section Keys

variable {sid : Bytes} {foreign : Prop} {c c' : Cell}

theorem Writes.refl (it : Item) : Writes it it := ⟨rfl, rfl⟩

theorem Writes.rel_refl (version : Option Item) : Option.Rel Writes version version := by
  cases version with
  | none => exact .none
  | some pv => exact .some (.refl pv)

theorem Cell.Kept.refl : c.Kept sid foreign c where
  value := rfl
  hold h hh _ := ⟨h, hh, rfl, fun _ _ => Iff.rfl⟩
  lease _ := rfl
  version _ := Writes.rel_refl _

/-- A key from which the session lease is dropped, or taken by the session alone, was held by nobody
else. -/
theorem Cell.Kept.lists_eq {u : Bytes} (h : c.Kept sid foreign c')
    (hc : ∀ h', c'.hold = some h' → h'.holders = {sid}) (hu : c.Lists u) : u = sid := by
  by_contra hne
  obtain ⟨hold, hhold, hmem⟩ := hu
  obtain ⟨h', hh', -, hiff⟩ := h.hold hold hhold ⟨u, hmem, hne⟩
  have hmem' := (hiff u hne).mpr hmem
  rw [hc h' hh'] at hmem'
  exact hne (Finset.mem_singleton.mp hmem')

/-- A key that nobody else holds may be dropped, or taken. -/
theorem Cell.Kept.of_lists_eq (hc : ∀ u, c.Lists u → u = sid) (hvalue : c'.value = c.value)
    (hlease : foreign → c'.lease = c.lease)
    (hversion : foreign → Option.Rel Writes c.version c'.version) :
    c.Kept sid foreign c' where
  value := hvalue
  hold := by
    rintro h hh ⟨u, hmem, hne⟩
    exact absurd (hc u ⟨h, hh, hmem⟩) hne
  lease := hlease
  version := hversion

/-- Cleaning a session off a key takes the lease and the pending version along. -/
theorem Cell.kept_clean_iff : c.Kept sid foreign (c.clean sid) ↔
      (foreign → c.lease = none ∧ c.version = none) := by
  constructor
  · intro h hf
    refine ⟨(h.lease hf).symm, ?_⟩
    have hrel : Option.Rel Writes c.version none := h.version hf
    cases hv : c.version with
    | none => rfl
    | some pv =>
      rw [hv] at hrel
      cases hrel
  · intro h
    refine ⟨rfl, ?_, fun hf => (h hf).1.symm, fun hf => ?_⟩
    · rintro hold hhold ⟨u, hmem, hne⟩
      have hsub : ¬ hold.holders ⊆ {sid} := fun hsub => hne (Finset.mem_singleton.mp (hsub hmem))
      have hleave : (c.clean sid).hold = some ⟨hold.kind, hold.holders \ {sid}⟩ := by
        rw [Cell.clean, Cell.leave_of_some hhold]
        exact Hold.without_of_not_subset hsub
      refine ⟨_, hleave, rfl, fun u hu => ?_⟩
      rw [Finset.mem_sdiff, Finset.mem_singleton]
      exact and_iff_left hu
    · rw [(h hf).2]
      exact .none

end Keys

/-! ## States -/

section States

variable {N : Naming} {spared : Bytes → Bool} {a a' b : State} {sid key : Bytes} {c : Cell}

theorem Unharmed.refl : Unharmed N sid a a := ⟨fun _ _ _ => rfl, fun _ _ => .refl⟩

theorem Unharmed.congr (h : Unharmed N sid a b) (hsess : ∀ u, N.Sid u → a'.sess u = b.sess u)
    (hcell : ∀ k, N.Key k → a'.cell k = b.cell k) : Unharmed N sid a a' :=
  ⟨fun u hu hne => (hsess u hu).trans (h.sess u hu hne), fun k hk => hcell k hk ▸ h.cell k hk⟩

theorem unharmed_drop : Unharmed N sid a (a.drop sid) :=
  ⟨fun _ _ hne => Function.update_of_ne hne .., fun _ _ => .refl⟩

theorem unharmed_enter_iff : Unharmed N sid a ((b.enter sid key).setCell key c) ↔
      Unharmed N sid a (b.setCell key c) := by
  have hsess : ∀ u, u ≠ sid → ((b.enter sid key).setCell key c).sess u = b.sess u := fun u hne =>
    Function.update_of_ne hne ..
  constructor
  · intro h
    exact ⟨fun u hu hne => (hsess u hne).symm.trans (h.sess u hu hne), h.cell⟩
  · intro h
    exact ⟨fun u hu hne => (hsess u hne).trans (h.sess u hu hne), h.cell⟩

theorem unharmed_setCell_iff (hkey : N.Key key) :
    Unharmed N sid a (a.setCell key c) ↔ (a.cell key).Kept sid (a.Foreign N sid key) c := by
  constructor
  · intro h
    simpa only [State.cell_setCell_self] using h.cell key hkey
  · intro h
    refine ⟨fun _ _ _ => rfl, fun k hk => ?_⟩
    rcases eq_or_ne k key with rfl | hne
    · rwa [State.cell_setCell_self]
    · rw [State.cell_setCell_of_ne hne]
      exact .refl

theorem unharmed_clean_iff (hkeys : ∀ k ∈ a.keys sid, N.Key k) : Unharmed N sid a (a.clean sid) ↔
    ∀ k ∈ a.keys sid, a.Foreign N sid k → (a.cell k).lease = none ∧ (a.cell k).version = none := by
  constructor
  · intro h k hk
    have hkept := h.cell k (hkeys k hk)
    simp only [State.clean, if_pos hk] at hkept
    exact Cell.kept_clean_iff.mp hkept
  · intro h
    refine ⟨fun u _ hne => Function.update_of_ne hne .., fun k _ => ?_⟩
    simp only [State.clean]
    split
    · next hk => exact Cell.kept_clean_iff.mpr (h k hk)
    · exact .refl

/-- Driving out readers hurts nobody if there are none. -/
theorem vacate_of_lists_eq (hself : spared sid = true) (h : ∀ u, (a.cell key).Lists u → u = sid) :
    a.vacate spared key = a.setCell key { a.cell key with hold := none } := by
  have hvictims : a.victims spared key = ∅ := by
    refine Finset.eq_empty_of_forall_notMem fun u hu => ?_
    obtain ⟨hold, hhold, hmem, hspared⟩ := State.mem_victims hu
    rw [h u ⟨hold, hhold, hmem⟩, hself] at hspared
    cases hspared
  rw [State.vacate, hvictims, State.abort_empty]

/-- Driving out readers, and what comes after it. -/
theorem unharmed_vacate_iff (hkey : N.Key key) (hself : spared sid = true)
    (hc : ∀ h, c.hold = some h → h.holders = {sid}) (hvalue : c.value = (a.cell key).value) :
    Unharmed N sid a ((a.vacate spared key).setCell key c) ↔ (∀ u, (a.cell key).Lists u → u = sid) ∧
      (a.Foreign N sid key → c.lease = (a.cell key).lease ∧ Option.Rel Writes (a.cell key).version
        c.version) := by
  constructor
  · intro h
    have hkept := h.cell key hkey
    rw [State.cell_setCell_self] at hkept
    exact ⟨fun u => hkept.lists_eq hc, fun hf => ⟨hkept.lease hf, hkept.version hf⟩⟩
  · rintro ⟨hlists, hrest⟩
    rw [vacate_of_lists_eq hself hlists, State.setCell_setCell, unharmed_setCell_iff hkey]
    exact .of_lists_eq hlists hvalue (fun hf => (hrest hf).1) fun hf => (hrest hf).2

end States

/-! ## Refusals -/

section Updates

variable {op : Op} {c c' : Cell} {foreign : Prop}

/-- An incremental update that fails leaves the payload as it is. -/
theorem Op.apply_of_abort {pv : Item} (h : (op.apply pv).1 = .abort) :
    (op.apply pv).2 = pv.data := by
  cases op with
  | oqDelta incr key delta =>
    rw [apply] at h ⊢
    split
    · rfl
    · next hvalue =>
      rw [hvalue] at h
      cases h
  | oqConcat => cases h
  | _ => rfl

/-- An incremental update that fails has made a pending version out of the value, and an I lease has
given way. -/
theorem Op.Updates.of_abort (h : op.Updates c c' .abort)
    (hkind : ∀ l, c.lease = some l → l.isLeaseHolder = true) :
    c'.lease = none ∧ ∃ pv pv', Op.base c = some pv ∧ c'.version = some pv' ∧ Writes pv pv' := by
  have hi : ∀ l, c.lease = some l → l.hasILease = true := by
    intro l hl
    rcases Bool.or_eq_true _ _ ▸ hkind l hl with hi | hq
    · exact hi
    · cases (h.quarantined l hl hq).1
  refine ⟨h.lease hi, ?_⟩
  cases hb : Op.base c with
  | none => cases (h.nothing hi hb).1
  | some pv =>
    obtain ⟨hr, pv', hpv', hdata, hflags⟩ := h.made hi pv hb
    exact ⟨pv, pv', rfl, hpv', hdata.trans (apply_of_abort hr.symm), hflags⟩

/-- What a failed incremental update keeps of a key of others. -/
theorem Op.Updates.kept_iff (h : op.Updates c c' .abort)
    (hkind : ∀ l, c.lease = some l → l.isLeaseHolder = true) :
    (foreign → c'.lease = c.lease ∧ Option.Rel Writes c.version c'.version) ↔
      (foreign → c.lease = none ∧ c.version ≠ none) := by
  obtain ⟨hlease, pv, pv', hb, hpv', hwrites⟩ := h.of_abort hkind
  rw [hlease, hpv']
  refine forall_congr' fun _ => and_congr eq_comm ?_
  constructor
  · intro hrel hnone
    rw [hnone] at hrel
    cases hrel
  · intro hne
    cases hv : c.version with
    | none => exact absurd hv hne
    | some pv₀ =>
      rw [Op.base, hv] at hb
      cases hb
      exact .some hwrites

end Updates

section Refusals

variable {N : Naming} {spared : Bytes → Bool} {a a' : State} {sid key : Bytes} {op : Op}
  {r : CoResult} {it : Item} {h : Hold}

theorem not_givesUp (hmeets : ∀ key, op.meets = some key → ∀ h, (a.cell key).hold = some h →
      h.kind ≠ .shared → sid ∈ h.holders) (hop : op ≠ .validate) : ¬ GivesUp a sid op := by
  rintro ⟨-, ⟨key, h, hkey, hhold, hkind, hnot⟩ | ⟨rfl, -⟩⟩
  · exact hnot (hmeets key hkey h hhold hkind)
  · exact hop rfl

/-- A request whose refusal changes nothing is gentle. -/
theorem Gentle.of_not (hgives : ¬ GivesUp a sid op) (hswap : ∀ it, op ≠ .oqswap it)
    (hread : ∀ key, op ≠ .oqread key) (hupdates : op.updates = none) : Gentle N a sid op where
  cleans h := absurd h hgives
  swaps it h := absurd h (hswap it)
  reads key h := absurd h (hread key)
  updates key h := by rw [hupdates] at h; cases h
  amends key h := by rw [hupdates] at h; cases h

/-- A session that gives up hurts others by what it takes along, and in no other way. -/
theorem gentle_iff_of_givesUp (hgives : GivesUp a sid op) (hop : ∀ key, op.meets = some key →
    ∃ h, (a.cell key).hold = some h ∧ h.kind ≠ .shared ∧ sid ∉ h.holders)
    (hswap : ∀ it, op ≠ .oqswap it) :
    Gentle N a sid op ↔ ∀ k ∈ a.keys sid, a.Foreign N sid k → (a.cell k).lease = none ∧
    (a.cell k).version = none := by
  -- the key is neither open nor the session's own
  have hnot : ∀ {key : Bytes}, op.meets = some key → ¬ (a.cell key).Open ∧
    ¬ (a.cell key).Lists sid := by
    intro key hkey
    obtain ⟨h, hhold, hkind, hsid⟩ := hop key hkey
    refine ⟨fun hopen => hkind (hopen h hhold), ?_⟩
    rintro ⟨h', hhold', hsid'⟩
    rw [hhold] at hhold'
    cases hhold'
    exact hsid hsid'
  constructor
  · exact fun h => h.cleans hgives
  · intro h
    refine ⟨fun _ => h, fun it heq => absurd heq (hswap it), ?_, fun key hkey _ hopen => ?_,
      fun key hkey _ hor => ?_⟩
    · rintro key rfl _ hopen
      exact absurd hopen (hnot rfl).1
    · exact absurd hopen (hnot (op.meets_of_updates hkey)).1
    · rcases hor with hopen | hlists
      · exact absurd hopen (hnot (op.meets_of_updates hkey)).1
      · exact absurd hlists (hnot (op.meets_of_updates hkey)).2

/-- Only a swap has the condition on swaps. -/
theorem Gentle.of_swaps (hop : op = .oqswap it)
    (h : ∀ h, (a.cell it.key).hold = some h → h.kind ≠ .shared →
    sid ∈ h.holders ∧ ∀ l, (a.cell it.key).lease = some l → l.hasQRefLease = true →
      ¬ a.Foreign N sid it.key) :
    Gentle N a sid op := by
  subst hop
  refine ⟨fun hgives => absurd hgives (not_givesUp (by rintro _ ⟨⟩) (by simp)), ?_, (by simp),
    (by rintro _ ⟨⟩), (by rintro _ ⟨⟩)⟩
  rintro _ ⟨⟩ _
  exact h

/-- An incremental update of a key that no other session may write does not make its session give
up. -/
theorem not_givesUp_of_updates (hupdates : op.updates = some key)
    (hmine : ∀ h, (a.cell key).hold = some h → h.kind ≠ .shared → sid ∈ h.holders) :
    ¬ GivesUp a sid op := by
  refine not_givesUp (fun key' hkey' => ?_) fun heq => ?_
  · rw [op.meets_of_updates hupdates] at hkey'
    cases hkey'
    exact hmine
  · rw [heq] at hupdates
    cases hupdates

/-- Only an incremental update has the conditions on updates. -/
theorem Gentle.of_updates (hupdates : op.updates = some key) (hgives : ¬ GivesUp a sid op)
    (hlists : (a.cell key).Open → ∀ u, (a.cell key).Lists u → u = sid)
    (hamends : a.Foreign N sid key → (a.cell key).lease = none ∧ (a.cell key).version ≠ none) :
    Gentle N a sid op := by
  refine ⟨fun h => absurd h hgives, ?_, ?_, fun key' hkey' _ hopen => ?_, fun key' hkey' _ _ => ?_⟩
  · rintro it rfl
    cases hupdates
  · rintro key rfl
    cases hupdates
  · rw [hupdates] at hkey'
    cases hkey'
    exact hlists hopen
  · rw [hupdates] at hkey'
    cases hkey'
    exact hamends

/-! ### One refusal after the other -/

theorem Gentle.of_marked (hmarked : a.marked sid = true) : Gentle N a sid op := by
  have hnot : a.marked sid ≠ false := by simp [hmarked]
  exact ⟨fun h => absurd h.1 hnot, fun _ _ h => absurd h hnot, fun _ _ h => absurd h hnot,
    fun _ _ h => absurd h hnot, fun _ _ h => absurd h hnot⟩

/-- A session that is not known has nothing to give up. -/
theorem Gentle.of_unknown (hsess : a.sess sid = none) : Gentle N a sid .validate := by
  refine .of_not ?_ (by simp) (by simp) rfl
  rintro ⟨-, ⟨_, _, hop, -⟩ | ⟨-, k, hk, -⟩⟩
  · cases hop
  · rw [State.keys, hsess] at hk
    cases hk

/-- A read that has to wait. -/
theorem Gentle.of_ciget {leaseToken : UInt64} (hopen : (a.cell key).Open) :
    Gentle N a sid (.ciget key leaseToken) := by
  refine .of_not (not_givesUp ?_ (by simp)) (by simp) (by simp) rfl
  rintro _ ⟨⟩ h hheld hkind
  exact absurd (hopen h hheld) hkind

/-- A write without the lease it needs. -/
theorem Gentle.of_oqwrite (hhold : (a.cell it.key).hold = some h) (hmem : sid ∈ h.holders) :
    Gentle N a sid (.oqwrite it) := by
  refine .of_not (not_givesUp ?_ (by simp)) (by simp) (by simp) rfl
  rintro _ ⟨⟩ h' hheld _
  rw [hhold] at hheld
  cases hheld
  exact hmem

theorem unharmed_foreign_iff (hkeys : ∀ k ∈ a.keys sid, N.Key k) (hmarked : a.marked sid = false)
    (hmeets : op.meets = some key) (hhold : (a.cell key).hold = some h) (hkind : h.kind ≠ .shared)
    (hnot : sid ∉ h.holders) : Unharmed N sid a (a.clean sid) ↔ Gentle N a sid op := by
  rw [unharmed_clean_iff hkeys]
  refine (gentle_iff_of_givesUp ⟨hmarked, .inl ⟨key, h, hmeets, hhold, hkind, hnot⟩⟩
    (fun key' hkey' => ?_) ?_).symm
  · rw [hmeets] at hkey'
    cases hkey'
    exact ⟨h, hhold, hkind, hnot⟩
  · rintro it rfl
    cases hmeets

theorem unharmed_outdated_iff {q : Sess} (hkeys : ∀ k ∈ a.keys sid, N.Key k)
    (hsess : a.sess sid = some q) (halive : q.aborted = false) (hk : key ∈ q.keys)
    (hhold : (a.cell key).hold = some h) (hnot : sid ∉ h.holders) :
    Unharmed N sid a (a.clean sid) ↔ Gentle N a sid .validate := by
  rw [unharmed_clean_iff hkeys]
  have hmarked : a.marked sid = false := by rw [State.marked, hsess, Option.any_some, halive]
  have hmem : key ∈ a.keys sid := by rwa [State.keys, hsess, Option.elim_some]
  exact (gentle_iff_of_givesUp ⟨hmarked, .inr ⟨rfl, key, hmem, h, hhold, hnot⟩⟩ (by rintro _ ⟨⟩)
    (by simp)).symm

/-- A read for update that meets a refresh lease. -/
theorem unharmed_occupied_iff {l : Item} (hkey : N.Key key) (hself : spared sid = true)
    (hmarked : a.marked sid = false) (hopen : (a.cell key).Open)
    (hlease : (a.cell key).lease = some l) :
    Unharmed N sid a ((a.vacate spared key).setCell key
      { a.cell key with hold := none, lease := some { l with pinned := false } }) ↔
      Gentle N a sid (.oqread key) := by
  rw [unharmed_vacate_iff hkey hself ?hnone ?hvalue]
  case hnone => simp
  case hvalue => rfl
  have hpin : some { l with pinned := false } = (a.cell key).lease ↔
      ∀ l, (a.cell key).lease = some l → l.pinned = false := by
    rw [hlease]
    constructor
    · intro heq l₁ hl₁
      cases hl₁
      exact (congrArg Item.pinned (Option.some.inj heq)).symm
    · intro hpin
      have := hpin l rfl
      cases l
      dsimp only at this
      rw [this]
  constructor
  · rintro ⟨hlists, hrest⟩
    refine ⟨fun hgives => absurd hgives (not_givesUp ?_ (by simp)), (by simp), ?_, (by rintro _ ⟨⟩),
      (by rintro _ ⟨⟩)⟩
    · rintro _ ⟨⟩ h hheld hkind
      exact absurd (hopen h hheld) hkind
    · rintro _ ⟨⟩ _ _
      exact ⟨hlists, fun hforeign => hpin.mp (hrest hforeign).1⟩
  · intro h
    obtain ⟨hlists, hpinned⟩ := h.reads key rfl hmarked hopen
    exact ⟨hlists, fun hforeign => ⟨hpin.mpr (hpinned hforeign), Writes.rel_refl _⟩⟩

/-- A swap by a session that may not write the key: the session lease names somebody, and it is not
that session. -/
theorem unharmed_robbed_iff (hf : a.Formed N) (hkey : N.Key it.key) (hmarked : a.marked sid = false)
    (hhold : (a.cell it.key).hold = some h) (hkind : h.kind ≠ .shared) (hnot : sid ∉ h.holders) :
    Unharmed N sid a (a.setCell it.key { a.cell it.key with hold := none }) ↔
    Gentle N a sid (.oqswap it) := by
  obtain ⟨u, hu⟩ := hf.nonempty it.key hkey h hhold
  refine iff_of_false (fun hun => ?_) fun hgentle =>
    hnot (hgentle.swaps it rfl hmarked h hhold hkind).1
  rw [unharmed_setCell_iff hkey] at hun
  exact hnot (hun.lists_eq (by simp) ⟨h, hhold, hu⟩ ▸ hu)

/-- A swap without a body. -/
theorem unharmed_emptied_iff {l : Item} (hkey : N.Key it.key) (hmarked : a.marked sid = false)
    (hhold : (a.cell it.key).hold = some h) (hkind : h.kind ≠ .shared) (hmem : sid ∈ h.holders)
    (hlease : (a.cell it.key).lease = some l) (hq : l.hasQRefLease = true) :
    Unharmed N sid a (a.setCell it.key { a.cell it.key with lease := none }) ↔
    Gentle N a sid (.oqswap it) := by
  rw [unharmed_setCell_iff hkey]
  constructor
  · intro hkept
    refine .of_swaps rfl fun h' hhold' _ => ⟨?_, fun _ _ _ hforeign => ?_⟩
    · rw [hhold] at hhold'
      cases hhold'
      exact hmem
    · have hnone := hkept.lease hforeign
      rw [hlease] at hnone
      cases hnone
  · intro hgentle
    have hforeign := (hgentle.swaps it rfl hmarked h hhold hkind).2 l hlease hq
    exact ⟨rfl, fun h' hh' _ => ⟨h', hh', rfl, fun _ _ => Iff.rfl⟩, fun hf => absurd hf hforeign,
      fun hf => absurd hf hforeign⟩

/-- A failed incremental update of a key that no session may write. -/
theorem unharmed_update_iff {c' : Cell} (hf : a.Formed N) (hkey : N.Key key)
    (hself : spared sid = true) (hmarked : a.marked sid = false) (hupdates : op.updates = some key)
    (hopen : (a.cell key).Open)
    (hc : op.Updates { a.cell key with hold := some ⟨.refresh, {sid}⟩ } c' .abort) :
    Unharmed N sid a (((a.vacate spared key).enter sid key).setCell key c') ↔
    Gentle N a sid op := by
  rw [unharmed_enter_iff, unharmed_vacate_iff hkey hself
    (fun h hh => by rw [hc.hold] at hh; cases hh; rfl) hc.value, hc.kept_iff (hf.lease key hkey)]
  constructor
  · rintro ⟨hlists, hrest⟩
    exact .of_updates hupdates (not_givesUp_of_updates hupdates fun h hheld hkind =>
      absurd (hopen h hheld) hkind)
      (fun _ => hlists) hrest
  · intro hgentle
    exact ⟨hgentle.updates key hupdates hmarked hopen,
      hgentle.amends key hupdates hmarked (.inl hopen)⟩

/-- A failed incremental update of a key that the session may write. -/
theorem unharmed_amend_iff {c' : Cell} (hf : a.Formed N) (hkey : N.Key key)
    (hmarked : a.marked sid = false) (hupdates : op.updates = some key)
    (hhold : (a.cell key).hold = some h) (hkind : h.kind ≠ .shared) (hmem : sid ∈ h.holders)
    (hc : op.Updates (a.cell key) c' .abort) :
    Unharmed N sid a ((a.enter sid key).setCell key c') ↔ Gentle N a sid op := by
  have hkept : (a.cell key).Kept sid (a.Foreign N sid key) c' ↔
      (a.Foreign N sid key → c'.lease = (a.cell key).lease ∧ Option.Rel Writes (a.cell key).version
        c'.version) :=
    ⟨fun h hf => ⟨h.lease hf, h.version hf⟩,
      fun h => ⟨hc.value, fun h₁ hh₁ _ => ⟨h₁, hc.hold.trans hh₁, rfl, fun _ _ => Iff.rfl⟩,
      fun hf => (h hf).1, fun hf => (h hf).2⟩⟩
  rw [unharmed_enter_iff, unharmed_setCell_iff hkey, hkept, hc.kept_iff (hf.lease key hkey)]
  constructor
  · refine .of_updates hupdates (not_givesUp_of_updates hupdates fun h' hheld _ => ?_)
      fun hopen => absurd (hopen h hhold) hkind
    rw [hhold] at hheld
    cases hheld
    exact hmem
  · exact fun hgentle => hgentle.amends key hupdates hmarked (.inr ⟨h, hhold, hmem⟩)

theorem Op.Updates.eq_abort {c c' : Cell} (hc : op.Updates c c' r) (hr : r.refused = true) :
    r = .abort := by
  rcases hc.result with rfl | rfl
  · cases hr
  · rfl

/-- Which refusals hurt others. -/
theorem Step.unharmed_iff (hstep : Step spared a sid op r a') (hf : a.Formed N) (hsid : N.Sid sid)
    (hop : op.Named N) (hself : spared sid = true) (hr : r.refused = true) : Unharmed N sid a a' ↔
      Gentle N a sid op := by
  have hkeys := hf.keys sid hsid
  cases hstep with
  | forget hmarked => exact iff_of_true unharmed_drop (.of_marked hmarked)
  | unknown hunknown hsess =>
    cases op with
    | validate => exact iff_of_true .refl (.of_unknown hsess)
    | dcommit | coUnlease =>
      cases hunknown
      cases hr
    | _ => cases hunknown
  | foreign hmarked hmeets hhold hkind hnot =>
    exact unharmed_foreign_iff hkeys hmarked hmeets hhold hkind hnot
  | leased _ hopen => exact iff_of_true .refl (.of_ciget hopen)
  | quarantined _ hopen => exact iff_of_true .refl (.of_ciget hopen)
  | occupied hmarked hopen hlease _ hl =>
    exact hl ▸ unharmed_occupied_iff hop hself hmarked hopen hlease
  | @unheld it _ hmarked hcases =>
    refine iff_of_true .refl (.of_swaps rfl fun h hhold hkind => ?_)
    rcases hcases with ⟨hopen, -⟩ | ⟨⟨h', hhold', -, hmem⟩, hnone, -⟩
    · exact absurd (hopen h hhold) hkind
    · rw [hhold] at hhold'
      cases hhold'
      exact ⟨hmem, fun l hl hq => absurd (hq.symm.trans (hnone l hl)) Bool.true_eq_false_eq_False⟩
  | robbed hmarked hhold hkind hnot => exact unharmed_robbed_iff hf hop hmarked hhold hkind hnot
  | emptied hmarked hhold hkind hmem hlease hq =>
    exact unharmed_emptied_iff hop hmarked hhold hkind hmem hlease hq
  | blocked _ hhold _ hmem => exact iff_of_true .refl (.of_oqwrite hhold hmem)
  | update hmarked hupdates hopen hc =>
    obtain rfl := hc.eq_abort hr
    exact unharmed_update_iff hf (hop.claims (op.claims_of_updates hupdates)) hself hmarked
      hupdates hopen hc
  | amend hmarked hupdates hhold hkind hmem hc =>
    obtain rfl := hc.eq_abort hr
    exact unharmed_amend_iff hf (hop.claims (op.claims_of_updates hupdates)) hmarked hupdates hhold
      hkind hmem hc
  | outdated hsess halive hk hhold hnot =>
    exact unharmed_outdated_iff hkeys hsess halive hk hhold hnot
  | ownRead | share | grant | swap | write | rewrite | register | reregister | valid | commit
  | unlease => cases hr

end Refusals

end Session

/-! ## The server -/

open Session

theorem Serving.formed {c : Settings} {N : Naming} {s : Server} {a : State} (hs : Serving c N s a) :
    a.Formed N where
  nonempty k hk h hhold := by
    obtain ⟨-, t, v, hserves⟩ := hs
    rcases hserves.repr.hold_cases hk with ⟨-, hnone⟩ | ⟨it, h', -, hhold', hof⟩
    · rw [hhold] at hnone
      cases hnone
    · rw [hhold] at hhold'
      cases hhold'
      exact hof.nonempty
  keys _ hsid _ hk := hs.key_of_mem hsid hk
  lease k hk := by
    obtain ⟨-, t, v, hserves⟩ := hs
    exact (hserves.repr.cell k hk).kind

/-- A refused request of a session leaves the leases, records and pending versions of the other
sessions and all values alone exactly if it is gentle. -/
theorem refused_unharmed_iff {c : Settings} {N : Naming} {s s' : Server} {a : State} {sid : Bytes}
    {op : Op} {r : CoResult} (hs : Serving c N s a) (hsid : N.Sid sid) (hop : op.Named N)
    (hrun : run (op.exec sid) c s = some (r, s')) (hr : r.refused = true) :
    Unharmed N sid s.sessions s'.sessions ↔ Gentle N s.sessions sid op := by
  obtain ⟨hflush, t, v, hserves⟩ := hs.sessions
  obtain ⟨v', a', hserves', hstep⟩ := refines_exec op hserves hsid hop r s' hrun
  have hs' : Serving c N s' a' := hserves'.serving (hserves.sees.oldestLive.symm.trans hflush)
  have hself : v.spared sid op.key sid = true := by
    rw [Sight.spared, decide_eq_true rfl, Bool.true_or]
  rw [← hstep.unharmed_iff hs.sessions.formed hsid hop hself hr]
  constructor
  · exact fun h => h.congr (fun u hu => (hs'.sess_eq hu).symm) fun k hk => (hs'.cell_eq hk).symm
  · exact fun h => h.congr (fun u hu => hs'.sess_eq hu) fun k hk => hs'.cell_eq hk

/-- A session that has nothing is refused a key that another session has written. -/
theorem refused_unharmed_iff_read : ∃ s s' : Server,
    (s.version [0x6b]).map Item.data = some [0x61] ∧
    run ((Op.ciget [0x6b] 0).exec [0x76]) {} s = some (.abort, s') ∧
    Unharmed sessionNaming [0x76] s.sessions s'.sessions := by
  obtain ⟨h, w, hco, hversion, hnone, ⟨r, s'⟩, hrun, hr⟩ :=
    (playable_co : Playable {} (CoRun {} sessionNaming) _).exists_run
      [.line 0 (.oqwrite [0x75] [0x6b] 0 0 1), .body 0 [0x61, 0x0d, 0x0a]]
      (P := fun _ w => (w.server.version [0x6b]).map Item.data = some [0x61] ∧
        w.server.live [0x76] = none ∧
        ∃ r, run ((Op.ciget [0x6b] 0).exec [0x76]) {} w.server = some r ∧ r.1 = .abort)
          (by decide +kernel)
  obtain rfl : r = .abort := hr
  obtain ⟨a, hs⟩ := hco.serving (by decide)
  have hsid : sessionNaming.Sid [0x76] :=
    ⟨by decide, show [0x76] ∉ [[0x6a], [0x6b]] by decide, by decide⟩
  have hop : (Op.ciget [0x6b] 0).Named sessionNaming :=
    ⟨List.mem_cons_of_mem _ List.mem_cons_self, by decide⟩
  refine ⟨w.server, s', hversion, hrun, (refused_unharmed_iff hs hsid hop hrun rfl).mpr ?_⟩
  refine ⟨fun _ k hk => ?_, by rintro _ ⟨⟩, by rintro _ ⟨⟩, by rintro _ ⟨⟩, by rintro _ ⟨⟩⟩
  have hsess : w.server.sessions.sess [0x76] = none := congrArg (Option.map _) hnone
  have hkeys : w.server.sessions.keys [0x76] = ∅ := by rw [State.keys, hsess, Option.elim_none]
  rw [hkeys] at hk
  cases hk

/-- The session `u` has written `k`.  A swap of `v` on it is refused, and `u` has lost its lease. -/
theorem refused_swap_robs : ∃ (h : History) (m : Moment) (w : World),
    CoRun {} sessionNaming (m :: h) w ∧
    m.label.request = some (.oqswap [0x76] [0x6b] 0 0 1) ∧ m.label.reply = some .abort ∧
    m.pre.server.holders [0x6b] = [[0x75]] ∧ m.post.server.holders [0x6b] = [] ∧
    ¬ Unharmed sessionNaming [0x76] m.pre.server.sessions m.post.server.sessions := by
  obtain ⟨h, m, w, hr, hreq, hreply, hpre, hpost, hfound, hnone⟩ :=
    (playable_co : Playable {} (CoRun {} sessionNaming) _).exists_run₁
      [.line 0 (.oqwrite [0x75] [0x6b] 0 0 1), .body 0 [0x61, 0x0d, 0x0a],
        .line 1 (.oqswap [0x76] [0x6b] 0 0 1), .body 1 [0x62, 0x0d, 0x0a]]
      (P := fun _ m _ => m.label.request = some (.oqswap [0x76] [0x6b] 0 0 1) ∧
        m.label.reply = some .abort ∧
        m.pre.server.holders [0x6b] = [[0x75]] ∧ m.post.server.holders [0x6b] = [] ∧
        (m.pre.server.live (coLeaseKey [0x6b])).isSome ∧
        m.post.server.live (coLeaseKey [0x6b]) = none) (by decide +kernel)
  obtain ⟨it, hit⟩ := Option.isSome_iff_exists.mp hfound
  refine ⟨h, m, w, hr, hreq, hreply, hpre, hpost, fun hun => ?_⟩
  have hkey : sessionNaming.Key [0x6b] := ⟨List.mem_cons_of_mem _ List.mem_cons_self, by decide⟩
  have hlists : (m.pre.server.sessions.cell [0x6b]).Lists [0x75] := by
    refine ⟨_, congrArg (Option.map _) hit, ?_⟩
    rw [hpre]
    exact List.mem_toFinset.mpr List.mem_cons_self
  have hgone : (m.post.server.sessions.cell [0x6b]).hold = none := congrArg (Option.map _) hnone
  have heq : [0x75] = ([0x76] : Bytes) :=
    (hun.cell _ hkey).lists_eq (fun h' hh' => by rw [hgone] at hh'; cases hh') hlists
  cases heq

end Rejig
