import Rejig.SessionAbort

/-!
# Who owns what a commit publishes

Nothing in the records of a key says who wrote its pending version or who was granted its lease.  A
commit takes both from the list of keys of the session, and publishes what it finds.  It is right to
do so if every key is in one of five phases, `Cell.Owned`: nobody has it; one reader is filling it;
readers share it; one session changes it; one session invalidates it.  The phases say who wrote and
who was granted, and in each of them the sessions that have the key in their lists are the ones that
the session lease names.

Three requests leave the phases: a swap by a session that does not hold the key, a registration by a
session that does not hold it, and a write that finds writers, or sessions it takes for its own,
among the readers.
-/

namespace Rejig

open Prog

variable {key sid : Bytes} {a a' : State} {l : Item} {g : Option Bytes} {op : Op} {s s' : Server}
  {sids : Finset Bytes} {ws : List Bytes} {m : Moment}

namespace Session

/-- Whose lease a key has, after an operation of a session. -/
def granted (sid : Bytes) (lease lease' : Option Item) (before : Option Bytes) : Option Bytes :=
  if lease' = lease then before else lease'.map fun _ => sid

/-- The key that an operation works on without asking for the lease of the session that may write
it. -/
def Op.seizes : Op → Option Bytes
  | oqswap it => some it.key
  | oqreg key => some key
  | _ => none

/-- The phases of a key, with the sessions that wrote its pending version and the one that was
granted its lease. -/
inductive Cell.Owned (c : Cell) (writers : List Bytes) (grantee : Option Bytes) : Prop
  /-- Nobody has it. -/
  | free (hhold : c.hold = none) (hlease : c.lease = none) (hversion : c.version = none)
      (hwriters : writers = [])
  /-- One reader is filling it. -/
  | missed {o : Bytes} {l : Item} (hhold : c.hold = some ⟨.shared, {o}⟩) (hlease : c.lease = some l)
      (hi : l.hasILease = true) (hgrantee : grantee = some o) (hversion : c.version = none)
        (hwriters : writers = [])
  /-- Readers share it. -/
  | shared {us : Finset Bytes} (hhold : c.hold = some ⟨.shared, us⟩) (hlease : c.lease = none)
      (hvalue : c.value ≠ none)
      (hversion : c.version = none) (hwriters : writers = [])
  /-- One session changes it. -/
  | refresh {o : Bytes} (hhold : c.hold = some ⟨.refresh, {o}⟩)
      (hlease : ∀ l, c.lease = some l → l.hasQLease = true ∧ grantee = some o)
      (hversion : c.version = none ↔ writers = []) (hwriters : ∀ u ∈ writers, u = o)
  /-- One session invalidates it. -/
  | invalidate {o : Bytes} {l : Item} (hhold : c.hold = some ⟨.invalidate, {o}⟩)
      (hlease : c.lease = some l)
      (hq : l.hasQLease = true) (href : l.hasQRefLease = false) (hgrantee : grantee = some o)
        (hversion : c.version = none)
      (hwriters : writers = [])

/-! ## One key -/

section Ghost

variable {u : Bytes} {v v' : Option Item}

@[simp] theorem wrote_self : wrote sid key op v v ws = ws := if_pos rfl

@[simp] theorem granted_self : granted sid v v g = g := if_pos rfl

theorem granted_of_ne (h : v ≠ some l) : granted sid v (some l) g = some sid := if_neg h.symm

/-- A pending version that is not there has no writers. -/
theorem wrote_none (h : v = none → ws = []) : wrote sid key op v none ws = [] := by
  rw [wrote]
  split
  · next heq => exact h heq.symm
  · rw [if_pos rfl]

/-- A session that writes to what it wrote itself is the only writer. -/
theorem wrote_own (h : v = none ↔ ws = []) (hws : ∀ u ∈ ws, u = sid) :
    (v' = none ↔ wrote sid key op v v' ws = []) ∧ ∀ u ∈ wrote sid key op v v' ws, u = sid := by
  constructor
  · rw [wrote]
    split
    · next heq => rw [heq, h]
    · split
      · next hnone => simp [hnone]
      · next hsome => split <;> simp [hsome]
  · intro u hu
    rcases mem_wrote hu with ⟨hmem, -⟩ | ⟨rfl, -⟩
    · exact hws u hmem
    · rfl

end Ghost

namespace Cell.Owned

variable {c c' : Cell} {ws' : List Bytes} {g' : Option Bytes} {h : Hold}

/-- A key that no session may write has no pending version, and no lease but that of a reader. -/
theorem unwritten (ho : c.Owned ws g) (hhold : ∀ h, c.hold = some h → h.kind = .shared) :
    c.version = none ∧ ws = [] ∧ ∀ l, c.lease = some l → l.hasILease = true := by
  cases ho with
  | free _ hlease hversion hwriters =>
    exact ⟨hversion, hwriters, fun l hl => by rw [hlease] at hl; cases hl⟩
  | missed _ hlease hi _ hversion hwriters =>
    refine ⟨hversion, hwriters, fun l hl => ?_⟩
    rw [hlease] at hl
    cases hl
    exact hi
  | shared _ hlease _ hversion hwriters =>
    exact ⟨hversion, hwriters, fun l hl => by rw [hlease] at hl; cases hl⟩
  | refresh hh => cases hhold _ hh
  | invalidate hh => cases hhold _ hh

/-- A key that a session may write is held by no other session, and its lease is a Q lease granted
to the session. -/
theorem sole (ho : c.Owned ws g) (hhold : c.hold = some h) (hkind : h.kind ≠ .shared)
    (hsid : sid ∈ h.holders) :
    h.holders = {sid} ∧ (c.version = none ↔ ws = []) ∧ (∀ u ∈ ws, u = sid) ∧
      (∀ l, c.lease = some l → l.hasQLease = true ∧ g = some sid) ∧
      (h.kind = .invalidate → c.version = none ∧ ∃ l, c.lease = some l ∧
        l.hasQRefLease = false) := by
  cases ho with
  | free hh =>
    rw [hh] at hhold
    cases hhold
  | missed hh | shared hh =>
    rw [hh] at hhold
    cases hhold
    exact absurd rfl hkind
  | refresh hh hlease hversion hwriters =>
    rw [hh] at hhold
    cases hhold
    obtain rfl := Finset.mem_singleton.mp hsid
    exact ⟨rfl, hversion, hwriters, hlease, nofun⟩
  | @invalidate o l hh hlease hq href hgrantee hversion hwriters =>
    rw [hh] at hhold
    cases hhold
    obtain rfl := Finset.mem_singleton.mp hsid
    refine ⟨rfl, by simp [hversion, hwriters], by simp [hwriters], fun l' hl' => ?_,
      fun _ => ⟨hversion, l, hlease, href⟩⟩
    rw [hlease] at hl'
    cases hl'
    exact ⟨hq, hgrantee⟩

/-- A session changes a key that it alone may write. -/
theorem of_refresh (hc : c'.hold = some ⟨.refresh, {sid}⟩) (hversion : c.version = none ↔ ws = [])
    (hwriters : ∀ u ∈ ws, u = sid)
    (hlease : ∀ l, c'.lease = some l → l.hasQLease = true ∧ g' = some sid) :
    c'.Owned (wrote sid key op c.version c'.version ws) g' := by
  have hown : (c'.version = none ↔ wrote sid key op c.version c'.version ws = []) ∧
      ∀ u ∈ wrote sid key op c.version c'.version ws, u = sid := wrote_own hversion hwriters
  exact .refresh hc hlease hown.1 hown.2

/-- What is left when sessions that hold a key let go of it, and its lease goes. -/
theorem leave (ho : c.Owned ws g) (hsids : ∀ u ∈ sids, c.Lists u) (hne : sids.Nonempty)
    (hc : c'.hold = (c.leave sids).hold) (hlease : c'.lease = none) (hversion : c'.version = none)
    (hwriters : ws' = []) (hvalue : ∀ h, c.hold = some h → h.kind = .shared → c.value ≠ none →
      c'.value ≠ none) :
    c'.Owned ws' g' := by
  have hsingle : ∀ {kind : Kind} {o : Bytes}, c.hold = some ⟨kind, {o}⟩ → c'.hold = none := by
    intro kind o hhold
    obtain ⟨u, hu⟩ := hne
    obtain ⟨h, hh, hmem⟩ := hsids u hu
    rw [hhold] at hh
    cases hh
    have hsub : ({o} : Finset Bytes) ⊆ sids := by
      rw [Finset.singleton_subset_iff, ← Finset.mem_singleton.mp hmem]
      exact hu
    rw [hc, Cell.leave_of_some hhold]
    exact Hold.without_of_subset hsub
  cases ho with
  | free hhold =>
    exact .free (hc.trans (by rw [Cell.leave_of_none hhold, hhold])) hlease hversion hwriters
  | missed hhold => exact .free (hsingle hhold) hlease hversion hwriters
  | @shared us hhold _ hsome =>
    have hleave : c'.hold = Hold.without ⟨.shared, us⟩ sids := by rw [hc, Cell.leave_of_some hhold]
    by_cases hsub : us ⊆ sids
    · exact .free (hleave.trans (Hold.without_of_subset hsub)) hlease hversion hwriters
    · exact .shared (hleave.trans (Hold.without_of_not_subset hsub)) hlease
        (hvalue _ hhold rfl hsome) hversion hwriters
  | refresh hhold => exact .free (hsingle hhold) hlease hversion hwriters
  | invalidate hhold => exact .free (hsingle hhold) hlease hversion hwriters

end Cell.Owned

/-- A key is in one of the phases after an operation of a session. -/
def Cell.OwnedAfter (c c' : Cell) (sid key : Bytes) (op : Op) (ws : List Bytes)
    (g : Option Bytes) : Prop :=
  c'.Owned (wrote sid key op c.version c'.version ws) (granted sid c.lease c'.lease g)

namespace Cell.Owned

variable {c c' : Cell} {h : Hold}

variable (ho : c.Owned ws g)

include ho

theorem same : c.OwnedAfter c sid key op ws g := by
  rwa [OwnedAfter, wrote_self, granted_self]

theorem eq_nil (hversion : c.version = none) : ws = [] := by
  cases ho with
  | free _ _ _ hwriters | missed _ _ _ _ _ hwriters | shared _ _ _ _ hwriters
  | invalidate _ _ _ _ _ _ hwriters => exact hwriters
  | refresh _ _ hiff => exact hiff.mp hversion

theorem clean (hsid : c.Lists sid) : c.OwnedAfter (c.clean sid) sid key op ws g := by
  refine ho.leave (fun u hu => Finset.mem_singleton.mp hu ▸ hsid) (Finset.singleton_nonempty sid)
    rfl rfl rfl ?_ fun _ _ _ => id
  exact wrote_none ho.eq_nil

theorem expel (hsids : ∀ u ∈ sids, c.Lists u) (hversion : sids.Nonempty → c.version = none) :
    c.OwnedAfter (c.expel sids) sid key op ws g := by
  rcases Finset.eq_empty_or_nonempty sids with rfl | hne
  · rw [Cell.expel_empty]
    exact ho.same
  · have hnone := hversion hne
    obtain ⟨u, hu⟩ := hne
    obtain ⟨hold, hhold, -⟩ := hsids u hu
    rw [Cell.expel_of_some (Finset.ne_empty_of_mem hu) hhold]
    refine ho.leave hsids ⟨u, hu⟩ (by rw [Cell.leave_of_some hhold]) rfl hnone ?_ fun _ _ _ => id
    rw [hnone]
    exact wrote_none fun _ => ho.eq_nil hnone

theorem commit (hsid : c.Lists sid) (hc : Committed sid c c') :
    c.OwnedAfter c' sid key op ws g := by
  obtain ⟨hold, hhold, hmem⟩ := hsid
  have hcommits := hc.held hold hhold
  have hversion : c'.version = none := by
    cases hkind : hold.kind <;> rw [hkind] at hcommits
    · exact hcommits.1.trans (ho.unwritten fun h hh => by rw [hhold] at hh; cases hh; exact hkind).1
    · exact hcommits.1
    · exact hcommits.1.trans ((ho.sole hhold (by rw [hkind]; nofun) hmem).2.2.2.2 hkind).1
  refine ho.leave (fun u hu => Finset.mem_singleton.mp hu ▸ ⟨hold, hhold, hmem⟩)
    (Finset.singleton_nonempty sid) hc.hold
    hc.lease hversion ?_ fun h hh hkind hvalue hnone => ?_
  · rw [hversion]
    exact wrote_none ho.eq_nil
  · rw [hhold] at hh
    cases hh
    rw [hkind] at hcommits
    have hrel := hcommits.2
    rw [hnone] at hrel
    cases hv : c.value with
    | none => exact hvalue hv
    | some it =>
      rw [hv] at hrel
      cases hrel

/-- A session takes a key that no session may write, to change it. -/
theorem take (hhold : ∀ h, c.hold = some h → h.kind = .shared)
    (hc : c'.hold = some ⟨.refresh, {sid}⟩) (hlease : ∀ l, c'.lease = some l → l.hasQLease = true) :
    c.OwnedAfter c' sid key op ws g := by
  obtain ⟨hversion, rfl, hi⟩ := ho.unwritten hhold
  refine of_refresh hc (by simp [hversion]) nofun fun l hl => ⟨hlease l hl, ?_⟩
  have hne : c.lease ≠ some l := by
    intro heq
    have hi := hi l heq
    rw [Item.not_hasILease_of_hasQLease (hlease l hl)] at hi
    cases hi
  rw [hl]
  exact granted_of_ne hne

/-- A session changes a key that it may write. -/
theorem change (hhold : c.hold = some h) (hkind : h.kind = .refresh) (hsid : sid ∈ h.holders)
    (hc : c'.hold = c.hold) (hlease : ∀ l, c'.lease = some l → l.hasQLease = true) :
    c.OwnedAfter c' sid key op ws g := by
  obtain ⟨hsole, hversion, hwriters, hleased, -⟩ := ho.sole hhold (by rw [hkind]; nofun) hsid
  have hc : c'.hold = some ⟨.refresh, {sid}⟩ := by rw [hc, hhold, ← hkind, ← hsole]
  refine of_refresh hc hversion hwriters fun l hl => ⟨hlease l hl, ?_⟩
  rw [hl]
  by_cases heq : c.lease = some l
  · rw [heq, granted_self]
    exact (hleased l heq).2
  · exact granted_of_ne heq

/-- A session that may write a key to refresh it, by the lease of the key. -/
theorem kind_of_lease (hhold : c.hold = some h) (hkind : h.kind ≠ .shared) (hsid : sid ∈ h.holders)
    (hlease : ∀ l, c.lease = some l → l.hasQRefLease = true) : h.kind = .refresh := by
  have hinv := (ho.sole hhold hkind hsid).2.2.2.2
  cases hk : h.kind with
  | shared => exact absurd hk hkind
  | refresh => rfl
  | invalidate =>
    obtain ⟨-, l, hl, href⟩ := hinv hk
    rw [hlease l hl] at href
    cases href

/-- A reader joins. -/
theorem share (hhold : ∀ h, c.hold = some h → h.kind = .shared) (hlease : c.lease = none)
    (hc : c'.hold = some ⟨.shared, insert sid (c.hold.elim ∅ Hold.holders)⟩)
    (hversion : c'.version = c.version) (hvalue : c'.value = c.value)
    (hhit : c.value ≠ none → c'.lease = none) (hmiss : c.value = none → ∃ l, c'.lease = some l ∧
      l.lease = .i) : c.OwnedAfter c' sid key op ws g := by
  obtain ⟨hnone, hwriters, -⟩ := ho.unwritten hhold
  rw [OwnedAfter, hversion, wrote_self]
  by_cases hv : c.value = none
  · obtain ⟨l, hl, hi⟩ := hmiss hv
    have hfree : c.hold = none := by
      cases ho with
      | free hfree => exact hfree
      | missed _ hl => rw [hlease] at hl; cases hl
      | shared _ _ hsome => exact absurd hv hsome
      | refresh hh => cases hhold _ hh
      | invalidate hh => cases hhold _ hh
    have hc : c'.hold = some ⟨.shared, {sid}⟩ := by rw [hc, hfree]; rfl
    refine .missed hc hl (decide_eq_true hi) ?_ (hversion.trans hnone) hwriters
    rw [hl, hlease]
    exact granted_of_ne nofun
  · exact .shared hc (hhit hv) (hvalue ▸ hv) (hversion.trans hnone) hwriters

/-- A session registers a key that no session may write. -/
theorem register (hhold : ∀ h, c.hold = some h → h.kind = .shared)
    (hc : c'.hold = some ⟨.invalidate, {sid}⟩) (hversion : c'.version = c.version)
    (hlease : c'.lease = some l) (hl : l.lease = .qInv) : c.OwnedAfter c' sid key op ws g := by
  obtain ⟨hnone, hwriters, hi⟩ := ho.unwritten hhold
  rw [OwnedAfter, hversion, wrote_self]
  refine .invalidate hc hlease ?_ ?_ ?_ (hversion.trans hnone) hwriters
  · simp [Item.hasQLease, Item.hasQInvLease, hl]
  · simp [Item.hasQRefLease, hl]
  · rw [hlease]
    refine granted_of_ne fun heq => ?_
    have hi := hi l heq
    rw [Item.hasILease, hl] at hi
    cases hi

end Cell.Owned

/-! ## All keys -/

namespace Cell.Lists

variable {c : Cell} {u : Bytes}

theorem leave (h : c.Lists u) (hu : u ∉ sids) : (c.leave sids).Lists u := by
  obtain ⟨hold, hc, hmem⟩ := h
  have hsub : ¬ hold.holders ⊆ sids := fun hsub => hu (hsub hmem)
  rw [Lists, Cell.leave_of_some hc]
  exact ⟨_, Hold.without_of_not_subset hsub, Finset.mem_sdiff.mpr ⟨hmem, hu⟩⟩

theorem expel (h : c.Lists u) (hu : u ∉ sids) : (c.expel sids).Lists u := by
  obtain ⟨hold, hc, hmem⟩ := h
  by_cases hempty : sids = ∅
  · rw [hempty, Cell.expel_empty]
    exact ⟨hold, hc, hmem⟩
  · have hleave : (c.expel sids).hold = (c.leave sids).hold := by
      rw [Cell.expel_of_some hempty hc, Cell.leave_of_some hc]
    rw [Lists, hleave]
    exact leave ⟨hold, hc, hmem⟩ hu

end Cell.Lists

/-- Every key that a live session has in its list is held by it. -/
def State.Listed (a : State) : Prop := ∀ u k, a.Works u k → (a.cell k).Lists u

namespace State.Listed

variable {spared : Bytes → Bool} {u k : Bytes} {c : Cell}

theorem setCell (h : a.Listed) (hc : ∀ u, (a.cell key).Lists u → c.Lists u) :
    (a.setCell key c).Listed := by
  intro u k hworks
  have hlists := h u k hworks
  rcases eq_or_ne k key with rfl | hne
  · rw [cell_setCell_self]
    exact hc u hlists
  · rwa [cell_setCell_of_ne hne]

theorem drop (h : a.Listed) : (a.drop sid).Listed := fun u k hworks => h u k hworks.of_drop.1

theorem clean (h : a.Listed) : (a.clean sid).Listed := by
  intro u k hworks
  have hlists := h u k hworks.of_drop.1
  simp only [State.clean]
  split
  · exact hlists.leave fun hu => hworks.of_drop.2 (Finset.mem_singleton.mp hu)
  · exact hlists

/-- A session joins the holders of a key. -/
theorem join (h : ∀ u k, a.Works u k → k ≠ key → (a.cell k).Lists u)
    (hmarked : a.marked sid = false) (hsid : c.Lists sid) (hothers : ∀ u, a.Works u key → u ≠ sid →
      c.Lists u) : ((a.enter sid key).setCell key c).Listed := by
  intro u k hworks
  rcases eq_or_ne k key with rfl | hne
  · rw [cell_setCell_self]
    rcases eq_or_ne u sid with rfl | hu
    · exact hsid
    · exact hothers u (hworks.congr (Function.update_of_ne hu ..).symm) hu
  · rw [cell_setCell_of_ne hne]
    refine h u k ?_ hne
    rcases eq_or_ne u sid with rfl | hu
    · have hmem : k ∈ insert key (a.keys u) := keys_enter_self ▸ hworks.mem_keys
      exact .of_mem hmarked (Finset.mem_of_mem_insert_of_ne hmem hne)
    · exact hworks.congr (Function.update_of_ne hu ..).symm

/-- A session drives the readers from a key and takes it. -/
theorem occupy (h : a.Listed) (hmarked : a.marked sid = false) (hself : spared sid = true)
    (hspared : ∀ u, (a.cell key).Lists u → u ≠ sid → spared u = false) (hsid : c.Lists sid) :
    (((a.vacate spared key).enter sid key).setCell key c).Listed := by
  refine join (fun u k hworks hne => ?_) ((marked_vacate hself).trans hmarked) hsid
    fun u hworks hu => ?_
  · obtain ⟨hworks, hnot⟩ := hworks.of_vacate
    rw [cell_vacate_of_ne hne]
    exact (h u k hworks).expel fun hmem => hnot (Finset.mem_filter.mp hmem).1
  · -- nobody else works on the key any more
    obtain ⟨hworks, hnot⟩ := hworks.of_vacate
    refine absurd ?_ hnot
    have hlists := h u key hworks
    have hother := hspared u hlists hu
    obtain ⟨hold, hhold, hmem⟩ := hlists
    obtain ⟨q, hq, -⟩ := hworks
    rw [victims, hhold, Option.elim_some, Finset.mem_filter, hother, hq]
    exact ⟨hmem, rfl⟩

end State.Listed

/-- Every key is in one of the phases, and the sessions that work on it are the ones that hold
it. -/
structure State.Owned (a : State) (writers : Bytes → List Bytes)
    (grantee : Bytes → Option Bytes) : Prop where
  attended : a.Attended
  listed : a.Listed
  cell : ∀ k, (a.cell k).Owned (writers k) (grantee k)

/-- What a request must respect: it does not seize a key that another session may write, and the
readers that a write drives out are other sessions, and none of them has written anything. -/
structure Respects (spared : Bytes → Bool) (a : State) (sid : Bytes) (op : Op) : Prop where
  seizes : ∀ key, op.seizes = some key → ∀ h, (a.cell key).hold = some h → h.kind ≠ .shared →
    sid ∈ h.holders
  readers : ∀ key, op.claims = some key → ∀ h, (a.cell key).hold = some h → h.kind = .shared →
    ∀ u ∈ h.holders, u ≠ sid →
    spared u = false
  writers : ∀ u, Aborted spared a op u → ∀ k ∈ a.keys u, (a.cell k).version = none

section Steps

variable {spared : Bytes → Bool} {r : CoResult} {writers : Bytes → List Bytes}
  {grantee : Bytes → Option Bytes}

/-- A refresh lease is on no key that sessions share. -/
theorem State.Owned.not_occupied (h : a.Owned writers grantee)
    (hhold : ∀ h, (a.cell key).hold = some h → h.kind = .shared)
    (hlease : (a.cell key).lease = some l) :
    l.hasQRefLease = false := by
  have hi := ((h.cell key).unwritten hhold).2.2 l hlease
  rw [Item.hasILease, decide_eq_true_eq] at hi
  rw [Item.hasQRefLease, hi]
  rfl

/-! ### Keys -/

section Cells

variable {c : Cell} (h : a.Owned writers grantee)

include h

/-- A session that is not marked is cleaned off the keys that it works on. -/
theorem State.Owned.clean (hmarked : a.marked sid = false) (k : Bytes) :
    (a.cell k).OwnedAfter ((a.clean sid).cell k) sid k op (writers k) (grantee k) := by
  simp only [State.clean]
  split
  · next hk => exact (h.cell k).clean (h.listed sid k (.of_mem hmarked hk))
  · exact (h.cell k).same

omit h in
theorem ownedAfter_setCell (h : ∀ k, (a.cell k).Owned (writers k) (grantee k))
    (hc : (a.cell key).OwnedAfter c sid key op (writers key) (grantee key)) (k : Bytes) :
    (a.cell k).OwnedAfter ((a.setCell key c).cell k) sid k op (writers k) (grantee k) := by
  rcases eq_or_ne k key with rfl | hne
  · rwa [State.cell_setCell_self]
  · rw [State.cell_setCell_of_ne hne]
    exact (h k).same

/-- The readers that are driven out work on the keys that they are taken off. -/
theorem State.Owned.vacate (hop : Respects spared a sid op) (hclaims : op.claims = some key)
    (hhold : ∀ h, (a.cell key).hold = some h → h.kind = .shared)
    (hc : (a.cell key).OwnedAfter c sid key op (writers key) (grantee key)) (k : Bytes) :
    (a.cell k).OwnedAfter (((a.vacate spared key).setCell key c).cell k) sid k op (writers k)
      (grantee k) := by
  rcases eq_or_ne k key with rfl | hne
  · rwa [State.cell_setCell_self]
  · rw [State.cell_setCell_of_ne hne, State.cell_vacate_of_ne hne]
    refine (h.cell k).expel (fun u hu => ?_) ?_
    · obtain ⟨hvictim, hk⟩ := Finset.mem_filter.mp hu
      obtain ⟨hold, hheld, hmem, -⟩ := State.mem_victims hvictim
      exact h.listed u k (.of_mem (h.attended key hold hheld u hmem).not_marked hk)
    · rintro ⟨u, hu⟩
      obtain ⟨hvictim, hk⟩ := Finset.mem_filter.mp hu
      exact hop.writers u ⟨key, hclaims, hhold, hvictim⟩ k hk

end Cells

namespace Cell.Owned

variable {c c' : Cell} {hold : Hold} {lease : Option Item} {ws : List Bytes} {g : Option Bytes}

/-- A swap of a session that may write the key, with or without a body. -/
theorem swap (ho : c.Owned ws g) (hhold : c.hold = some hold) (hkind : hold.kind ≠ .shared)
    (hsid : sid ∈ hold.holders) (hlease : c.lease = some l) (hq : l.hasQRefLease = true)
    (hc : c'.hold = c.hold) (hnone : c'.lease = none) :
    c.OwnedAfter c' sid key op ws g := by
  have href : hold.kind = .refresh := ho.kind_of_lease hhold hkind hsid fun l' hl' => by
    rw [hlease] at hl'
    cases hl'
    exact hq
  exact ho.change hhold href hsid hc (by simp [hnone])

/-- A key that nobody holds has no lease. -/
theorem lease_of_hold (ho : c.Owned ws g) (hnone : c.hold = none) : c.lease = none := by
  cases ho with
  | free _ hlease => exact hlease
  | missed hh | shared hh | refresh hh | invalidate hh => cases hh.symm.trans hnone

theorem amend {r : CoResult} (ho : c.Owned ws g) (hhold : c.hold = some hold)
    (hkind : hold.kind ≠ .shared) (hsid : sid ∈ hold.holders) (hc : op.Updates c c' r) :
    c.OwnedAfter c' sid key op ws g := by
  have hq := (ho.sole hhold hkind hsid).2.2.2.1
  cases hlease : c.lease with
  | some l =>
    rw [(hc.quarantined l hlease (hq l hlease).1).2]
    exact ho.same
  | none =>
    have href := ho.kind_of_lease hhold hkind hsid fun l hl => by rw [hlease] at hl; cases hl
    have hnone : c'.lease = none := hc.lease fun l hl => by rw [hlease] at hl; cases hl
    exact ho.change hhold href hsid hc.hold fun l hl => by rw [hnone] at hl; cases hl

/-- The lease of a session that invalidates a key is a Q lease. -/
theorem reregister (ho : c.Owned ws g) (hhold : c.hold = some hold) (hkind : hold.kind ≠ .shared)
    (hsid : sid ∈ hold.holders) (hlease : Quarantines c.lease lease) :
    c.OwnedAfter { c with lease := lease } sid key op ws g := by
  rcases hlease with ⟨l, hl, hq, rfl⟩ | ⟨hi, l, rfl, hl⟩
  · exact ho.same
  · have hq := (ho.sole hhold hkind hsid).2.2.2.1
    have hnone : c.lease = none := by
      cases hlease : c.lease with
      | none => rfl
      | some l' =>
        have hi := hi l' hlease
        rw [Item.not_hasILease_of_hasQLease (hq l' hlease).1] at hi
        cases hi
    have href := ho.kind_of_lease hhold hkind hsid fun l hl => by rw [hnone] at hl; cases hl
    refine ho.change hhold href hsid rfl fun l' hl' => ?_
    cases hl'
    simp [Item.hasQLease, Item.hasQInvLease, hl]

end Cell.Owned

section

variable (hstep : Step spared a sid op r a')

include hstep

/-- The sessions that work on a key hold it, after any step that respects the leases. -/
theorem Step.listed (h : a.Owned writers grantee) (hself : spared sid = true)
    (hop : Respects spared a sid op) : a'.Listed := by
  have hl := h.listed
  have hothers : ∀ {key : Bytes}, op.claims = some key →
    (∀ h, (a.cell key).hold = some h → h.kind = .shared) →
      ∀ u, (a.cell key).Lists u → u ≠ sid → spared u = false := by
    rintro key hclaims hhold u ⟨hold, hheld, hu⟩
    exact hop.readers key hclaims hold hheld (hhold hold hheld) u hu
  have hsame : ∀ {key : Bytes} {c : Cell}, c.hold = (a.cell key).hold → ∀ u, (a.cell key).Lists u →
    c.Lists u := by
    rintro key c hc u ⟨hold, hheld, hu⟩
    exact ⟨hold, hc.trans hheld, hu⟩
  have hjoin : ∀ {key : Bytes} {c : Cell}, a.marked sid = false → c.hold = (a.cell key).hold →
    (a.cell key).Lists sid →
      ((a.enter sid key).setCell key c).Listed := by
    intro key c hmarked hc hsid
    exact .join (fun u k hworks _ => hl u k hworks) hmarked (hsame hc sid hsid) fun u hworks _ =>
      hsame hc u (hl u key hworks)
  cases hstep with
  | forget => exact hl.drop
  | unknown => exact hl
  | foreign => exact hl.clean
  | ownRead => exact hl
  | leased => exact hl
  | quarantined => exact hl
  | @share key _ c' hmarked hhold _ hc =>
    refine .join (fun u k hworks _ => hl u k hworks) hmarked ⟨_, hc, Finset.mem_insert_self ..⟩
      fun u hworks _ => ?_
    obtain ⟨hold, hheld, hu⟩ := hl u key hworks
    refine ⟨_, hc, Finset.mem_insert_of_mem ?_⟩
    rwa [hheld, Option.elim_some]
  | occupied _ hhold hlease hq =>
    rw [h.not_occupied hhold hlease] at hq
    cases hq
  | grant hmarked hhold _ hc =>
    exact hl.occupy hmarked hself (hothers rfl hhold) ⟨_, hc, Finset.mem_singleton_self _⟩
  | unheld => exact hl
  | robbed _ hhold hkind hsid => exact absurd (hop.seizes _ rfl _ hhold hkind) hsid
  | emptied => exact hl.setCell (hsame rfl)
  | swap => exact hl.setCell (hsame rfl)
  | write hmarked hhold =>
    exact hl.occupy hmarked hself (hothers rfl hhold) ⟨_, rfl, Finset.mem_singleton_self _⟩
  | blocked => exact hl
  | rewrite hmarked hhold _ hsid => exact hjoin hmarked rfl ⟨_, hhold, hsid⟩
  | update hmarked hupdates hhold hc =>
    exact hl.occupy hmarked hself (hothers (op.claims_of_updates hupdates) hhold) ⟨_, hc.hold,
      Finset.mem_singleton_self _⟩
  | amend hmarked _ hhold _ hsid hc => exact hjoin hmarked hc.hold ⟨_, hhold, hsid⟩
  | register hmarked hhold =>
    exact hl.occupy hmarked hself (hothers rfl hhold) ⟨_, rfl, Finset.mem_singleton_self _⟩
  | reregister hmarked hhold hkind =>
    exact hjoin hmarked rfl ⟨_, hhold, hop.seizes _ rfl _ hhold hkind⟩
  | valid => exact hl
  | outdated => exact hl.clean
  | @commit q a' hsess _ hs hin hout =>
    intro u k hworks
    obtain ⟨hworks, hne⟩ : a.Works u k ∧ u ≠ sid := (hworks.congr (congrFun hs u).symm).of_drop
    have hlists := hl u k hworks
    by_cases hk : k ∈ q.keys
    · rw [Cell.Lists, (hin k hk).hold]
      exact hlists.leave fun hu => hne (Finset.mem_singleton.mp hu)
    · rwa [hout k hk]
  | unlease => exact hl.clean

/-- The phases of the keys, after any step that respects the leases. -/
theorem Step.cell_owned (h : a.Owned writers grantee) (hop : Respects spared a sid op) (k : Bytes) :
    (a.cell k).OwnedAfter (a'.cell k) sid k op (writers k) (grantee k) := by
  have ho := h.cell
  have hsame : (a.cell k).OwnedAfter (a.cell k) sid k op (writers k) (grantee k) := (ho k).same
  have halive : ∀ {q : Sess}, a.sess sid = some q → q.aborted = false → a.marked sid = false := by
    intro q hq halive
    rw [State.marked, hq, Option.any_some, halive]
  cases hstep with
  | forget | unknown | ownRead | leased | quarantined | unheld | blocked | valid => exact hsame
  | foreign hmarked => exact h.clean hmarked k
  | @share key _ c' _ hhold hlease hc hversion hvalue hhit hmiss =>
    refine ownedAfter_setCell ho ?_ k
    exact (ho key).share hhold hlease hc hversion hvalue hhit hmiss
  | occupied _ hhold hlease hq =>
    rw [h.not_occupied hhold hlease] at hq
    cases hq
  | @grant key c' _ hhold _ hc hl =>
    refine h.vacate hop rfl hhold ((ho key).take hhold hc fun l hl' => ?_) k
    obtain ⟨l₁, hl₁, href⟩ := hl
    rw [hl₁] at hl'
    cases hl'
    simp [Item.hasQLease, Item.hasQRefLease, href]
  | robbed _ hhold hkind hsid => exact absurd (hop.seizes _ rfl _ hhold hkind) hsid
  | emptied _ hhold hkind hsid hlease hq | swap _ hhold hkind hsid hlease hq =>
    refine ownedAfter_setCell ho ?_ k
    exact (ho _).swap hhold hkind hsid hlease hq rfl rfl
  | @write it version _ hhold =>
    refine h.vacate hop rfl hhold ?_ k
    refine (ho it.key).take hhold rfl fun l hl => ?_
    dsimp only at hl
    split at hl
    · cases hl
    · next hnone =>
      rw [(ho it.key).lease_of_hold (by simpa using hnone)] at hl
      cases hl
  | @rewrite it hold version _ hhold hkind hsid hlease =>
    refine ownedAfter_setCell ho ?_ k
    exact (ho it.key).change hhold ((ho it.key).kind_of_lease hhold hkind hsid hlease) hsid
      rfl (by simp)
  | @update _ key c' r _ hupdates hhold hc =>
    have hnone : c'.lease = none := hc.lease ((ho key).unwritten hhold).2.2
    exact h.vacate hop (op.claims_of_updates hupdates) hhold
      ((ho key).take hhold hc.hold fun l hl => by rw [hnone] at hl; cases hl) k
  | amend _ _ hhold hkind hsid hc =>
    exact ownedAfter_setCell ho ((ho _).amend hhold hkind hsid hc) k
  | @register key lease _ hhold hlease =>
    have hi := ((ho key).unwritten hhold).2.2
    rcases hlease with ⟨l, hl, hq, -⟩ | ⟨-, l, rfl, hl⟩
    · have hi := hi l hl
      rw [Item.not_hasILease_of_hasQLease hq] at hi
      cases hi
    · refine h.vacate hop rfl hhold ?_ k
      exact (ho key).register hhold rfl rfl rfl hl
  | reregister _ hhold hkind hlease =>
    exact ownedAfter_setCell ho
      ((ho _).reregister hhold hkind (hop.seizes _ rfl _ hhold hkind) hlease) k
  | outdated hsess hq => exact h.clean (halive hsess hq) k
  | @commit q a' hsess hq _ hin hout =>
    by_cases hk : k ∈ q.keys
    · exact (ho k).commit (h.listed sid k ⟨q, hsess, hq, hk⟩) (hin k hk)
    · rw [hout k hk]
      exact hsame
  | unlease hsess hq => exact h.clean (halive hsess hq) k

/-- A step that respects the leases keeps every key in one of the phases. -/
theorem Step.owned (h : a.Owned writers grantee) (hself : spared sid = true)
    (hop : Respects spared a sid op) :
    a'.Owned (fun k => wrote sid k op (a.cell k).version (a'.cell k).version (writers k))
      fun k => granted sid (a.cell k).lease (a'.cell k).lease (grantee k) :=
  ⟨hstep.attended h.attended, hstep.listed h hself hop, hstep.cell_owned h hop⟩

end

end Steps

end Session

/-! ## Runs -/

open Session

/-- The sessions that wrote the bytes of the pending version of a key, after a history. -/
def writers (key : Bytes) : History → List Bytes
  | [] => []
  | m :: h => match m.label.call with
    | none => writers key h
    | some (sid, op, _) =>
      wrote sid key op (m.pre.server.version key) (m.post.server.version key) (writers key h)

/-- The session that was granted the lease of a key, after a history. -/
def grantee (key : Bytes) : History → Option Bytes
  | [] => none
  | m :: h => match m.label.call with
    | none => grantee key h
    | some (sid, _, _) =>
      granted sid (m.pre.server.lease key) (m.post.server.lease key) (grantee key h)

/-- The step respects the leases of other sessions: a swap or a registration does not seize a key
that another session may write, and the readers that a write drives out are other sessions, and none
of them has written anything. -/
def Moment.Respects (m : Moment) : Prop :=
  (∀ call ∈ m.label.call, ∀ key ∈ call.2.1.seizes, m.pre.server.exclusive key = true →
    call.1 ∈ m.pre.server.holders key) ∧
  (∀ call ∈ m.label.call, ∀ key ∈ call.2.1.claims, ∀ u ∈ m.pre.server.readers key, u ≠ call.1 →
    m.pre.server.spared call.1 key u = false) ∧
  m.SparesWriters

instance instDecidableRespects (m : Moment) : Decidable m.Respects :=
  inferInstanceAs (Decidable (_ ∧ _ ∧ _))

theorem Session.Op.Named.seizes {N : Naming} (hop : op.Named N) (h : op.seizes = some key) :
    N.Key key := by
  cases op <;> cases h <;> exact hop

section Runs

variable {c : Settings} {N : Naming} {h : History} {w : World}

/-- The condition on the records says what it says about the sessions. -/
theorem Moment.Respects.respects {r : CoResult} (hm : m.Respects)
    (hcall : m.label.call = some (sid, op, r)) (hs : Serving c N m.pre.server a)
    (hop : op.Named N) :
    Session.Respects (m.pre.server.spared sid op.key) a sid op := by
  obtain ⟨hseizes, hreaders, hwriters⟩ := hm
  have hself : m.pre.server.spared sid op.key sid = true := by
    rw [Server.spared, decide_eq_true rfl, Bool.true_or]
  refine ⟨fun key hkey hold hhold hkind => ?_, fun key hkey hold hhold hkind u hu hne => ?_, ?_⟩
  · have hnamed := hop.seizes hkey
    have hmem := hseizes _ hcall key hkey (hs.exclusive hnamed hhold hkind)
    obtain ⟨hold', hhold', hsid⟩ := (hs.mem_holders hnamed).mp hmem
    rw [hhold] at hhold'
    cases hhold'
    exact hsid
  · rw [Op.key_of_claims hkey]
    exact hreaders _ hcall key hkey u ((hs.mem_readers (hop.claims hkey)).mpr ⟨hold, hhold,
      hkind, hu⟩) hne
  · rintro u ⟨key, hclaims, hhold, hmem⟩ k hk
    have hkey := hop.claims hclaims
    obtain ⟨hold, hheld, hu, hother⟩ := State.mem_victims hmem
    have husid := hs.sid_of_mem hkey hheld hu
    have hne : u ≠ sid := by
      rintro rfl
      rw [hself] at hother
      cases hother
    rw [← hs.version (hs.key_of_mem husid hk)]
    refine hwriters _ hcall key hclaims u ?_ hne k ((hs.mem_entries husid).mpr hk)
    exact (hs.mem_readers hkey).mpr ⟨hold, hheld, hhold hold hheld, hu⟩

/-- In runs that respect the leases, every key is in one of the phases. -/
theorem CoRun.owned (hc : c.Relative) (hr : CoRun c N h w)
    (hrespects : ∀ m ∈ h, Moment.Respects m) :
    ∃ a ws gs, Serving c N w.server a ∧ State.Owned a ws gs ∧ ∀ k, N.Key k → writers k h = ws k ∧
    grantee k h = gs k := by
  obtain ⟨hrun, hco⟩ := hr
  induction hrun with
  | init hinit =>
    cases hinit
    refine ⟨.empty, fun _ => [], fun _ => none, serving_start hc,
      ⟨nofun, ?_, fun _ => .free rfl rfl rfl rfl⟩, fun _ _ => ⟨rfl, rfl⟩⟩
    rintro u k ⟨q, hq, -⟩
    cases hq
  | @step h w w' e hrun hstep ih =>
    obtain ⟨a, ws, gs, hs, howned, hghost⟩ :=
      ih (fun m hm => hrespects m (List.mem_cons_of_mem _ hm)) fun m hm =>
        hco m (List.mem_cons_of_mem _ hm)
    have hserved := hs.step hc hrun hstep (hco _ List.mem_cons_self)
    cases hcall : e.call with
    | none =>
      rw [hcall] at hserved
      obtain ⟨_, hs', rfl⟩ := hserved
      refine ⟨a, ws, gs, hs', howned, fun k hk => ?_⟩
      rw [writers, grantee, hcall]
      exact hghost k hk
    | some call =>
      obtain ⟨sid, op, r⟩ := call
      rw [hcall] at hserved
      obtain ⟨hsid, hop, a', hs', hmove⟩ := hserved
      have hrespect := (hrespects _ List.mem_cons_self).respects hcall hs hop
      have hself : w.server.spared sid op.key sid = true := by
        rw [Server.spared, decide_eq_true rfl, Bool.true_or]
      refine ⟨a', _, _, hs', hmove.owned howned hself hrespect, fun k hk => ?_⟩
      rw [writers, grantee, hcall, ← hs.version hk, ← hs'.version hk, ← hs.lease hk, ← hs'.lease hk,
        ← (hghost k hk).1, ← (hghost k hk).2]
      exact ⟨rfl, rfl⟩

/-- What a session may do to a key when it commits, given who wrote the pending version and who was
granted the lease. -/
structure CommitsOwn (sid : Bytes) (ws : List Bytes) (g : Option Bytes) (s s' : Server)
    (key : Bytes) : Prop where
  /-- What it installs it has written itself; a value that it has read may get a new expiry. -/
  installs : ∀ it, s'.live key = some it → (∃ it₀, s.live key = some it₀ ∧ Retimed it₀ it) ∨
    ∃ pv, s.version key = some pv ∧ Publishes pv it ∧ ws ≠ [] ∧ ∀ u ∈ ws, u = sid
  /-- A lease that it removes was granted to it. -/
  lease : s'.lease key ≠ s.lease key → g = some sid
  /-- It leaves the session lease alone. -/
  holders : ∀ u, u ≠ sid → (u ∈ s'.holders key ↔ u ∈ s.holders key)
  /-- What others have written is neither published nor lost. -/
  others : ∀ u ∈ ws, u ≠ sid → s'.version key = s.version key ∧ s'.live key = s.live key

/-- A commit that leaves a key alone. -/
theorem CommitsOwn.of_same (hs : Serving c N s a) (hs' : Serving c N s' a') (hkey : N.Key key)
    (hcell : a'.cell key = a.cell key) : CommitsOwn sid ws g s s' key where
  installs it hit := by
    rw [hs'.value hkey, hcell, ← hs.value hkey] at hit
    exact .inl ⟨it, hit, it.exptime, rfl⟩
  lease hne := absurd (by rw [hs'.lease hkey, hcell, hs.lease hkey]) hne
  holders u _ := by rw [hs'.mem_holders hkey, hcell, hs.mem_holders hkey]
  others u _ _ :=
    ⟨by rw [hs'.version hkey, hcell, hs.version hkey], by rw [hs'.value hkey, hcell, hs.value hkey]⟩

/-- A commit of a key that the session holds. -/
theorem CommitsOwn.of_committed (hs : Serving c N s a) (hs' : Serving c N s' a') (hkey : N.Key key)
    (ho : (a.cell key).Owned ws g) (hsid : (a.cell key).Lists sid)
    (hc : (a.cell key).Committed sid (a'.cell key)) :
    CommitsOwn sid ws g s s' key := by
  obtain ⟨hold, hhold, hmem⟩ := hsid
  have hcommits := hc.held hold hhold
  have hown : ∀ u ∈ ws, u = sid := by
    intro u hu
    by_cases hkind : hold.kind = .shared
    · have hnil := (ho.unwritten fun h hh => by rw [hhold] at hh; cases hh; exact hkind).2.1
      rw [hnil] at hu
      cases hu
    · exact (ho.sole hhold hkind hmem).2.2.1 u hu
  refine ⟨fun it hit => ?_, fun hne => ?_, fun u hu => ?_, fun u hu hne => absurd (hown u hu) hne⟩
  · rw [hs'.value hkey] at hit
    cases hkind : hold.kind with
    | shared =>
      rw [hkind] at hcommits
      have hrel := hcommits.2
      rw [hit] at hrel
      cases hv : (a.cell key).value with
      | none =>
        rw [hv] at hrel
        cases hrel
      | some it₀ =>
        rw [hv] at hrel
        cases hrel with
        | some hretimed => exact .inl ⟨it₀, (hs.value hkey).trans hv, hretimed⟩
    | refresh =>
      rw [hkind] at hcommits
      have hrel := hcommits.2
      rw [hit] at hrel
      cases hv : (a.cell key).version with
      | none =>
        rw [hv] at hrel
        cases hrel
      | some pv =>
        rw [hv] at hrel
        cases hrel with
        | some hpublishes =>
          have hiff := (ho.sole hhold (by rw [hkind]; nofun) hmem).2.1
          refine .inr ⟨pv, (hs.version hkey).trans hv, hpublishes, fun hnil => ?_, hown⟩
          rw [hiff.mpr hnil] at hv
          cases hv
    | invalidate =>
      rw [hkind] at hcommits
      rw [hcommits.2] at hit
      cases hit
  · -- the lease is gone, and it was the session's
    cases hl : (a.cell key).lease with
    | none =>
      rw [hs'.lease hkey, hs.lease hkey, hc.lease, hl] at hne
      exact absurd rfl hne
    | some l =>
      cases ho with
      | free hh => rw [hhold] at hh; cases hh
      | missed hh _ _ hgrantee =>
        rw [hhold] at hh
        cases hh
        rw [hgrantee, Finset.mem_singleton.mp hmem]
      | shared _ hnone => rw [hl] at hnone; cases hnone
      | refresh hh hlease =>
        rw [hhold] at hh
        cases hh
        rw [(hlease l hl).2, Finset.mem_singleton.mp hmem]
      | invalidate hh _ _ _ hgrantee =>
        rw [hhold] at hh
        cases hh
        rw [hgrantee, Finset.mem_singleton.mp hmem]
  · rw [hs'.mem_holders hkey, hs.mem_holders hkey]
    constructor
    · rintro ⟨hold', hhold', hu'⟩
      rw [hc.hold] at hhold'
      obtain ⟨h, hh, rfl, -⟩ := Cell.hold_leave hhold'
      exact ⟨h, hh, (Finset.mem_sdiff.mp hu').1⟩
    · intro hlists
      rw [Cell.Lists, hc.hold]
      exact hlists.leave fun hmem => hu (Finset.mem_singleton.mp hmem)

/-- A commit publishes only what its session has written, removes only leases and list entries of
its session, and leaves the other sessions and what they have written alone. -/
theorem dcommit_commits_own {m : Moment} {sid : Bytes} (hc : c.Relative) (hr : CoRun c N (m :: h) w)
    (hrespects : ∀ m ∈ h, Moment.Respects m) (hcall : m.label.call = some (sid, .dcommit, .ok)) :
    (∀ key, N.Key key → CommitsOwn sid (writers key h) (grantee key h) m.pre.server
        m.post.server key) ∧
    ∀ u, N.Sid u → u ≠ sid → m.post.server.alive u = m.pre.server.alive u ∧
      ∀ k, k ∈ m.post.server.entries u ↔ k ∈ m.pre.server.entries u := by
  obtain ⟨hrun, hco⟩ := hr
  cases hrun with
  | @step _ w₀ _ e hrun hstep =>
    obtain ⟨a, ws, gs, hs, howned, hghost⟩ :=
      CoRun.owned hc ⟨hrun, fun m hm => hco m (List.mem_cons_of_mem _ hm)⟩ hrespects
    have hserved := hs.step hc hrun hstep (hco _ List.mem_cons_self)
    dsimp only at hcall ⊢
    rw [hcall] at hserved
    obtain ⟨hsid, -, a', hs', hmove⟩ := hserved
    cases hmove with
    | unknown hop => cases hop
    | ownRead _ hop => rcases hop with hop | ⟨_, hop⟩ <;> cases hop
    | update _ hop => cases hop
    | amend _ hop => cases hop
    | @commit q _ hsess hq hsess' hin hout =>
      refine ⟨fun key hkey => ?_, fun u hu hne => ?_⟩
      · rw [(hghost key hkey).1, (hghost key hkey).2]
        by_cases hk : key ∈ q.keys
        · exact .of_committed hs hs' hkey (howned.cell key) (howned.listed sid key ⟨q, hsess, hq,
            hk⟩) (hin key hk)
        · exact .of_same hs hs' hkey (hout key hk)
      · have hsame : a'.sess u = a.sess u :=
          (congrFun hsess' u).trans (Function.update_of_ne hne ..)
        refine ⟨Bool.eq_iff_iff.mpr ?_, fun k => ?_⟩
        · rw [hs'.alive hu, hs.alive hu, hsame]
        · rw [hs'.mem_entries hu, hs.mem_entries hu, State.keys, State.keys, hsame]

end Runs

/-- The session `u` writes `k` while `v` reads `j`, and commits. -/
theorem dcommit_commits_own_written : ∃ (h : History) (m : Moment) (w : World),
    CoRun {} sessionNaming (m :: h) w ∧
    m.label = .line 0 (.dcommit [0x75]) (.reply .ok) ∧ writers [0x6b] h = [[0x75]] ∧
    (w.server.live [0x6b]).map Item.data = some [0x61] ∧
    CommitsOwn [0x75] [[0x75]] (grantee [0x6b] h) m.pre.server m.post.server [0x6b] := by
  obtain ⟨h, m, w, hr, hrespects, hvalue, hlabel, hwriters⟩ :=
    (playable_co : Playable {} (CoRun {} sessionNaming) _).exists_run₁
      [.line 0 (.oqwrite [0x75] [0x6b] 0 0 1), .body 0 [0x61, 0x0d, 0x0a],
        .line 1 (.ciget [0x76] [0x6a] 0), .line 0 (.dcommit [0x75])]
      (P := fun h m w => (∀ m ∈ h, Moment.Respects m) ∧ (w.server.live [0x6b]).map Item.data =
        some [0x61] ∧
        m.label = .line 0 (.dcommit [0x75]) (.reply .ok) ∧ writers [0x6b] h = [[0x75]])
          (by decide +kernel)
  have hkey : sessionNaming.Key [0x6b] := ⟨List.mem_cons_of_mem _ List.mem_cons_self, by decide⟩
  have hcall : m.label.call = some ([0x75], .dcommit, .ok) := by
    rw [hlabel]
    rfl
  refine ⟨h, m, w, hr, hlabel, hwriters, hvalue, ?_⟩
  rw [← hwriters]
  exact (dcommit_commits_own (by decide) hr hrespects hcall).1 _ hkey

/-- The session `u` writes `k`, and `v` registers it.  The commit of `v` publishes what `u` has
written. -/
theorem dcommit_publishes_foreign : ∃ (h : History) (m : Moment) (w : World),
    CoRun {} sessionNaming (m :: h) w ∧
    m.label = .line 1 (.dcommit [0x76]) (.reply .ok) ∧ writers [0x6b] h = [[0x75]] ∧
    m.pre.server.alive [0x75] = true ∧ m.pre.server.live [0x6b] = none ∧
    (m.pre.server.version [0x6b]).map Item.data = some [0x61] ∧
    (m.post.server.live [0x6b]).map Item.data = some [0x61] ∧ m.post.server.version [0x6b] = none :=
  playable_co.exists_run₁
    [.line 0 (.oqwrite [0x75] [0x6b] 0 0 1), .body 0 [0x61, 0x0d, 0x0a],
      .line 1 (.oqreg [0x76] [0x6b]), .line 1 (.dcommit [0x76])] (by decide +kernel)

end Rejig
