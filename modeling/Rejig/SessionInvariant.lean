import Rejig.Session

/-!
# What holds of sessions

A session `Works` on a key if it is alive and has the key in its list.  Whoever holds a key works on
it (`Attended`), whatever the sessions do: a session is entered in its list and in the session lease
by the same operations, and when it ends or is aborted it is taken off the leases of the keys in its
list.

What a session has written is another matter.  `Step.works` and `Step.works_of_version` say when the
writer of a pending version goes on working on the key: always, unless it is aborted by a write to
another key.
-/

namespace Rejig.Session

open Option Function State Finset

variable {spared : Bytes → Bool} {key u : Bytes} {c : Cell} {op : Op}

/-! ## Holders -/

section Holders

variable {h h' : Hold} {sids : Finset Bytes}

theorem Hold.without_eq_some (hh : h.without sids = some h') :
    h' = ⟨h.kind, h.holders \ sids⟩ ∧ ¬ h.holders ⊆ sids := by
  rw [without] at hh
  split at hh
  · cases hh
  · next hsub =>
    cases hh
    exact ⟨rfl, hsub⟩

theorem Cell.hold_leave (hh : (c.leave sids).hold = some h') :
    ∃ h, c.hold = some h ∧ h' = ⟨h.kind, h.holders \ sids⟩ ∧ ¬ h.holders ⊆ sids := by
  obtain ⟨h, hc, hw⟩ := bind_eq_some_iff.mp hh
  exact ⟨h, hc, Hold.without_eq_some hw⟩

theorem Cell.hold_expel (hh : (c.expel sids).hold = some h') :
    ∃ h, c.hold = some h ∧ h' = ⟨h.kind, h.holders \ sids⟩ := by
  cases hc : c.hold with
  | none =>
    rw [expel_of_none hc, hc] at hh
    cases hh
  | some h =>
    refine ⟨h, rfl, ?_⟩
    by_cases hempty : sids = ∅
    · rw [hempty, expel_empty, hc] at hh
      cases hh
      rw [hempty, sdiff_empty]
    · rw [expel_of_some hempty hc] at hh
      exact (Hold.without_eq_some hh).1

@[simp] theorem Cell.version_expel : (c.expel sids).version = c.version := by
  rw [expel]
  split <;> rfl

end Holders

/-! ## Working on a key -/

/-- A session is alive, and has a key in its list. -/
def State.Works (a : State) (u k : Bytes) : Prop :=
  ∃ q, a.sess u = some q ∧ q.aborted = false ∧ k ∈ q.keys

namespace State.Works

variable {a : State} {k sid : Bytes}

theorem mem_keys (h : a.Works u k) : k ∈ a.keys u := by
  obtain ⟨q, hq, -, hk⟩ := h
  rwa [keys, hq, elim_some]

theorem not_marked (h : a.Works u k) : a.marked u = false := by
  obtain ⟨q, hq, halive, -⟩ := h
  rw [marked, hq, any_some, halive]

theorem congr {a' : State} (h : a.Works u k) (hsess : a'.sess u = a.sess u) : a'.Works u k := by
  obtain ⟨q, hq, hrest⟩ := h
  exact ⟨q, hsess.trans hq, hrest⟩

/-- The session that enters a key works on it. -/
theorem entered : (a.enter sid key).Works sid key :=
  ⟨_, update_self .., rfl, mem_insert_self ..⟩

theorem enter (h : a.Works u k) : (a.enter sid key).Works u k := by
  rcases eq_or_ne u sid with rfl | hne
  · exact ⟨_, update_self .., rfl, mem_insert_of_mem h.mem_keys⟩
  · exact h.congr (update_of_ne hne ..)

theorem drop (h : a.Works u k) (hne : u ≠ sid) : (a.drop sid).Works u k :=
  h.congr (update_of_ne hne ..)

theorem clean (h : a.Works u k) (hne : u ≠ sid) : (a.clean sid).Works u k :=
  h.congr (update_of_ne hne ..)

theorem vacate (h : a.Works u k) (hu : u ∉ a.victims spared key) :
    (a.vacate spared key).Works u k := h.congr (sess_vacate_of_notMem hu)

/-- A session that is not marked works on the keys of its list. -/
theorem of_mem (hmarked : a.marked u = false) (hk : k ∈ a.keys u) : a.Works u k := by
  rw [keys] at hk
  rw [marked] at hmarked
  cases hq : a.sess u with
  | none =>
    rw [hq] at hk
    cases hk
  | some q =>
    rw [hq] at hk hmarked
    exact ⟨q, hq, hmarked, hk⟩

theorem of_drop (h : (a.drop sid).Works u k) : a.Works u k ∧ u ≠ sid := by
  have hne : u ≠ sid := by
    rintro rfl
    obtain ⟨q, hq, -⟩ := h
    have hsess : (a.drop u).sess u = none := update_self ..
    rw [hsess] at hq
    cases hq
  exact ⟨h.congr (update_of_ne hne ..).symm, hne⟩

theorem of_vacate (h : (a.vacate spared key).Works u k) :
    a.Works u k ∧ u ∉ a.victims spared key := by
  have hnot : u ∉ a.victims spared key := by
    intro hmem
    obtain ⟨q, hq, halive, -⟩ := h
    have hsess : (a.vacate spared key).sess u = (a.sess u).map fun q =>
      { q with aborted := true } := if_pos hmem
    obtain ⟨q', -, rfl⟩ := map_eq_some_iff.mp (hsess.symm.trans hq)
    cases halive
  exact ⟨h.congr (sess_vacate_of_notMem hnot).symm, hnot⟩

end State.Works

/-- Whoever holds a key works on it. -/
def State.Attended (a : State) : Prop := ∀ k h, (a.cell k).hold = some h →
      ∀ u ∈ h.holders, a.Works u k

namespace State.Attended

variable {a : State} {sid : Bytes}

section

variable (h : a.Attended)

include h

theorem setCell (hc : ∀ hold, c.hold = some hold → ∀ u ∈ hold.holders, a.Works u key) :
    (a.setCell key c).Attended := by
  intro k hold hhold u hu
  rcases eq_or_ne k key with rfl | hne
  · rw [cell_setCell_self] at hhold
    exact hc hold hhold u hu
  · rw [cell_setCell_of_ne hne] at hhold
    exact h k hold hhold u hu

theorem enter : (a.enter sid key).Attended := fun k hold hhold u hu => (h k hold hhold u hu).enter

theorem drop (hmarked : a.marked sid = true) : (a.drop sid).Attended := by
  intro k hold hhold u hu
  have hworks := h k hold hhold u hu
  refine hworks.drop ?_
  rintro rfl
  rw [hworks.not_marked] at hmarked
  cases hmarked

/-- A session that is taken off the keys in its list is taken off all keys. -/
theorem clean : (a.clean sid).Attended := by
  intro k hold hhold u hu
  simp only [State.clean] at hhold
  split at hhold
  · obtain ⟨hold', hhold', rfl, -⟩ := Cell.hold_leave hhold
    rw [mem_sdiff, mem_singleton] at hu
    exact (h k hold' hhold' u hu.1).clean hu.2
  · next hk =>
    have hworks := h k hold hhold u hu
    refine hworks.clean ?_
    rintro rfl
    exact hk hworks.mem_keys

theorem vacate : (a.vacate spared key).Attended := by
  intro k hold hhold u hu
  rcases eq_or_ne k key with rfl | hne
  · rw [cell_vacate] at hhold
    cases hhold
  · rw [cell_vacate_of_ne hne] at hhold
    obtain ⟨hold', hhold', rfl⟩ := Cell.hold_expel hhold
    rw [mem_sdiff] at hu
    have hworks := h k hold' hhold' u hu.1
    exact hworks.vacate fun hvictim => hu.2 (mem_filter.mpr ⟨hvictim, hworks.mem_keys⟩)

end

/-- The end of an operation that leaves one session as the only holder of a key. -/
theorem occupy {kind : Kind} (h : (a.enter sid key).Attended) (hc : c.hold = some ⟨kind, {sid}⟩) :
    ((a.enter sid key).setCell key c).Attended := by
  refine h.setCell fun hold hhold u hu => ?_
  rw [hc] at hhold
  cases hhold
  rw [mem_singleton.mp hu]
  exact .entered

end State.Attended

section Steps

variable {a a' : State} {sid : Bytes} {r : CoResult}

/-- Whoever holds a key works on it, after any step. -/
theorem Step.attended (hstep : Step spared a sid op r a') (h : a.Attended) : a'.Attended := by
  have hsame : ∀ {key : Bytes} {hold : Option Hold} {c : Cell}, (a.cell key).hold = hold →
    c.hold = hold →
      ∀ hold, c.hold = some hold → ∀ u ∈ hold.holders, a.Works u key := by
    intro key hold c hold₁ hold₂ hold' hc
    exact h key hold' (hold₁.trans (hold₂.symm.trans hc))
  cases hstep with
  | forget hmarked => exact h.drop hmarked
  | unknown => exact h
  | foreign => exact h.clean
  | ownRead => exact h
  | leased => exact h
  | quarantined => exact h
  | @share key _ c' _ hhold _ hc =>
    refine h.enter.setCell fun hold hhold' u hu => ?_
    rw [hc] at hhold'
    cases hhold'
    rcases mem_insert.mp hu with rfl | hu
    · exact .entered
    · cases hcell : (a.cell key).hold with
      | none =>
        rw [hcell] at hu
        cases hu
      | some hold =>
        rw [hcell] at hu
        exact (h key hold hcell u hu).enter
  | occupied => exact h.vacate.setCell nofun
  | grant _ _ _ hc => exact h.vacate.enter.occupy hc
  | unheld => exact h
  | robbed => exact h.setCell nofun
  | emptied => exact h.setCell (hsame rfl rfl)
  | swap => exact h.setCell (hsame rfl rfl)
  | write => exact h.vacate.enter.occupy rfl
  | blocked => exact h
  | rewrite => exact h.enter.setCell fun hold hhold u hu => (hsame rfl rfl hold hhold u hu).enter
  | update _ _ _ hc => exact h.vacate.enter.occupy hc.hold
  | amend _ _ _ _ _ hc =>
    exact h.enter.setCell fun hold hhold u hu => (hsame rfl hc.hold hold hhold u hu).enter
  | register => exact h.vacate.enter.occupy rfl
  | reregister => exact h.enter.setCell fun hold hhold u hu => (hsame rfl rfl hold hhold u hu).enter
  | valid => exact h
  | outdated => exact h.clean
  | @commit q a' hsess _ hs hin hout =>
    intro k hold hhold u hu
    have hworks : a.Works u k ∧ u ≠ sid := by
      by_cases hk : k ∈ q.keys
      · rw [(hin k hk).hold] at hhold
        obtain ⟨hold', hhold', rfl, -⟩ := Cell.hold_leave hhold
        rw [mem_sdiff, mem_singleton] at hu
        exact ⟨h k hold' hhold' u hu.1, hu.2⟩
      · rw [hout k hk] at hhold
        refine ⟨h k hold hhold u hu, ?_⟩
        rintro rfl
        obtain ⟨q', hq', -, hk'⟩ := h k hold hhold u hu
        rw [hsess] at hq'
        cases hq'
        exact hk hk'
    exact (hworks.1.drop hworks.2).congr (congrFun hs u)
  | unlease => exact h.clean

end Steps

/-! ## Writers -/

/-- Whether an operation with a result ends its session in good order. -/
def Op.ends : Op → CoResult → Bool
  | dcommit, .ok | coUnlease, .ok => true
  | _, _ => false

/-- The key that an operation claims for its session alone. -/
def Op.claims : Op → Option Bytes
  | oqread key | oqDelta _ key _ | oqConcat _ key _ | oqreg key => some key
  | oqwrite it => some it.key
  | _ => none

theorem Op.claims_of_updates (hop : op.updates = some key) : op.claims = some key := by
  cases op <;> first | exact hop | cases hop

theorem State.mem_victims {a : State} (h : u ∈ a.victims spared key) :
    ∃ hold, (a.cell key).hold = some hold ∧ u ∈ hold.holders ∧ spared u = false := by
  rw [victims] at h
  cases hhold : (a.cell key).hold with
  | none =>
    rw [hhold] at h
    cases h
  | some hold =>
    rw [hhold, elim_some, mem_filter] at h
    refine ⟨hold, rfl, h.1, ?_⟩
    have hspared := (Bool.and_eq_true _ _ ▸ h.2 :).1
    simpa using hspared

/-- The sessions that an operation aborts. -/
def Aborted (spared : Bytes → Bool) (a : State) (op : Op) (u : Bytes) : Prop :=
  ∃ key, op.claims = some key ∧ (∀ h, (a.cell key).hold = some h → h.kind = .shared) ∧
    u ∈ a.victims spared key

/-- Who wrote to a pending version, after an operation of a session: an incremental update adds its
bytes to those that are there, any other write replaces them. -/
def wrote (sid key : Bytes) (op : Op) (version version' : Option Item) (before : List Bytes) :
    List Bytes :=
  if version' = version then before
  else if version' = none then []
  else if op.updates = some key ∧ version ≠ none then sid :: before
  else [sid]

theorem mem_wrote {sid : Bytes} {version version' : Option Item} {before : List Bytes}
    (h : u ∈ wrote sid key op version version' before) :
    (u ∈ before ∧ (version ≠ none → version' ≠ none)) ∨
    (u = sid ∧ version' ≠ none ∧ version' ≠ version) := by
  rw [wrote] at h
  split at h
  · next heq => exact .inl ⟨h, fun hversion => heq ▸ hversion⟩
  · next hne =>
    split at h
    · cases h
    · next hversion =>
      split at h
      · rcases List.mem_cons.mp h with rfl | h
        · exact .inr ⟨rfl, hversion, hne⟩
        · exact .inl ⟨h, fun _ => hversion⟩
      · exact .inr ⟨List.mem_singleton.mp h, hversion, hne⟩

section Steps

variable {a a' : State} {sid k : Bytes} {r : CoResult}

/-- A session goes on working on a key whose pending version stays, unless the step aborts it or
ends it in good order. -/
theorem Step.works (hstep : Step spared a sid op r a') (h : a.Works u k)
    (hversion : (a'.cell k).version ≠ none) (hvictim : ¬ Aborted spared a op u)
    (hend : op.ends r = true → u ≠ sid) : a'.Works u k := by
  -- a session that gives up takes the pending versions of its keys along
  have hclean : ((a.clean sid).cell k).version ≠ none → (a.clean sid).Works u k := by
    intro hversion
    refine h.clean ?_
    rintro rfl
    simp only [State.clean, if_pos h.mem_keys] at hversion
    exact hversion rfl
  have hnot : ∀ {key : Bytes}, op.claims = some key →
    (∀ h, (a.cell key).hold = some h → h.kind = .shared) →
      u ∉ a.victims spared key := fun hop hhold hmem => hvictim ⟨_, hop, hhold, hmem⟩
  cases hstep with
  | forget hmarked =>
    refine h.drop ?_
    rintro rfl
    rw [h.not_marked] at hmarked
    cases hmarked
  | unknown => exact h
  | foreign => exact hclean hversion
  | ownRead => exact h
  | leased => exact h
  | quarantined => exact h
  | share => exact h.enter
  | occupied _ hhold => exact h.vacate (hnot rfl hhold)
  | grant _ hhold => exact (h.vacate (hnot rfl hhold)).enter
  | unheld => exact h
  | robbed => exact h
  | emptied => exact h
  | swap => exact h
  | write _ hhold => exact (h.vacate (hnot rfl hhold)).enter
  | blocked => exact h
  | rewrite => exact h.enter
  | update _ hop hhold => exact (h.vacate (hnot (op.claims_of_updates hop) hhold)).enter
  | amend => exact h.enter
  | register _ hhold => exact (h.vacate (hnot rfl hhold)).enter
  | reregister => exact h.enter
  | valid => exact h
  | outdated => exact hclean hversion
  | commit _ _ hs => exact (h.drop (hend rfl)).congr (congrFun hs u)
  | unlease => exact hclean hversion

/-- The session that changes a pending version works on the key. -/
theorem Step.works_of_version (hstep : Step spared a sid op r a') (h : a.Attended)
    (hversion : (a'.cell k).version ≠ none) (hchanged : (a'.cell k).version ≠ (a.cell k).version) :
    a'.Works sid k := by
  have hclean : ((a.clean sid).cell k).version ≠ none →
    ((a.clean sid).cell k).version ≠ (a.cell k).version → False := by
    intro hversion hchanged
    simp only [State.clean] at hversion hchanged
    split at hversion
    · exact hversion rfl
    · next hk => exact hchanged (by rw [if_neg hk])
  -- only the records of one key change
  have hcell : ∀ {b : State} {key : Bytes} {c : Cell}, (b.cell k).version = (a.cell k).version →
      ((b.setCell key c).cell k).version ≠ (a.cell k).version → k = key := by
    intro b key c hb hne
    by_contra hk
    rw [cell_setCell_of_ne hk] at hne
    exact hne hb
  have hvacate : ∀ {key : Bytes}, ((a.vacate spared key).cell k).version = (a.cell k).version := by
    intro key
    rcases eq_or_ne k key with rfl | hne
    · rw [cell_vacate]
    · rw [cell_vacate_of_ne hne, Cell.version_expel]
  cases hstep with
  | forget => exact absurd rfl hchanged
  | unknown => exact absurd rfl hchanged
  | foreign => exact (hclean hversion hchanged).elim
  | ownRead => exact absurd rfl hchanged
  | leased => exact absurd rfl hchanged
  | quarantined => exact absurd rfl hchanged
  | share =>
    obtain rfl := hcell rfl hchanged
    exact .entered
  | occupied =>
    obtain rfl := hcell hvacate hchanged
    rw [cell_setCell_self] at hchanged
    exact absurd rfl hchanged
  | grant =>
    obtain rfl := hcell hvacate hchanged
    exact .entered
  | unheld => exact absurd rfl hchanged
  | robbed =>
    obtain rfl := hcell rfl hchanged
    rw [cell_setCell_self] at hchanged
    exact absurd rfl hchanged
  | emptied =>
    obtain rfl := hcell rfl hchanged
    rw [cell_setCell_self] at hchanged
    exact absurd rfl hchanged
  | swap _ hhold _ hsid =>
    obtain rfl := hcell rfl hchanged
    exact h _ _ hhold _ hsid
  | write =>
    obtain rfl := hcell hvacate hchanged
    exact .entered
  | blocked => exact absurd rfl hchanged
  | rewrite =>
    obtain rfl := hcell rfl hchanged
    exact .entered
  | update =>
    obtain rfl := hcell hvacate hchanged
    exact .entered
  | amend =>
    obtain rfl := hcell rfl hchanged
    exact .entered
  | register =>
    obtain rfl := hcell hvacate hchanged
    exact .entered
  | reregister =>
    obtain rfl := hcell rfl hchanged
    exact .entered
  | valid => exact absurd rfl hchanged
  | outdated => exact (hclean hversion hchanged).elim
  | @commit q a' _ _ _ hin hout =>
    exfalso
    by_cases hk : k ∈ q.keys
    · cases hhold : (a.cell k).hold with
      | none => exact hchanged ((hin k hk).free hhold).1
      | some hold =>
        have hcommits := (hin k hk).held hold hhold
        cases hkind : hold.kind <;> rw [hkind] at hcommits
        · exact hchanged hcommits.1
        · exact hversion hcommits.1
        · exact hchanged hcommits.1
    · rw [hout k hk] at hchanged
      exact hchanged rfl
  | unlease => exact (hclean hversion hchanged).elim

/-- Whoever is accountable for the bytes of a pending version works on its key. -/
def State.Accounted (a : State) (writers : Bytes → List Bytes) : Prop :=
  ∀ k, ∀ u ∈ writers k, (a.cell k).version ≠ none ∧ a.Works u k

/-- Writers stay accountable if no step aborts one. -/
theorem Step.accounted {writers : Bytes → List Bytes} (hstep : Step spared a sid op r a')
    (h : a.Attended) (hacc : a.Accounted writers)
    (hspares : ∀ u, Aborted spared a op u → ∀ k ∈ a.keys u, (a.cell k).version = none) :
    a'.Accounted fun k => (wrote sid k op (a.cell k).version (a'.cell k).version
        (writers k)).filter fun u =>
      !(op.ends r && u = sid) := by
  intro k u hu
  obtain ⟨hu, hend⟩ := List.mem_filter.mp hu
  rcases mem_wrote hu with ⟨hmem, hafter⟩ | ⟨rfl, hversion, hchanged⟩
  · obtain ⟨hbefore, hworks⟩ := hacc k u hmem
    refine ⟨hafter hbefore, ?_⟩
    refine hstep.works hworks (hafter hbefore) (fun hvictim =>
      hbefore (hspares u hvictim k hworks.mem_keys)) fun hends => ?_
    simpa [hends] using hend
  · exact ⟨hversion, hstep.works_of_version h hversion hchanged⟩

end Steps

end Rejig.Session
