import Rejig.SessionRefusal
import Rejig.SessionValidation

/-!
# Sessions exclude each other

The operations of `Rejig.Session` are the steps of a machine, to which the loss of keys adds one
more.  The server runs in step with it: every event of a run is a step of the machine, and the
records of sessions show its state.  What is true in every state of the machine is then true of the
server: a key that a session may write is held by this session alone, and whoever holds a key is
alive and has the key in its list.
-/

namespace Rejig

open Session Option Finset

namespace Session

/-- Keys are lost, or the operation of a session is executed; a session does not abort itself. -/
inductive Move (a : State) : Option (Bytes × Op × CoResult) → State → Prop
  | lose {a' : State} : a.Sheds a' → Move a none a'
  | call {a' : State} {spared : Bytes → Bool} {sid : Bytes} {op : Op} {r : CoResult} :
      spared sid = true →
      Step spared a sid op r a' → Move a (some (sid, op, r)) a'

/-- The machine of sessions. -/
def machine : System State (Option (Bytes × Op × CoResult)) where
  Init a := a = .empty
  Step := Move

/-- A session lease that lets its holder write names one session. -/
def Hold.Sole (h : Hold) : Prop := h.kind ≠ .shared → ∃ u, h.holders ⊆ {u}

theorem Hold.Sole.sdiff {h : Hold} (hsole : h.Sole) (t : Finset Bytes) :
    Sole { h with holders := h.holders \ t } :=
  fun hkind => (hsole hkind).imp fun _ => sdiff_subset.trans

/-- All session leases are of this kind. -/
def State.Sole (a : State) : Prop := ∀ k h, (a.cell k).hold = some h → h.Sole

section Machine

variable {a a' : State} {c : Cell} {sid key : Bytes} {spared : Bytes → Bool} {op : Op}
  {r : CoResult} {call : Option (Bytes × Op × CoResult)}

namespace State.Sole

section

variable (h : a.Sole)

include h

theorem setCell (hc : ∀ hold, c.hold = some hold → hold.Sole) : (a.setCell key c).Sole := by
  intro k hold hhold
  rcases eq_or_ne k key with rfl | hne
  · rw [cell_setCell_self] at hhold
    exact hc hold hhold
  · rw [cell_setCell_of_ne hne] at hhold
    exact h k hold hhold

/-- The session lease of the key stays as it was. -/
theorem setCell_of_eq (hc : c.hold = (a.cell key).hold) : (a.setCell key c).Sole :=
  h.setCell fun hold hhold => h key hold (hc.symm.trans hhold)

/-- The key is held by one session. -/
theorem occupy {kind : Kind} (hc : c.hold = some ⟨kind, {sid}⟩) : (a.setCell key c).Sole := by
  refine h.setCell fun hold hhold _ => ⟨sid, ?_⟩
  rw [hc] at hhold
  cases hhold
  exact Subset.refl _

theorem clean : (a.clean sid).Sole := by
  intro k hold hhold
  simp only [State.clean] at hhold
  split at hhold
  · obtain ⟨hold', hhold', rfl, -⟩ := Cell.hold_leave hhold
    exact (h k hold' hhold').sdiff _
  · exact h k hold hhold

theorem vacate : (a.vacate spared key).Sole := by
  intro k hold hhold
  rcases eq_or_ne k key with rfl | hne
  · rw [cell_vacate] at hhold
    cases hhold
  · rw [cell_vacate_of_ne hne] at hhold
    obtain ⟨hold', hhold', rfl⟩ := Cell.hold_expel hhold
    exact (h k hold' hhold').sdiff _

end

end State.Sole

theorem Step.sole (hstep : Step spared a sid op r a') (h : a.Sole) : a'.Sole := by
  cases hstep with
  | forget | unknown | ownRead | leased | quarantined | unheld | blocked | valid => exact h
  | foreign | outdated | unlease => exact h.clean
  | share _ _ _ hc =>
    refine h.setCell fun hold hhold hkind => ?_
    rw [hc] at hhold
    cases hhold
    exact absurd rfl hkind
  | occupied => exact h.vacate.setCell (by simp)
  | robbed => exact h.setCell (by simp)
  | grant _ _ _ hc => exact State.Sole.occupy h.vacate hc
  | write | register => exact State.Sole.occupy h.vacate rfl
  | update _ _ _ hc => exact State.Sole.occupy h.vacate hc.hold
  | emptied | swap | rewrite | reregister => exact State.Sole.setCell_of_eq h rfl
  | amend _ _ _ _ _ hc => exact State.Sole.setCell_of_eq h hc.hold
  | @commit q a' _ _ _ hin hout =>
    intro k hold hhold
    by_cases hk : k ∈ q.keys
    · rw [(hin k hk).hold] at hhold
      obtain ⟨hold', hhold', rfl, -⟩ := Cell.hold_leave hhold
      exact (h k hold' hhold').sdiff _
    · rw [hout k hk] at hhold
      exact h k hold hhold

theorem Move.attended (hmove : Move a call a') (h : a.Attended) : a'.Attended := by
  cases hmove with
  | lose hsheds => exact h.sheds hsheds
  | call _ hstep => exact hstep.attended h

theorem Move.sole (hmove : Move a call a') (h : a.Sole) : a'.Sole := by
  cases hmove with
  | lose hsheds =>
    intro k hold hhold
    rcases hsheds.hold k with hsame | hnone
    · exact h k hold (hsame.symm.trans hhold)
    · rw [hnone] at hhold
      cases hhold
  | call _ hstep => exact hstep.sole h

/-- In every state of the machine, whoever holds a key works on it, and a key that may be written
has one holder. -/
theorem attended_sole_of_reachable (h : machine.Reachable a) : a.Attended ∧ a.Sole := by
  obtain ⟨hist, hr⟩ := h
  refine hr.invariant (I := fun _ a => a.Attended ∧ a.Sole) ?_ ?_
  · rintro _ rfl
    exact ⟨by rintro _ _ ⟨⟩, by rintro _ _ ⟨⟩⟩
  · rintro _ _ _ _ - ⟨hatt, hsole⟩ hmove
    exact ⟨Move.attended hmove hatt, Move.sole hmove hsole⟩

end Machine

end Session

/-! ## The server and the machine -/

section Runs

variable {c : Settings} {N : Naming} {h : History} {w : World}

/-- The server, as far as it serves sessions whose records do not expire, and deletes keys. -/
def sessionService (c : Settings) (N : Naming) : System World Event :=
  (service c).restrict fun m => Moment.CoDelete N m ∧ Moment.Outlasted N m

/-- The server runs in step with the machine of sessions. -/
theorem simulation_machine (hc : c.Relative) :
    System.Simulation (sessionService c N) machine (fun e => some e.call) (fun w a =>
        Serving c N w.server a) := by
  refine .of_answers ?_ fun w e w' a hw hstep hs => ?_
  · rintro w rfl
    exact ⟨_, rfl, serving_start hc⟩
  · obtain ⟨hist, hr⟩ := hw
    obtain ⟨hstep, hco, hlast⟩ := hstep
    have hshed := hs.step_shed hc (System.run_restrict_iff.mp hr).1 hstep hco hlast
    show ∃ a', Serving c N w'.server a' ∧ Move a e.call a'
    cases hcall : e.call with
    | none =>
      rw [hcall] at hshed
      obtain ⟨a', hs', hsheds⟩ := hshed
      exact ⟨a', hs', .lose hsheds⟩
    | some call =>
      rw [hcall] at hshed
      obtain ⟨-, -, a', hs', hstep'⟩ := hshed
      exact ⟨a', hs', .call (Server.spared_self ..) hstep'⟩

theorem playable_sessionService {keys : List Bytes} {hk : ∀ n ∈ keys, Unprefixed n} :
    Playable c (sessionService c (.ofLists keys [] hk nofun nofun)).Run
      fun m => m.label.coNamed keys || m.label.deletes keys := fun _ _ _ hplay hnamed =>
  System.run_restrict_iff.mpr ⟨run_of_play (.init rfl) hplay, fun m hm =>
    Moment.coDelete_of_test (List.all_eq_true.mp hnamed m hm)⟩

/-- The session `v` reads `k`, and is aborted when `u` registers it. -/
theorem exists_run_registered : ∃ h w, (sessionService {} sessionNaming).Run h w ∧ h.length = 2 ∧
    w.server.exclusive [0x6b] = true ∧ [0x75] ∈ w.server.holders [0x6b] ∧
    w.server.alive [0x76] = false :=
  (playable_sessionService : Playable {} (sessionService {} sessionNaming).Run _).exists_run
    [.line 0 (.ciget [0x76] [0x6b] 0), .line 1 (.oqreg [0x75] [0x6b])] (by decide +kernel)

/-- In every run of sessions, a key that may be written is held by exactly one session, and whoever
holds a key is alive and has it in its list. -/
theorem holders_exclusive (hc : c.Relative) (hr : (sessionService c N).Run h w) (key : Bytes)
    (hkey : N.Key key) :
    (w.server.exclusive key = true → ∃ sid, ∀ u, u ∈ w.server.holders key ↔ u = sid) ∧
      ∀ sid ∈ w.server.holders key, w.server.alive sid = true ∧ key ∈ w.server.entries sid := by
  obtain ⟨moves, a, hmoves, hs, -⟩ := (simulation_machine hc).run hr
  obtain ⟨hatt, hsole⟩ := attended_sole_of_reachable ⟨moves, hmoves⟩
  refine ⟨fun hexclusive => ?_, fun sid hsid => ?_⟩
  · have hsome : (w.server.live (coLeaseKey key)).isSome = true := by
      obtain ⟨it, hit, -⟩ := (any_eq_true _ _).mp hexclusive
      exact isSome_of_eq_some hit
    obtain ⟨hold, hhold, hkind⟩ := hs.exists_hold hkey hsome
    obtain ⟨sid, hsid⟩ := hsole key hold hhold (hkind hexclusive)
    obtain hholders : hold.holders = {sid} :=
      (hs.formed.nonempty key hkey hold hhold).subset_singleton_iff.mp hsid
    refine ⟨sid, fun u => (hs.mem_holders hkey).trans ⟨?_, ?_⟩⟩
    · rintro ⟨hold', hhold', hu⟩
      rw [hhold] at hhold'
      cases hhold'
      exact mem_singleton.mp (hsid hu)
    · rintro rfl
      exact ⟨hold, hhold, hholders ▸ mem_singleton_self u⟩
  · obtain ⟨hold, hhold, hmem⟩ := (hs.mem_holders hkey).mp hsid
    have hN := hs.sid_of_mem hkey hhold hmem
    obtain ⟨q, hq, halive, hk⟩ := hatt key hold hhold sid hmem
    exact ⟨(hs.alive hN).mpr ⟨q, hq, halive⟩,
      (hs.mem_entries hN).mpr (hatt key hold hhold sid hmem).mem_keys⟩

/-- After the run above, `u` is the only holder of `k`. -/
theorem holders_exclusive_registered : ∃ h w sid, (sessionService {} sessionNaming).Run h w ∧
    w.server.exclusive [0x6b] = true ∧ (∀ u, u ∈ w.server.holders [0x6b] ↔ u = sid) ∧
    w.server.alive sid = true := by
  obtain ⟨h, w, hr, -, hexclusive, hmem, -⟩ := exists_run_registered
  obtain ⟨hsole, halive⟩ := holders_exclusive (by decide) hr [0x6b]
    ⟨List.mem_cons_of_mem _ List.mem_cons_self, by decide⟩
  obtain ⟨sid, hsid⟩ := hsole hexclusive
  exact ⟨h, w, sid, hr, hexclusive, hsid, (halive sid ((hsid sid).mpr rfl)).1⟩

end Runs

end Rejig
