import Rejig.SessionInvariant
import Rejig.SessionRecords

/-!
# What aborted sessions leave behind

A session is aborted when it is refused and gives up, which takes its pending versions along, or
when a write of another session marks it.  The second way, `abort_sessions`, drops the leases of the
session and forgets its pending versions.

`unsettled key h` is who is accountable for the bytes of the pending version of a key after the
history `h`: the sessions that wrote to it and have not ended by `dcommit` or `counlease` since.
-/

namespace Rejig

open Prog Session List

variable {key sid : Bytes} {op : Op} {m : Moment}

namespace Moment

/-- Who is accountable for the bytes of the pending version of a key, after a step. -/
def unsettled (key : Bytes) (m : Moment) (before : List Bytes) : List Bytes :=
  match m.label.call with
  | none => before
  | some (sid, op, r) =>
    (wrote sid key op (m.pre.server.version key) (m.post.server.version key) before).filter fun u =>
      !(op.ends r && u = sid)

/-- The step aborts a session: it is alive before, and afterwards it is marked, or gone without
having ended in good order. -/
def Aborts (m : Moment) (sid : Bytes) : Prop :=
  m.pre.server.alive sid = true ∧ m.post.server.alive sid = false ∧
    ∀ call ∈ m.label.call, call.1 = sid → call.2.1.ends call.2.2 = false

/-- No session that shares the key of a write has a pending version on a key of its list, other than
the one that writes. -/
def SparesWriters (m : Moment) : Prop :=
  ∀ call ∈ m.label.call, ∀ key ∈ call.2.1.claims, ∀ u ∈ m.pre.server.readers key, u ≠ call.1 →
    ∀ k ∈ m.pre.server.entries u, m.pre.server.version k = none

instance instDecidableAborts (m : Moment) (sid : Bytes) : Decidable (m.Aborts sid) :=
  inferInstanceAs (Decidable (_ ∧ _ ∧ _))

instance instDecidableSparesWriters (m : Moment) : Decidable m.SparesWriters :=
  inferInstanceAs (Decidable
    (∀ call ∈ m.label.call, ∀ key ∈ call.2.1.claims, ∀ u ∈ m.pre.server.readers key, u ≠ call.1 →
    ∀ k ∈ m.pre.server.entries u, m.pre.server.version k = none))

end Moment

/-- Who is accountable for the bytes of the pending version of a key, after a history. -/
def unsettled (key : Bytes) : History → List Bytes
  | [] => []
  | m :: h => m.unsettled key (unsettled key h)

theorem Session.Op.key_of_claims (h : op.claims = some key) : op.key = key := by
  cases op <;> cases h <;> rfl

theorem Session.Op.Named.claims {N : Naming} (hop : op.Named N) (h : op.claims = some key) :
    N.Key key := by
  cases op <;> cases h <;> exact hop

/-! ## Runs -/

section Runs

variable {c : Settings} {N : Naming} {h : History} {w : World}

/-- What a step does to the accountable sessions, read off the sessions before and after it. -/
theorem unsettled_cons {a a' : State} {writers : Bytes → List Bytes} {r : CoResult}
    (hcall : m.label.call = some (sid, op, r)) (hs : Serving c N m.pre.server a)
    (hs' : Serving c N m.post.server a') (hw : ∀ k, N.Key k → unsettled k h = writers k) {k : Bytes}
    (hk : N.Key k) :
    unsettled k (m :: h) = (wrote sid k op (a.cell k).version (a'.cell k).version
        (writers k)).filter fun u =>
      !(op.ends r && u = sid) := by
  rw [unsettled, Moment.unsettled, hcall, hs.version hk, hs'.version hk, hw k hk]

/-- In runs that abort no writer, whoever is accountable for a pending version works on its key. -/
theorem CoRun.accounted (hc : c.Relative) (hr : CoRun c N h w)
    (hspares : ∀ m ∈ h, Moment.SparesWriters m) :
    ∃ a writers, Serving c N w.server a ∧ a.Attended ∧ State.Accounted a writers ∧
      ∀ k, N.Key k → unsettled k h = writers k := by
  obtain ⟨hrun, hco⟩ := hr
  induction hrun with
  | init hinit =>
    cases hinit
    exact ⟨.empty, fun _ => [], serving_start hc, nofun, nofun, fun _ _ => rfl⟩
  | @step h w w' e hrun hstep ih =>
    obtain ⟨a, writers, hs, hatt, hacc, hw⟩ :=
      ih (fun m hm => hspares m (mem_cons_of_mem _ hm)) fun m hm => hco m (mem_cons_of_mem _ hm)
    have hserved := hs.step hc hrun hstep (hco _ mem_cons_self)
    have hspare := hspares _ mem_cons_self
    cases hcall : e.call with
    | none =>
      rw [hcall] at hserved
      obtain ⟨_, hs', rfl⟩ := hserved
      refine ⟨a, writers, hs', hatt, hacc, fun k hk => ?_⟩
      rw [unsettled, Moment.unsettled, hcall]
      exact hw k hk
    | some call =>
      obtain ⟨sid, op, r⟩ := call
      rw [hcall] at hserved
      obtain ⟨hsid, hop, a', hs', hmove⟩ := hserved
      refine ⟨a', _, hs', hmove.attended hatt, hmove.accounted hatt hacc ?_,
        fun k hk => unsettled_cons hcall hs hs' hw hk⟩
      rintro u ⟨key, hclaims, hhold, hmem⟩ k hk
      have hkey := hop.claims hclaims
      obtain ⟨hold, hheld, hu, hother⟩ := State.mem_victims hmem
      have husid := hs.sid_of_mem hkey hheld hu
      have hspared : u ≠ sid := by
        rintro rfl
        rw [Op.key_of_claims hclaims, Server.spared, decide_eq_true rfl, Bool.true_or] at hother
        cases hother
      rw [← hs.version (hs.key_of_mem husid hk)]
      refine hspare (sid, op, r) hcall key hclaims u ?_ hspared k ((hs.mem_entries husid).mpr hk)
      exact (hs.mem_readers hkey).mpr ⟨hold, hheld, hhold hold hheld, hu⟩

/-- Who is accountable for a pending version is alive. -/
theorem CoRun.alive_of_mem_unsettled (hc : c.Relative) (hr : CoRun c N h w)
    (hspares : ∀ m ∈ h, Moment.SparesWriters m) (hkey : N.Key key) (hsid : N.Sid sid)
    (hmem : sid ∈ unsettled key h) :
    w.server.alive sid = true := by
  obtain ⟨a, writers, hs, -, hacc, hw⟩ := hr.accounted hc hspares
  rw [hw key hkey] at hmem
  obtain ⟨-, q, hq, halive, -⟩ := hacc key sid hmem
  exact (hs.alive hsid).mpr ⟨q, hq, halive⟩

/-- A session that has been aborted is accountable for no pending version, until it is alive again:
what it wrote is gone, and with it what others might read, extend or publish. -/
theorem aborted_leaves_nothing {key sid : Bytes} {newer older : History} {m : Moment}
    (hc : c.Relative) (hr : CoRun c N h w) (hspares : ∀ m ∈ h, Moment.SparesWriters m)
    (hh : h = newer ++ m :: older) (haborts : m.Aborts sid)
    (hsince : ∀ m' ∈ newer, m'.post.server.alive sid = false) (hkey : N.Key key)
    (hsid : N.Sid sid) :
    sid ∉ unsettled key h := by
  intro hmem
  have halive := hr.alive_of_mem_unsettled hc hspares hkey hsid hmem
  have hpost : ∀ m' ∈ h.head?, m'.post = w := by
    intro m' hm'
    cases hr.run with
    | init => cases hm'
    | step => cases hm'; rfl
  cases newer with
  | nil =>
    subst hh
    rw [← hpost m rfl, haborts.2.1] at halive
    cases halive
  | cons m' newer =>
    subst hh
    rw [← hpost m' rfl, hsince m' mem_cons_self] at halive
    cases halive

end Runs

/-- The naming of the keys `j` and `k`. -/
def sessionNaming : Naming := .ofLists [[0x6a], [0x6b]] [] (by decide) nofun nofun

/-- The session `v` writes `k`, and gives up because another session writes `j`: what it wrote is
gone. -/
theorem aborted_leaves_nothing_refused : ∃ (older : History) (m : Moment) (w : World),
    CoRun {} sessionNaming (m :: older) w ∧ unsettled [0x6b] older = [[0x76]] ∧ m.Aborts [0x76] ∧
    [0x76] ∉ unsettled [0x6b] (m :: older) := by
  obtain ⟨older, m, w, hr, hspares, hbefore, haborts⟩ :=
    (playable_co : Playable {} (CoRun {} sessionNaming) _).exists_run₁
      [.line 0 (.oqwrite [0x76] [0x6b] 0 0 1), .body 0 [0x61, 0x0d, 0x0a],
        .line 1 (.oqwrite [0x77] [0x6a] 0 0 1), .body 1 [0x62, 0x0d, 0x0a],
        .line 0 (.oqread [0x76] [0x6a])]
      (P := fun older m _ => (∀ m' ∈ m :: older, Moment.SparesWriters m') ∧
        unsettled [0x6b] older = [[0x76]] ∧
        Moment.Aborts m [0x76]) (by decide +kernel)
  have hsplit : m :: older = [] ++ m :: older := rfl
  have hsince : ∀ m' ∈ ([] : History), m'.post.server.alive [0x76] = false := fun _ h =>
    absurd h not_mem_nil
  have hkey : sessionNaming.Key [0x6b] := ⟨mem_cons_of_mem _ mem_cons_self, by decide⟩
  have hsid : sessionNaming.Sid [0x76] :=
    ⟨by decide, show [0x76] ∉ [[0x6a], [0x6b]] by decide, by decide⟩
  refine ⟨older, m, w, hr, hbefore, haborts, ?_⟩
  exact aborted_leaves_nothing (by decide) hr hspares hsplit haborts hsince hkey hsid

/-- The session `v` writes `k` and reads `j`.  A write of `w` to `j` aborts `v`, and its pending
version of `k` stays: `x` appends to it and publishes it. -/
theorem aborted_leaves_version : ∃ (h older newer : History) (m : Moment) (w : World),
    CoRun {} sessionNaming h w ∧ h = newer ++ m :: older ∧
    m.Aborts [0x76] ∧ [0x76] ∈ unsettled [0x6b] (m :: older) ∧
    (m.post.server.version [0x6b]).map Item.data = some [0x61] ∧
    (∀ m' ∈ newer, m'.post.server.alive [0x76] = false) ∧
    (w.server.live [0x6b]).map Item.data = some [0x61, 0x63] := by
  obtain ⟨_, l, b, d, w, hr, m, hm, haborts, hmem, hversion, hsince, hvalue⟩ :=
    (playable_co : Playable {} (CoRun {} sessionNaming) _).exists_run₃
      [.line 0 (.oqwrite [0x76] [0x6b] 0 0 1), .body 0 [0x61, 0x0d, 0x0a],
        .line 0 (.ciget [0x76] [0x6a] 0), .line 1 (.oqwrite [0x77] [0x6a] 0 0 1),
        .body 1 [0x62, 0x0d, 0x0a], .line 2 (.oqConcat true [0x78] [0x6b] 1),
        .body 2 [0x63, 0x0d, 0x0a], .line 2 (.dcommit [0x78])]
      (P := fun h l b d w => ∃ m, h.head? = some m ∧
        Moment.Aborts m [0x76] ∧ [0x76] ∈ unsettled [0x6b] h ∧
        (m.post.server.version [0x6b]).map Item.data = some [0x61] ∧
        (∀ m' ∈ [d, b, l], m'.post.server.alive [0x76] = false) ∧
        (w.server.live [0x6b]).map Item.data = some [0x61, 0x63]) (by decide +kernel)
  obtain ⟨older, rfl⟩ := List.head?_eq_some_iff.mp hm
  exact ⟨_, older, [d, b, l], m, w, hr, rfl, haborts, hmem, hversion, hsince, hvalue⟩

end Rejig
