import Rejig.SessionAbort
import Rejig.Room

/-!
# Acknowledged updates

An incremental update of a session makes a pending version, which the commit of the session
publishes.  There are two ways for an update to be acknowledged and lost.  A key with a Q lease is
passed over in silence, also when the lease is the session's own: a read for update, or a
registration, grants one.  And a session that has registered the key invalidates it when it commits,
whatever it has written to it.
-/

namespace Rejig

open Prog

variable {it : Item} {r : CoResult}

namespace Session

/-- What an update should make of a payload. -/
def Op.updated (data : Bytes) : Op → Option Bytes
  | oqDelta incr _ delta =>
    (mcStrtoullLen data).map fun value => decimal (addDelta incr value delta)
  | oqConcat append _ bytes => some (if append then data ++ bytes else bytes ++ data)
  | _ => none

/-- A number that gets shorter is not in a right-aligned item, where its end stays where it was. -/
def Op.InPlace (pv : Item) : Op → Prop
  | oqDelta incr _ delta => ∀ value, mcStrtoullLen pv.data = some value → pv.ralign = true →
    let buf := decimal (addDelta incr value delta)
    buf.length ≤ pv.nbyte → (buf ++ pv.data.drop buf.length).drop (pv.nbyte - buf.length) = buf
  | _ => True

/-- The result that is answered to an update.  An increment looks at the pending version once
more. -/
def Op.answer (sid : Bytes) : Op → ServerM CoResult
  | oqDelta incr key delta => do return (← itemOqincrOqdecr incr sid key delta).1
  | op => op.exec sid

/-- The code does to the payload what it should, up to the place of the number. -/
theorem Op.updated_eq_iff {op : Op} {key : Bytes} {pv : Item} (hop : op.updates = some key)
    (hok : (op.apply pv).1 = .ok) :
    op.updated pv.data = some (op.apply pv).2 ↔ op.InPlace pv := by
  cases op with
  | oqDelta incr key delta =>
    rw [apply] at hok ⊢
    cases hvalue : mcStrtoullLen pv.data with
    | none =>
      rw [hvalue] at hok
      cases hok
    | some value =>
      simp only [updated, InPlace, hvalue, Option.map_some, Option.some.injEq, deltaData,
        inPlaceData]
      constructor
      · rintro heq _ rfl hralign hle
        rw [if_neg (Nat.not_lt.mpr hle), if_pos hralign] at heq
        exact heq.symm
      · intro hplace
        split
        · rfl
        · next hle =>
          split
          · next hralign => exact (hplace value rfl hralign (Nat.le_of_not_lt hle)).symm
          · rfl
  | oqConcat append key data => exact iff_of_true rfl trivial
  | _ => cases hop

section Steps

variable {spared : Bytes → Bool} {a a' : State} {sid key : Bytes} {op : Op}

/-- What an acknowledged update leaves of its key. -/
structure Updated (a a' : State) (sid key : Bytes) (op : Op) : Prop where
  works : a'.Works sid key
  hold : ∃ h, (a'.cell key).hold = some h ∧ h.kind ≠ .shared ∧
    (h.kind = .invalidate ↔ ∃ h₀, (a.cell key).hold = some h₀ ∧ h₀.kind = .invalidate)
  quarantined : ∀ l, (a.cell key).lease = some l → l.hasQLease = true →
    (a'.cell key).version = (a.cell key).version
  made : (∀ l, (a.cell key).lease = some l → l.hasILease = true) →
    ∀ pv, Op.base (a.cell key) = some pv →
    (op.apply pv).1 = .ok ∧ ∃ pv', (a'.cell key).version = some pv' ∧ pv'.data = (op.apply pv).2 ∧
      pv'.dataflags = pv.dataflags

theorem Step.updated (hstep : Step spared a sid op r a') (hr : r = .ok)
    (hop : op.updates = some key) :
    Updated a a' sid key op := by
  cases hstep with
  | forget => cases hr
  | foreign => cases hr
  | unknown hunknown =>
    cases op with
    | validate | dcommit | coUnlease => cases hop
    | _ => cases hunknown
  | ownRead _ hread => rcases hread with rfl | ⟨_, rfl⟩ <;> cases hop
  | @update _ key' c' _ hmarked hop' hhold hc =>
    rw [hop'] at hop
    cases hop
    refine ⟨.entered, ?_, ?_, ?_⟩
    · rw [State.cell_setCell_self, hc.hold]
      refine ⟨_, rfl, (by simp), (by simp), ?_⟩
      rintro ⟨h₀, hhold₀, hkind⟩
      rw [hhold h₀ hhold₀] at hkind
      cases hkind
    · intro l hl hq
      rw [State.cell_setCell_self, (hc.quarantined l hl hq).2]
    · intro hi pv hpv
      obtain ⟨hr', hmade⟩ := hc.made hi pv hpv
      rw [State.cell_setCell_self]
      exact ⟨hr'.symm.trans hr, hmade⟩
  | @amend _ key' h c' _ hmarked hop' hhold hkind hmem hc =>
    rw [hop'] at hop
    cases hop
    refine ⟨.entered, ?_, ?_, ?_⟩
    · rw [State.cell_setCell_self, hc.hold]
      refine ⟨h, hhold, hkind, fun heq => ⟨h, hhold, heq⟩, ?_⟩
      rintro ⟨h₀, hhold₀, heq⟩
      rw [hhold] at hhold₀
      cases hhold₀
      exact heq
    · intro l hl hq
      rw [State.cell_setCell_self, (hc.quarantined l hl hq).2]
    · intro hi pv hpv
      obtain ⟨hr', hmade⟩ := hc.made hi pv hpv
      rw [State.cell_setCell_self]
      exact ⟨hr'.symm.trans hr, hmade⟩
  | leased => cases hop
  | quarantined => cases hop
  | share => cases hop
  | occupied => cases hop
  | grant => cases hop
  | unheld => cases hop
  | robbed => cases hop
  | emptied => cases hop
  | swap => cases hop
  | write => cases hop
  | blocked => cases hop
  | rewrite => cases hop
  | register => cases hop
  | reregister => cases hop
  | valid => cases hop
  | outdated => cases hop
  | commit => cases hop
  | unlease => cases hop

/-- The value that a commit leaves of a key that its session has. -/
theorem Step.committed (hstep : Step spared a sid .dcommit r a') (hworks : a.Works sid key) :
    r = .ok ∧ (a.cell key).Committed sid (a'.cell key) := by
  cases hstep with
  | forget hmarked =>
    rw [hworks.not_marked] at hmarked
    cases hmarked
  | unknown hunknown hsess =>
    obtain ⟨q, hq, -⟩ := hworks
    rw [hsess] at hq
    cases hq
  | ownRead _ hread => rcases hread with h | ⟨_, h⟩ <;> cases h
  | foreign _ hop => cases hop
  | update _ hop => cases hop
  | amend _ hop => cases hop
  | @commit q _ hsess _ _ hin =>
    obtain ⟨q', hq', -, hk⟩ := hworks
    rw [hsess] at hq'
    cases hq'
    exact ⟨rfl, hin key hk⟩

end Steps

end Session

/-! ## The server -/

open Session

section Server

variable {c : Settings} {N : Naming} {s s' : Server} {a : State} {sid key : Bytes} {op : Op}

/-- An answered update is an executed one. -/
theorem Serving.updated (hs : Serving c N s a) (hfits : s.Fits c) (hsid : N.Sid sid)
    (hkey : N.Key key) (hop : op.updates = some key)
    (hrun : run (op.answer sid) c s = some (.ok, s')) :
    ∃ a', Serving c N s' a' ∧ s'.Fits c ∧ Updated a a' sid key op := by
  obtain ⟨hflush, t, v, hserves⟩ := hs
  have ht : t.oldestLive = 0 := hserves.sees.oldestLive.symm.trans hflush
  cases op with
  | oqDelta incr key' delta =>
    cases hop
    have hwlp : wlp ((Op.oqDelta incr key delta).answer sid) (fun r s' => r = .ok →
        ∃ a', Serving c N s' a' ∧ s'.Fits c ∧ Updated a a' sid key
          (.oqDelta incr key delta)) c s := by
      have hexec := (refines_exec (.oqDelta incr key delta) hserves hsid hkey).and 
        ((stable_fits c).keeps_itemOqDelta_add (b := 0) incr delta trivial trivial s hfits)
      rw [Op.answer, wlp_bind, itemOqincrOqdecr, wlp_bind]
      refine hexec.mono ?_
      rintro r s₁ ⟨⟨v₁, a₁, hs₁, hstep⟩, hfits₁⟩
      refine .bind (wlp_itemGet.mpr ?_)
      have hs₂ : Serves c N t (s₁.reap (versionKey key)) v₁ a₁ := ⟨hs₁.sees.reap _, hs₁.repr⟩
      have hfits₂ : (s₁.reap (versionKey key)).Fits c := hfits₁.shrink (.reap _ _)
      cases r with
      | ok =>
        cases s₁.live (versionKey key) with
        | none => exact .pure (.pure (by simp))
        | some pv =>
          exact .pure (.pure fun _ => ⟨a₁, hs₂.serving ht, hfits₂, hstep.updated rfl rfl⟩)
      | _ => exact .pure (.pure (by simp))
    exact hwlp _ _ hrun rfl
  | oqConcat append key' data =>
    cases hop
    obtain ⟨v₁, a₁, hs₁, hstep⟩ :=
      refines_exec (.oqConcat append key data) hserves hsid hkey _ _ hrun
    exact ⟨a₁, hs₁.serving ht, (stable_fits c).keeps_itemOqappendOqprepend (b := 0) append data
      trivial trivial s hfits _ _ hrun, hstep.updated rfl rfl⟩
  | _ => cases hop

/-- A record has the payload of another one with the update applied. -/
def Applied (op : Op) (it : Item) (o : Option Item) : Prop :=
  ∃ it', o = some it' ∧ op.updated it.data = some it'.data ∧ it'.dataflags = it.dataflags

/-- The commit of a session publishes a pending version unless it invalidates the key. -/
theorem Serving.dcommit_applied_iff {h : Hold} (hs : Serving c N s a) (hfits : s.Fits c)
    (hsid : N.Sid sid) (hkey : N.Key key) (hworks : a.Works sid key)
    (hhold : (a.cell key).hold = some h) (hkind : h.kind ≠ .shared)
    (happlied : Applied op it (s.version key)) :
    (∃ s', run (itemDcommit sid) c s = some (.ok, s') ∧ Applied op it (s'.live key)) ↔
    h.kind ≠ .invalidate := by
  obtain ⟨pv, hpv, hdata, hflags⟩ := happlied
  rw [hs.version hkey] at hpv
  obtain ⟨hflush, t, v, hserves⟩ := hs
  have ht : t.oldestLive = 0 := hserves.sees.oldestLive.symm.trans hflush
  -- whatever the commit returns, it returns the committed key
  have hcommit : ∀ r s', run (itemDcommit sid) c s = some (r, s') →
      ∃ a', Serving c N s' a' ∧ h.kind.Commits (a.cell key) (a'.cell key) := by
    intro r s' hrun
    obtain ⟨v', a', hserves', hstep⟩ := refines_dcommit hserves hsid r s' hrun
    exact ⟨a', hserves'.serving ht, (hstep.committed hworks).2.held h hhold⟩
  cases hk : h.kind with
  | shared => exact absurd hk hkind
  | refresh =>
    refine iff_of_true ?_ nofun
    obtain ⟨q, hq, halive, -⟩ := hworks
    obtain ⟨r, s', hrun, rfl⟩ := returns_itemDcommit hserves hfits hsid hq halive
    obtain ⟨a', hs', hcommits⟩ := hcommit _ s' hrun
    rw [hk] at hcommits
    have hrel := hcommits.2
    rw [hpv] at hrel
    refine ⟨s', hrun, ?_⟩
    cases hv : (a'.cell key).value with
    | none =>
      rw [hv] at hrel
      cases hrel
    | some it' =>
      rw [hv] at hrel
      cases hrel with
      | some hpublishes =>
        refine ⟨it', (hs'.value hkey).trans hv, ?_, hpublishes.dataflags.trans hflags⟩
        rw [hpublishes.data]
        exact hdata
  | invalidate =>
    refine iff_of_false ?_ (absurd rfl)
    rintro ⟨s', hrun, it', hit', -⟩
    obtain ⟨a', hs', hcommits⟩ := hcommit _ s' hrun
    rw [hk] at hcommits
    rw [hs'.value hkey, hcommits.2] at hit'
    cases hit'

/-- The pending version after an acknowledged update. -/
theorem Session.Updated.applied_iff {a' : State} (h : Updated a a' sid key op)
    (hop : op.updates = some key)
    (hkind : ∀ l, (a.cell key).lease = some l → l.isLeaseHolder = true)
    (hit : ((a.cell key).version).or (a.cell key).value = some it) :
    Applied op it (a'.cell key).version ↔
      if (a.cell key).lease.any (·.hasQLease) then ∃ pv, (a.cell key).version = some pv ∧
      op.updated pv.data = some pv.data else ∀ pv, (a.cell key).version = some pv →
    op.InPlace pv := by
  split
  · next hq =>
    obtain ⟨l, hl, hq⟩ := (Option.any_eq_true _ _).mp hq
    rw [h.quarantined l hl hq]
    constructor
    · rintro ⟨pv, hpv, hdata, -⟩
      rw [hpv, Option.some_or] at hit
      cases hit
      exact ⟨it, hpv, hdata⟩
    · rintro ⟨pv, hpv, hdata⟩
      rw [hpv, Option.some_or] at hit
      cases hit
      exact ⟨it, hpv, hdata, rfl⟩
  · next hq =>
    have hi : ∀ l, (a.cell key).lease = some l → l.hasILease = true := by
      intro l hl
      refine (Bool.or_eq_true _ _ ▸ hkind l hl).resolve_right fun hql => hq ?_
      exact (Option.any_eq_true _ _).mpr ⟨l, hl, hql⟩
    obtain ⟨pv, hpv, hdata, hflags, hplace⟩ : ∃ pv, Op.base (a.cell key) = some pv ∧
      pv.data = it.data ∧
        pv.dataflags = it.dataflags ∧ (op.InPlace pv ↔ ∀ pv, (a.cell key).version = some pv →
          op.InPlace pv) := by
      cases hversion : (a.cell key).version with
      | some pv =>
        rw [hversion, Option.some_or] at hit
        cases hit
        refine ⟨it, by rw [Op.base, hversion], rfl, rfl, fun hp => ?_, fun hp => hp it rfl⟩
        rintro _ ⟨⟩
        exact hp
      | none =>
        rw [hversion, Option.none_or] at hit
        refine ⟨{ it with ralign := false }, by
          rw [Op.base, hversion, hit]; rfl, rfl, rfl, iff_of_true ?_ (by simp)⟩
        cases op with
        | oqDelta =>
          intro _ _ hralign
          cases hralign
        | _ => trivial
    obtain ⟨hok, pv', hpv', hdata', hflags'⟩ := h.made hi pv hpv
    rw [← hplace, ← Op.updated_eq_iff hop hok, hdata, Applied, hpv', ← hdata']
    constructor
    · rintro ⟨_, ⟨⟩, heq, -⟩
      exact heq
    · intro heq
      exact ⟨pv', rfl, heq, hflags'.trans hflags⟩

/-- An acknowledged update of a session is applied, and published by the commit of the session,
exactly if the key is not to be invalidated and has no Q lease that the update would have to change
anything under. -/
theorem update_applied_iff {it : Item} (hs : Serving c N s a) (hfits : s.Fits c) (hsid : N.Sid sid)
    (hkey : N.Key key) (hop : op.updates = some key)
    (hit : (s.version key).or (s.live key) = some it)
    (hrun : run (op.answer sid) c s = some (.ok, s')) :
    (Applied op it (s'.version key) ∧
      ∃ s'', run (itemDcommit sid) c s' = some (.ok, s'') ∧ Applied op it (s''.live key)) ↔
    (s.live (coLeaseKey key)).any (·.hasOLeaseInv) = false ∧
      if (s.lease key).any (·.hasQLease) then ∃ pv, s.version key = some pv ∧
      op.updated pv.data = some pv.data else ∀ pv, s.version key = some pv → op.InPlace pv := by
  have hformed : ∀ l, (a.cell key).lease = some l → l.isLeaseHolder = true := by
    obtain ⟨-, t, v, hserves⟩ := hs
    exact (hserves.repr.cell key hkey).kind
  have hinv : (s.live (coLeaseKey key)).any (·.hasOLeaseInv) = true ↔
      ∃ h, (a.cell key).hold = some h ∧ h.kind = .invalidate := by
    obtain ⟨-, t, v, hserves⟩ := hs
    rw [hserves.sees.live]
    rcases hserves.repr.hold_cases hkey with ⟨hnone, hhold⟩ | ⟨it, h, hit, hhold, hof⟩
    · simp [hnone, hhold]
    · simp [hit, hhold, hof.hasOLeaseInv]
  obtain ⟨a', hs', hfits', hupdated⟩ := hs.updated hfits hsid hkey hop hrun
  obtain ⟨h, hhold, hkind, hiff⟩ := hupdated.hold
  rw [hs.version hkey, hs.lease hkey,
    ← hupdated.applied_iff hop hformed (by rwa [← hs.version hkey, ← hs.value hkey]),
    ← hs'.version hkey, and_comm, Bool.eq_false_iff, ne_eq, hinv, ← hiff]
  refine and_congr_left fun happlied => ?_
  exact hs'.dcommit_applied_iff hfits' hsid hkey hupdated.works hhold hkind happlied

end Server

/-- A session writes a number, adds to it, and commits. -/
theorem update_applied_iff_incr : ∃ s s' s'' : Server,
    (s.version [0x6b]).map Item.data = some [0x35] ∧
    run ((Op.oqDelta true [0x6b] 3).answer [0x75]) {} s = some (.ok, s') ∧
    run (itemDcommit [0x75]) {} s' = some (.ok, s'') ∧
    (s''.live [0x6b]).map Item.data = some [0x38] := by
  have hsid : sessionNaming.Sid [0x75] :=
    ⟨by decide, show [0x75] ∉ [[0x6a], [0x6b]] by decide, by decide⟩
  have hkey : sessionNaming.Key [0x6b] := ⟨List.mem_cons_of_mem _ List.mem_cons_self, by decide⟩
  -- the state after the write
  obtain ⟨⟨r, s⟩, hwrite, htest⟩ := (Option.any_eq_true _ _).mp (show (run (itemOqwrite [0x75]
      { addr := 0, key := [0x6b], key_lt := by decide, data := [0x35] }) {} Server.start).any
        (fun r =>
        (r.2.version [0x6b]).map Item.data = some [0x35] && (r.2.version [0x6b]).all (!·.ralign) &&
        !(r.2.lease [0x6b]).any (·.hasQLease) && !(r.2.live (coLeaseKey [0x6b])).any
          (·.hasOLeaseInv) && (run ((Op.oqDelta true [0x6b] 3).answer [0x75]) {} r.2).any
          (·.1 = .ok)) = true by decide +kernel)
  simp only [Bool.and_eq_true, Bool.not_eq_true', decide_eq_true_eq] at htest
  obtain ⟨⟨⟨⟨hdata, hralign⟩, hlease⟩, hinv⟩, hanswer⟩ := htest
  obtain ⟨⟨r', s'⟩, hrun, hr'⟩ := (Option.any_eq_true _ _).mp hanswer
  obtain rfl : r' = .ok := of_decide_eq_true hr'
  obtain ⟨hflush, t, v, hserves⟩ : Serving {} sessionNaming Server.start .empty :=
    serving_start (by decide)
  obtain ⟨v', a, hserves', -⟩ := refines_exec (.oqwrite _) hserves hsid (by exact hkey) r s hwrite
  have hs : Serving {} sessionNaming s a :=
    hserves'.serving (hserves.sees.oldestLive.symm.trans hflush)
  have hfits : s.Fits {} := (stable_fits _).keeps_itemOqwrite (b := 0) trivial trivial trivial
    Server.start
    (fun _ _ hfind => nomatch hfind) r s hwrite
  obtain ⟨pv, hpv, hpvdata⟩ := Option.map_eq_some_iff.mp hdata
  have hplace : (Op.oqDelta true [0x6b] 3).InPlace pv := by
    intro _ _ hright
    rw [hpv, Option.all_some, hright] at hralign
    cases hralign
  have hcond := (update_applied_iff hs hfits hsid hkey rfl (by rw [hpv, Option.some_or]) hrun).mpr
    ⟨hinv, by rw [hlease, if_neg Bool.false_ne_true, hpv]; rintro _ ⟨⟩; exact hplace⟩
  obtain ⟨-, s'', hcommit, it', hit', hupdated, -⟩ := hcond
  refine ⟨s, s', s'', hdata, hrun, hcommit, ?_⟩
  rw [hpvdata] at hupdated
  rw [hit', Option.map_some, ← hupdated]
  decide

/-- A session reads `k` for update and appends to it.  The append is acknowledged and not applied,
and the commit of the session removes the value. -/
theorem update_lost : ∃ (h : History) (m d : Moment) (w : World),
    CoRun {} sessionNaming (d :: m :: h) w ∧
    m.label.request = some (.oqConcat true [0x76] [0x6b] 1) ∧ m.label.reply = some .ok ∧
    (m.pre.server.live [0x6b]).map Item.data = some [0x35] ∧ m.post.server.version [0x6b] = none ∧
    d.label = .line 1 (.dcommit [0x76]) (.reply .ok) ∧ d.post.server.live [0x6b] = none :=
  playable_co.exists_run₂
    [.line 0 (.oqwrite [0x75] [0x6b] 0 0 1), .body 0 [0x35, 0x0d, 0x0a], .line 0 (.dcommit [0x75]),
      .line 1 (.oqread [0x76] [0x6b]), .line 1 (.oqConcat true [0x76] [0x6b] 1),
      .body 1 [0x36, 0x0d, 0x0a], .line 1 (.dcommit [0x76])] (by decide +kernel)

end Rejig
