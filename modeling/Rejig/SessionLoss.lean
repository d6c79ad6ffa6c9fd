import Rejig.SessionRecords
import Rejig.SessionInvariant

/-!
# Leases that sessions lose

A delete drops the records of a key, and with time they expire.  Then the sessions that hold the key
are not told: the keys in their lists stay.  `Sheds` is what both do to the server, and
`State.Sheds` what this is for sessions; the records of sessions themselves are not touched by a
delete, and here they do not expire.
-/

namespace Rejig

open Prog Session Server Option Bool

variable {keys : List Bytes} {a : State} {c : Settings} {N : Naming}

/-- Keys are no longer held. -/
structure Session.State.Sheds (a a' : State) : Prop where
  sess : a'.sess = a.sess
  hold : ∀ k, (a'.cell k).hold = (a.cell k).hold ∨ (a'.cell k).hold = none

theorem Session.State.Attended.sheds {a' : State} (h : a.Attended) (hs : a.Sheds a') :
    a'.Attended := by
  intro k hold hhold u hu
  rcases hs.hold k with hsame | hnone
  · rw [hsame] at hhold
    exact (h k hold hhold u hu).congr (congrFun hs.sess u)
  · rw [hnone] at hhold
    cases hhold

/-- Records go, though not those of sessions, and nothing else changes but the time. -/
structure Sheds (N : Naming) (s s' : Server) : Prop where
  live : ∀ n, s'.live n = s.live n ∨ s'.live n = none
  sess : ∀ sid, N.Sid sid → s'.live sid = s.live sid
  nextAddr : s'.nextAddr = s.nextAddr
  oldestLive : s'.oldestLive = s.oldestLive
  heap : s'.heap = s.heap

section Shedding

variable {s₀ s s' : Server} {it : Item} {key n : Bytes}

namespace Sheds

theorem refl (N : Naming) (s : Server) : Sheds N s s :=
  ⟨fun _ => .inl rfl, fun _ _ => rfl, rfl, rfl, rfl⟩

theorem reap (h : Sheds N s₀ s) (key : Bytes) : Sheds N s₀ (s.reap key) where
  live n := by
    rw [live_reap]
    exact h.live n
  sess sid hsid := (s.live_reap key sid).trans (h.sess sid hsid)
  nextAddr := h.nextAddr
  oldestLive := h.oldestLive
  heap := h.heap

theorem unlink (h : Sheds N s₀ s) (hit : ¬ N.Sid it.key) : Sheds N s₀ (s.unlink it) where
  live n := by
    rw [Server.live, find_unlink, dead_unlink]
    split
    · cases hn : s.find n with
      | none => exact .inr rfl
      | some it' =>
        by_cases haddr : it'.addr = it.addr
        · exact .inr (by simp [haddr])
        · rw [filter_some_pos (by simpa using haddr), ← hn]
          exact h.live n
    · exact h.live n
  sess sid hsid := by
    rw [Server.live, find_unlink, dead_unlink, if_neg]
    · exact h.sess sid hsid
    · rintro rfl
      exact hit hsid
  nextAddr := h.nextAddr
  oldestLive := h.oldestLive
  heap := h.heap

end Sheds

/-- A state that shed records is one of sessions that lost keys. -/
theorem Serving.sheds (hc : c.Relative) (hs : Serving c N s a) (h : Sheds N s s') :
    ∃ a', Serving c N s' a' ∧ a.Sheds a' := by
  obtain ⟨hflush, t, v, hserves⟩ := hs
  have hsub : ∀ n it, s'.live n = some it → v.find n = some it := by
    intro n it hit
    rcases h.live n with hsame | hnone
    · rw [← hserves.sees.live, ← hsame, hit]
    · rw [hnone] at hit
      cases hit
  let a' : State := ⟨a.sess, fun k => ⟨(s'.live (coLeaseKey k)).bind fun _ => (a.cell k).hold,
    s'.live (leaseKey k), s'.live (versionKey k), s'.live k⟩⟩
  have hrepr : Represents N ⟨s'.live, s'.nextAddr⟩ a' := by
    refine ⟨fun sid hsid => ?_, fun k hk => ⟨?_, rfl, rfl, rfl, fun l hl => ?_, fun it hit => ?_⟩,
      fun k k' it it' hk hk' hit hit' => ?_, fun k it hk hit => ?_⟩
    · change Option.Rel (SessOf N) (s'.live sid) (a.sess sid)
      rw [h.sess sid hsid, hserves.sees.live]
      exact hserves.repr.sess sid hsid
    · change Option.Rel (HoldOf N) (s'.live (coLeaseKey k)) ((s'.live (coLeaseKey k)).bind fun _ =>
        (a.cell k).hold)
      cases hlive : s'.live (coLeaseKey k) with
      | none => exact .none
      | some it =>
        have hhold := (hserves.repr.cell k hk).hold
        rwa [hsub _ it hlive] at hhold
    · exact (hserves.repr.cell k hk).kind l ((hserves.repr.cell k hk).lease.symm.trans
        (hsub _ l hl))
    · refine (hserves.repr.cell k hk).filled it (hit.imp (fun hpv => ?_) fun hvalue => ?_)
      · exact (hserves.repr.cell k hk).version.symm.trans (hsub _ it hpv)
      · exact (hserves.repr.cell k hk).value.symm.trans (hsub _ it hvalue)
    · exact hserves.repr.addr_inj k k' it it' hk hk' (hsub _ it hit) (hsub _ it' hit')
    · exact (hserves.repr.addr_lt k it hk (hsub _ it hit)).trans_eq
        (hserves.sees.next.symm.trans h.nextAddr.symm)
  have hflush' : s'.oldestLive = 0 := h.oldestLive.trans hflush
  refine ⟨a', ⟨hflush', hc.clock s', _,
    ⟨rfl, rfl, rfl, rfl, hflush', h.heap.trans hserves.sees.heap⟩, hrepr⟩, rfl, fun k => ?_⟩
  change (s'.live (coLeaseKey k)).bind _ = _ ∨ (s'.live (coLeaseKey k)).bind _ = _
  cases s'.live (coLeaseKey k) with
  | none => exact .inr rfl
  | some it => exact .inl rfl

/-! ## Deletes -/

theorem sheds_itemGet (n : Bytes) : ∀ s : Server, Sheds N s₀ s →
    wlp (itemGet n) (fun o s' => Sheds N s₀ s' ∧ ∀ it, o = some it → it.key = n) c s :=
  fun _ hs => wlp_itemGet.mpr ⟨hs.reap n, fun _ hit => key_of_live hit⟩

theorem keepsSheds_unlinkSome {o : Option Item} (ho : ∀ it, o = some it → it.key = n)
    (hn : ¬ N.Sid n) :
    Keeps (Sheds N s₀) c (whenSome o itemUnlink) :=
  .whenSome fun it hit _ hs => wlp_itemUnlink.mpr (hs.unlink (ho it hit ▸ hn))

theorem keepsSheds_itemGetAndDelete (hkey : N.isKey key) (deleteLease : Bool) :
    Keeps (Sheds N s₀) c (itemGetAndDelete key deleteLease) := by
  have hout : ¬ N.Sid key := fun h => h.notKey hkey
  refine .bind (.when fun _ => ?_) fun _ => .bind_of (sheds_itemGet key) fun o ho => ?_
  · refine .bind_of (sheds_itemGet _) fun o ho =>
      .bind (keepsSheds_unlinkSome ho (Naming.Sid.not_leaseKey key)) fun _ => ?_
    refine .bind_of (sheds_itemGet _) fun o ho =>
      .bind (keepsSheds_unlinkSome ho (Naming.Sid.not_versionKey key)) fun _ => ?_
    exact .bind_of (sheds_itemGet _) fun o ho =>
      keepsSheds_unlinkSome ho (Naming.Sid.not_coLeaseKey key)
  · cases o with
    | none => exact .pure _
    | some it => exact .bind (keepsSheds_unlinkSome (o := some it) ho hout) fun _ => .pure _

theorem keepsSheds_ascDeleteKeys (deleteLease : Bool) (hkeys : ∀ key ∈ keys, N.isKey key)
    (res : Option StoreResult) :
    Keeps (Sheds N s₀) c (ascDeleteKeys deleteLease res keys) := by
  induction keys generalizing res with
  | nil =>
    refine .deref_bind fun r _ => ?_
    cases r <;> exact .pure _
  | cons key keys ih =>
    obtain ⟨hkey, hkeys⟩ := List.forall_mem_cons.mp hkeys
    rw [ascDeleteKeys]
    split
    · exact .pure _
    · exact .bind (keepsSheds_itemGetAndDelete hkey deleteLease) fun r => ih hkeys r

theorem sheds_ascProcessDelete {cfg deleteLease : Int} (hkeys : ∀ key ∈ keys, N.isKey key)
    (s : Server) :
    wlp (ascProcessDelete cfg deleteLease keys) (fun _ s' => Sheds N s s') c s :=
  wlp_ascCheckConfig (fun _ _ => .refl N s) fun _ =>
    keepsSheds_ascDeleteKeys _ hkeys none s (.refl N s)

/-! ## Time -/

/-- With time, records that expire go. -/
theorem sheds_tick {seconds : Nat} (hflush : s.oldestLive = 0)
    (hsess : ∀ sid it, N.Sid sid → s.live sid = some it → it.expired (s.now + seconds) = false) :
    Sheds N s { s with now := s.now + seconds } := by
  have hdead : ∀ it : Item, ({ s with now := s.now + seconds } : Server).dead it = it.expired
    (s.now + seconds) := by
    intro it
    rw [Server.dead, Item.flushed, hflush]
    simp
  have hmono : ∀ it : Item, s.dead it = true → it.expired (s.now + seconds) = true := by
    intro it hit
    rw [Server.dead, Item.flushed, hflush] at hit
    simp only [Item.expired, ne_eq, not_true_eq_false, decide_false, Bool.false_and, Bool.or_false,
      Bool.and_eq_true, decide_eq_true_eq] at hit ⊢
    exact ⟨hit.1, hit.2.trans (Nat.le_add_right _ _)⟩
  have hlive : ∀ n, ({ s with now := s.now + seconds } : Server).live n =
      (s.live n).filter fun it => !it.expired (s.now + seconds) := by
    intro n
    change (s.find n).filter _ = ((s.find n).filter _).filter _
    cases s.find n with
    | none => rfl
    | some it =>
      cases hd : s.dead it with
      | false => simp [Option.filter_some, hdead, hd]
      | true => simp [Option.filter_some, hdead, hd, hmono it hd]
  refine ⟨fun n => ?_, fun sid hsid => ?_, rfl, rfl, rfl⟩
  · rw [hlive]
    cases hn : s.live n with
    | none => exact .inr rfl
    | some it =>
      cases hexp : it.expired (s.now + seconds) with
      | false => exact .inl (by simp [hexp])
      | true => exact .inr (by simp [hexp])
  · rw [hlive]
    cases hn : s.live sid with
    | none => rfl
    | some it => simp [hsess sid it hsid hn]

end Shedding

/-! ## Runs -/

/-- The records of sessions do not expire in a step. -/
def Moment.Outlasted (N : Naming) (m : Moment) : Prop :=
  ∀ seconds, m.label = .tick seconds → ∀ sid it, N.Sid sid → m.pre.server.live sid = some it →
    it.expired (m.pre.server.now + seconds) = false

theorem Served.shed {s s' : Server} {call : Option (Bytes × Op × CoResult)}
    (h : Served c N Eq s a s' call) :
    Served c N State.Sheds s a s' call := by
  cases call with
  | none =>
    obtain ⟨_, hs, rfl⟩ := h
    exact ⟨a, hs, rfl, fun _ => .inl rfl⟩
  | some call => exact h

/-- Every step of a run performs its operation on the sessions, or takes keys from them. -/
theorem Serving.step_shed {h : History} {w w' : World} {e : Event} (hc : c.Relative)
    (hs : Serving c N w.server a) (hr : (service c).Run h w) (hstep : World.Step c w e w')
    (hco : Moment.CoDelete N ⟨w, e, w'⟩) (hlast : Moment.Outlasted N ⟨w, e, w'⟩) :
    Served c N State.Sheds w.server a w'.server e.call := by
  have hserves : (∀ req, e.request = some req → req.Co N) → (∀ seconds, e ≠ .tick seconds) →
      Served c N State.Sheds w.server a w'.server e.call := fun hreq htick =>
    (hs.step hc hr hstep ⟨hco, hreq, fun seconds h => absurd h (htick seconds)⟩).shed
  cases e with
  | tick seconds =>
    cases hstep
    exact hs.sheds hc (sheds_tick hs.unflushed (hlast seconds rfl))
  | memory | hangup => exact hserves (by rintro _ ⟨⟩) (by simp)
  | line conn req outcome =>
    rcases hco.request req rfl with hreq | ⟨cfg, deleteLease, keys, rfl, hkeys⟩
    · exact hserves (fun _ h => some.inj h ▸ hreq) (by simp)
    · have hnone : Event.call (.line conn (.delete cfg deleteLease keys) outcome) = none := by
        cases outcome with
        | nread p => rfl
        | reply r =>
          rw [Event.call]
          cases r.result <;> rfl
      rw [hnone]
      cases hstep with
      | line hidle hrun => exact hs.sheds hc (sheds_ascProcessDelete hkeys w.server _ _ hrun)
  | body conn req p data reply =>
    rcases hco.request req rfl with hreq | ⟨cfg, deleteLease, keys, rfl, hkeys⟩
    · exact hserves (fun _ h => some.inj h ▸ hreq) (by simp)
    · -- a delete has no body
      cases hstep with
      | body hw _ _ =>
        obtain ⟨m, -, -, hp⟩ := exists_line_of_waiting hr hw
        cases hp.1

/-- The test that a step deletes listed keys. -/
def Event.deletes (keys : List Bytes) : Event → Bool
  | .line _ (.delete _ _ ks) _ => ks.all (· ∈ keys)
  | _ => false

/-- What the test says. -/
theorem Moment.coDelete_of_test {hk : ∀ n ∈ keys, Unprefixed n} {m : Moment}
    (htest : (m.label.coNamed keys || m.label.deletes keys) = true) :
    Moment.CoDelete (.ofLists keys [] hk nofun nofun) m ∧
    Moment.Outlasted (.ofLists keys [] hk nofun nofun) m := by
  rcases or_eq_true_iff.mp htest with hnamed | hdeletes
  · have hco : Moment.Co (.ofLists keys [] hk nofun nofun) m := Moment.co_of_coNamed hnamed
    refine ⟨hco.toCoDelete, fun seconds hl => ?_⟩
    rw [hl] at hnamed
    cases hnamed
  · cases hl : m.label with
    | line conn req outcome =>
      rw [hl] at hdeletes
      refine ⟨⟨fun req' hreq' => .inr ?_, fun heap h => ?_⟩, fun seconds h => ?_⟩
      · rw [hl] at hreq'
        cases hreq'
        cases req with
        | delete cfg deleteLease ks =>
          refine ⟨cfg, deleteLease, ks, rfl, fun key hkey => ?_⟩
          have hmem := List.all_eq_true.mp hdeletes key hkey
          exact of_decide_eq_true (p := key ∈ keys) hmem
        | _ => cases hdeletes
      · rw [hl] at h
        cases h
      · rw [hl] at h
        cases h
    | _ =>
      rw [hl] at hdeletes
      cases hdeletes

theorem playable_coDelete {hk : ∀ n ∈ keys, Unprefixed n} :
    Playable c (CoDeleteRun c (.ofLists keys [] hk nofun nofun)) fun m =>
      m.label.coNamed keys || m.label.deletes keys := fun _ _ _ hplay hnamed =>
  ⟨run_of_play (.init rfl) hplay,
    fun m hm => (Moment.coDelete_of_test (List.all_eq_true.mp hnamed m hm)).1⟩

end Rejig
