import Rejig.History

/-!
# The lease of a key

What the requests on a key do to the lease on it, together with what they answer.  The permissions
of `Rejig.IqEffect` say which leases an operation may link; here it is whether it linked one, which
token it drew, and that the answer says so.

The pattern of the proofs is always the same: up to the point where the lease is linked or found the
operation is executed, and from there on it leaves the name of the lease alone (`Perm.except`).
-/

namespace Rejig

open Prog Server Option List

variable {leaseToken : UInt64} {body tid : Bytes} {s s' : Server} {c : Settings} {it l : Item}
  {override : Bool} {granted : Prop} {p : Pending} {pending : UInt8} {req : Request}
  {transIt : Option Item}

/-! ## Leaving a name alone -/

/-- The permission to do anything, except under one name. -/
def Perm.except (n : Bytes) : Perm := ⟨fun m _ => m ≠ n, fun m _ _ => m ≠ n, fun m _ => m ≠ n⟩

/-- The same record, up to the time of the last access. -/
def Item.Same (it it' : Item) : Prop := ∃ atime, it' = { it with atime := atime }

theorem Item.Same.refl (it : Item) : it.Same it := ⟨it.atime, rfl⟩

section Except

variable {P : Perm} {n : Bytes} {it' : Item}

/-- A permission that has nothing to do under a name. -/
def Perm.Avoids (P : Perm) (n : Bytes) : Prop :=
  (∀ it, ¬ P.drop n it) ∧ (∀ it it', ¬ P.edit n it it') ∧ ∀ it, ¬ P.install n it

theorem Perm.avoids_except (n : Bytes) : (Perm.except n).Avoids n :=
  ⟨fun _ h => h rfl, fun _ _ h => h rfl, fun _ h => h rfl⟩

/-- What is found under a name that was left alone was there before. -/
theorem Evolve.same_of_avoids (h : Evolve P s s') (hP : P.Avoids n) (hf : s'.find n = some it') :
    ∃ it, s.find n = some it ∧ it.Same it' := by
  obtain ⟨hdrop, hedit, hinstall⟩ := hP
  refine h.invariant (I := fun o => ∀ it', o = some it' → ∃ it, s.find n = some it ∧ it.Same it')
    ?_ (fun it hit => ⟨it, hit, .refl it⟩) it' hf
  rintro o o' hchange ho it' rfl
  cases hchange with
  | touch now =>
    obtain ⟨it, hit, atime, rfl⟩ := ho _ rfl
    exact ⟨it, hit, now, rfl⟩
  | edit hp => exact absurd hp (hedit _ _)
  | install hp => exact absurd hp (hinstall _)

/-- A pinned record under a name that was left alone stays, unless it is dead. -/
theorem Evolve.exists_of_avoids (h : Evolve P s s') (hP : P.Avoids n) (hf : s.find n = some it)
    (hp : it.pinned = true) (hd : ∀ atime, s.dead { it with atime := atime } = false) :
    ∃ it', s'.find n = some it' ∧ it.Same it' := by
  obtain ⟨hdrop, hedit, hinstall⟩ := hP
  refine h.invariant (I := fun o => ∃ it', o = some it' ∧ it.Same it') ?_ ⟨it, hf, .refl it⟩
  rintro o o' hchange ⟨_, rfl, atime, rfl⟩
  cases hchange with
  | lapse hl =>
    rcases hl with hdead | ⟨hunpinned, -⟩
    · rw [hd atime] at hdead
      cases hdead
    · exact absurd hunpinned (by simp [hp])
  | touch now => exact ⟨_, rfl, now, rfl⟩
  | drop hp => exact absurd hp (hdrop _)
  | edit hp => exact absurd hp (hedit _ _)

end Except

/-! ## Creating a lease -/

/-- A lease on a key as an operation that starts in `s` creates it. -/
structure NewLease (c : Settings) (s : Server) (kind : Lease) (l : Item) : Prop where
  lease : l.lease = kind
  data : l.data = decimal s.token
  exptime : l.exptime = s.leaseExpiry c
  pinned : l.pinned = true

/-- An operation that started in `s` has drawn a token and created a lease on `key` with it.  The
lease is there, unless it was dead when it was created. -/
structure LeaseCreated (c : Settings) (s : Server) (key : Bytes) (kind : Lease) (s' : Server) :
    Prop where
  drawn : s.leaseCurrentToken < s'.leaseCurrentToken
  only : ∀ l, s'.find (leaseKey key) = some l → NewLease c s kind l
  there : s.oldestLive = 0 → s.now < s.leaseExpiry c → ∃ l, s'.find (leaseKey key) = some l

/-- A lease always has an expiry. -/
theorem Server.leaseExpiry_pos (c : Settings) (s : Server) : 0 < s.leaseExpiry c := by
  have hlife : 2 ≤ leaseLifetime c.leaseTokenExpiry := by
    simp only [leaseLifetime]
    omega
  simp only [leaseExpiry, reltime, relTime]
  split
  · omega
  split
  · split
    · decide
    · rw [if_pos (by omega)]
      omega
  · rw [if_pos (by omega)]
    omega

/-- A lease created later does not expire earlier. -/
theorem Server.leaseExpiry_mono (h : s.now ≤ s'.now) : s.leaseExpiry c ≤ s'.leaseExpiry c := by
  simp only [leaseExpiry, reltime, relTime]
  split
  · omega
  split
  · exact le_rfl
  · rw [if_pos (by omega), if_pos (by omega)]
    omega

theorem Server.token_ne_hotmiss (h5 : 5 ≤ s.leaseCurrentToken)
    (hlt : s.leaseCurrentToken < 2 ^ 64) :
    s.token ≠ leaseHotmiss := by
  intro h
  have htoNat := congrArg UInt64.toNat h
  rw [token, UInt64.toNat_ofNat_of_lt' hlt] at htoNat
  have : leaseHotmiss.toNat = 3 := rfl
  omega

theorem Server.dead_of_oldestLive (h : s.oldestLive = 0) (it : Item) :
    s.dead it = it.expired s.now := by
  simp [dead, Item.flushed, h]

section Creating

variable {s₁ : Server} {key : Bytes} {kind : Lease}

/-- Creating a lease depends only on registers. -/
theorem LeaseCreated.congr (h : LeaseCreated c s₁ key kind s')
    (htok : s₁.leaseCurrentToken = s.leaseCurrentToken) (hnow : s₁.now = s.now)
    (hold : s₁.oldestLive = s.oldestLive) : LeaseCreated c s key kind s' := by
  have htoken : s₁.token = s.token := by rw [Server.token, htok, Server.token]
  have hexp : s₁.leaseExpiry c = s.leaseExpiry c := by
    rw [Server.leaseExpiry, hnow, Server.leaseExpiry]
  refine ⟨htok ▸ h.drawn, fun l hl => ?_,
    fun ho he => h.there (hold.trans ho) (by rwa [hexp, hnow])⟩
  obtain ⟨hlease, hdata, hexptime, hpinned⟩ := h.only l hl
  exact ⟨hlease, hdata.trans (by rw [htoken]), hexptime.trans hexp, hpinned⟩

theorem newLease_freshLease (c : Settings) (s : Server) (key : Bytes) (kind : Lease) :
    NewLease c s kind (s.freshLease c key kind) := ⟨rfl, rfl, rfl, rfl⟩

/-- The state after a new lease is linked, if the rest of the operation leaves its name alone. -/
theorem Evolve.leaseCreated (h : Evolve (.except (leaseKey key)) (s₁.link c it) s')
    (hk : it.key = leaseKey key) (hnew : NewLease c s kind it)
    (hlt : s.leaseCurrentToken < s₁.leaseCurrentToken) (hnow : s₁.now = s.now)
    (hold : s₁.oldestLive = s.oldestLive) : LeaseCreated c s key kind s' := by
  have hfind : (s₁.link c it).find (leaseKey key) = some (s₁.stamp c it) := by
    rw [find_link, if_pos hk.symm]
  refine ⟨hlt.trans_le h.leaseCurrentToken, fun l hl => ?_, fun ho hexp => ?_⟩
  · obtain ⟨l₀, hl₀, atime, rfl⟩ := h.same_of_avoids (Perm.avoids_except _) hl
    rw [hfind] at hl₀
    cases hl₀
    exact ⟨hnew.lease, hnew.data, hnew.exptime, hnew.pinned⟩
  · have hdead : ∀ atime, (s₁.link c it).dead { s₁.stamp c it with atime := atime } = false := by
      intro atime
      have hexp' : ¬ it.exptime ≤ s₁.now := by rw [hnew.exptime, hnow]; omega
      rw [dead_link, dead_of_oldestLive (hold.trans ho)]
      simp [Item.expired, hexp']
    obtain ⟨l, hl, -⟩ := h.exists_of_avoids (Perm.avoids_except _) hfind hnew.pinned hdead
    exact ⟨l, hl⟩

/-- `item_quarantine_and_read` for a key without a Q lease draws a token and grants a lease with
it. -/
theorem leaseCreated_itemQareadGrant (hk : key.length ≤ keyMaxLen)
    (htid : u8Name tid ≠ leaseKey key) :
    wlp (itemQareadGrant tid key transIt)
      (fun r s' => r.newLeaseToken = s.token ∧ LeaseCreated c s key .qRef s') c s := by
  have hlk : (s.freshLease c key .qRef).key = leaseKey key := u8Name_leaseKey hk
  refine wlp_store_lease (fun _ => rfl) (.inr rfl) (by simp) ?_
  have hs := Evolve.refl (.except (leaseKey key))
    (s.draw.allocate.link c (s.freshLease c key .qRef))
  -- from here on the operation works under other names
  have hcreated : ∀ s', Evolve (.except (leaseKey key))
      (s.draw.allocate.link c (s.freshLease c key .qRef)) s' → LeaseCreated c s key .qRef s' :=
    fun s' h => h.leaseCreated hlk (newLease_freshLease ..) (Nat.lt_succ_self _) rfl rfl
  generalize s.draw.allocate.link c (s.freshLease c key .qRef) = s₂ at hs hcreated
  have htrans : ∀ s' (r : QareadResult), Evolve (.except (leaseKey key)) s₂ s' →
      r.newLeaseToken = s.token →
      wlp (do itemAssocKeyTid transIt key tid; pure r) (fun r s' => r.newLeaseToken = s.token ∧
        LeaseCreated c s key .qRef s') c s' := by
    intro s' r hs' hr
    refine .bind ((evolve_itemAddEntry hs' ?_ ?_).mono fun _ s'' hs'' =>
      .pure ⟨hr, hcreated s'' hs''⟩)
    · exact fun _ _ _ _ _ => htid
    · exact fun _ _ _ _ => htid
  rw [wlp_bind, wlp_itemGet]
  cases horig : s₂.live key with
  | none =>
    rw [wlp_bind, itemGetPending, wlp_itemGet]
    exact htrans _ _ ((hs.reap _).reap _) rfl
  | some origIt =>
    have hok : origIt.key = key := key_of_live horig
    dsimp only
    rw [wlp_bind, wlp_itemCreatePendingVersion]
    intro _
    have hvk : u8Name (versionKey origIt.key) = versionKey key := by rw [hok, u8Name_versionKey hk]
    refine wlp_deref_store ?_ ?_
    · refine htrans _ _ ((hs.reap _).allocate.link_version hvk ⟨rfl, rfl, rfl⟩ ?_ ?_) rfl
      · exact fun _ _ _ => leaseKey_ne_versionKey.symm
      · exact fun _ _ => leaseKey_ne_versionKey.symm
    · exact htrans _ _ (hs.reap _).allocate rfl

/-- An incremental update of a key without a Q lease draws a token and grants a lease with it. -/
theorem leaseCreated_itemIqDeltaGrant {update : PvUpdate} {it : Option Item}
    (hu : update.Within c key) (hk : key.length ≤ keyMaxLen) (htid : u8Name tid ≠ leaseKey key)
    (hit : ∀ o, it = some o → o.key = key) :
    wlp (itemIqDeltaGrant update key tid it transIt)
      (fun r s' => r.newLeaseToken = s.token ∧ LeaseCreated c s key .qInc s') c s := by
  have hlk : (s.freshLease c key .qInc).key = leaseKey key := u8Name_leaseKey hk
  refine wlp_store_lease (fun _ => rfl) (.inl rfl) (by simp) ?_
  have hs := Evolve.refl (.except (leaseKey key))
    (s.draw.allocate.link c (s.freshLease c key .qInc))
  have hcreated : ∀ s', Evolve (.except (leaseKey key))
      (s.draw.allocate.link c (s.freshLease c key .qInc)) s' → LeaseCreated c s key .qInc s' :=
    fun s' h => h.leaseCreated hlk (newLease_freshLease ..) (Nat.lt_succ_self _) rfl rfl
  generalize s.draw.allocate.link c (s.freshLease c key .qInc) = s₂ at hs hcreated
  refine .bind ((evolve_itemAddEntry hs (fun _ _ _ _ _ => htid) fun _ _ _ _ => htid).mono
    fun _ s₃ hs₃ => ?_)
  cases it with
  | none =>
    rw [wlp_bind, itemGetPending, wlp_itemGet, wlp_pure]
    exact ⟨rfl, hcreated _ (hs₃.reap _)⟩
  | some it =>
    have hvk : u8Name (versionKey it.key) = versionKey key := by
      rw [hit it rfl, u8Name_versionKey hk]
    have hne : versionKey key ≠ leaseKey key := leaseKey_ne_versionKey.symm
    have hupdate : ∀ s' pvIt, Evolve (.except (leaseKey key)) s₂ s' → pvIt.key = versionKey key →
        wlp (update key pvIt >>= fun status => pure ⟨status, it.p, s.token⟩)
          (fun (r : IqDeltaResult) s' => r.newLeaseToken = s.token ∧ LeaseCreated c s key .qInc s')
          c s' := by
      intro s' pvIt hs' hpv
      exact .bind ((hu _ _ _ _ hs' hpv (fun _ _ _ => hne) (fun _ _ _ => hne) fun _ _ => hne).mono
        fun _ s'' hs'' => .pure ⟨rfl, hcreated s'' hs''⟩)
    dsimp only
    rw [wlp_bind, wlp_itemCreatePendingVersion]
    intro _
    refine wlp_deref_store ?_ ?_
    · refine hupdate _ _ (hs₃.allocate.link_version hvk ⟨rfl, rfl, rfl⟩ ?_ ?_) hvk
      · exact fun _ _ _ => hne
      · exact fun _ _ => hne
    · exact hupdate _ _ hs₃.allocate hvk

end Creating

/-! ## Operations on a key -/

/-- The permission to write the pending bit of a lease and to work under other names. -/
def heldPerm (key : Bytes) : Perm where
  drop n _ := n ≠ leaseKey key
  edit n o o' := n = leaseKey key → ∃ p, o' = { o with p := p }
  install n _ := n ≠ leaseKey key

section Operations

variable {s₁ : Server} {key : Bytes}

/-- How `item_quarantine_and_read` ends: with a new lease, or without a change on a key that has a
Q lease. -/
theorem lease_itemQuarantineAndRead (hk : key.length ≤ keyMaxLen)
    (htid : u8Name tid ≠ leaseKey key) :
    wlp (itemQuarantineAndRead tid key leaseToken) (fun r s' =>
      s.Unquarantined key ∧ r.newLeaseToken = s.token ∧ LeaseCreated c s key .qRef s' ∨
      ∃ l, s.live (leaseKey key) = some l ∧ l.hasQLease = true ∧ Evolve .none s s' ∧
        (r.newLeaseToken = leaseHotmiss ∨ l.hasQInvLease = false ∧ l.leaseValue = leaseToken ∧
          r.newLeaseToken = leaseToken)) c s := by
  have hs := ((Evolve.refl .none s).reap tid).reap (leaseKey key)
  have hgrant : s.Unquarantined key →
      wlp (itemQareadGrant tid key (s.live tid)) (fun r s' => s.Unquarantined key ∧
        r.newLeaseToken = s.token ∧ LeaseCreated c s key .qRef s') c
        ((s.reap tid).reap (leaseKey key)) := fun h =>
    (leaseCreated_itemQareadGrant hk htid).mono fun r s' ⟨hr, hl⟩ =>
      ⟨h, hr, hl.congr rfl rfl rfl⟩
  simp only [itemQuarantineAndRead, itemGetLease, wlp_bind, wlp_itemGet, live_reap]
  cases hl : s.live (leaseKey key) with
  | none =>
    refine (hgrant fun o ho => ?_).mono fun _ _ => .inl
    rw [hl] at ho
    cases ho
  | some l =>
    dsimp only
    split
    · next hq =>
      split
      · next hown =>
        have hinv : l.hasQInvLease = false := by
          cases hlease : l.lease <;>
            simp_all [Item.hasQInvLease, Item.hasQRefLease, Item.hasQIncrLease, Item.hasQLease]
        have hval : l.leaseValue = leaseToken := by simpa using (Bool.and_eq_true_iff.mp hown).2
        simp only [itemQareadOwn, itemGetPendingVersion, wlp_bind, wlp_itemGet]
        split
        · exact .pure (.inr ⟨l, rfl, hq, hs.reap _, .inr ⟨hinv, hval, rfl⟩⟩)
        · rw [wlp_bind, itemGetPending, wlp_itemGet, wlp_pure]
          exact .inr ⟨l, rfl, hq, (hs.reap _).reap _, .inr ⟨hinv, hval, rfl⟩⟩
      · exact .pure (.inr ⟨l, rfl, hq, hs, .inl rfl⟩)
    · next hq =>
      refine (hgrant fun o ho => ?_).mono fun _ _ => .inl
      rw [hl] at ho
      cases ho
      simpa using hq

/-- How an incremental update ends: with a new lease, or leaving alone the lease that is not an I
lease. -/
def IqDeltaLease (c : Settings) (s : Server) (key : Bytes) (r : IqDeltaResult)
    (s' : Server) : Prop :=
  (∀ l, s.live (leaseKey key) = some l → l.hasILease) ∧ r.newLeaseToken = s.token ∧
    LeaseCreated c s key .qInc s' ∨
    ∃ l, s.live (leaseKey key) = some l ∧ l.hasILease = false ∧ Evolve (.except (leaseKey key)) s s'

theorem lease_itemIqDelta {update : PvUpdate} (hu : update.Within c key)
    (hk : key.length ≤ keyMaxLen) (htid : u8Name tid ≠ leaseKey key)
    {own : (leaseIt : Item) → (transIt : Option Item) → ServerM IqDeltaResult}
    (hown : ∀ s' leaseIt transIt, Evolve (.except (leaseKey key)) s s' →
      wlp (own leaseIt transIt) (fun _ => Evolve (.except (leaseKey key)) s) c s') :
    wlp (itemIqDelta key tid (itemIqDeltaGrant update key tid) own) (IqDeltaLease c s key) c s := by
  simp only [itemIqDelta, itemGetLease, wlp_bind, wlp_itemGet, wlp_itemVoidILease, live_reap]
  cases hl : (s.live (leaseKey key)).filter (!·.hasILease) with
  | some l =>
    obtain ⟨hlive, hI⟩ := filter_eq_some_iff.mp hl
    have hI' : l.hasILease = false := by simpa using hI
    rw [hlive, filter_some, if_neg (by simp [hI'])]
    have hs := (((Evolve.refl (.except (leaseKey key)) s).reap key).reap tid).reap (leaseKey key)
    exact (hown _ l (s.live tid) hs).mono fun _ _ h => .inr ⟨l, hlive, hI', h⟩
  | none =>
    have hI : ∀ l, s.live (leaseKey key) = some l → l.hasILease := by
      intro l hlive
      rw [hlive, filter_some] at hl
      simpa using hl
    refine (leaseCreated_itemIqDeltaGrant hu hk htid fun o ho => key_of_live ho).mono
      fun r s' ⟨hr, hc⟩ => .inl ⟨hI, ?_⟩
    cases h : (s.live (leaseKey key)).filter (·.hasILease) with
    | none =>
      rw [h] at hr hc
      exact ⟨hr, hc.congr rfl rfl rfl⟩
    | some l =>
      rw [h] at hr hc
      exact ⟨hr, hc.congr rfl rfl rfl⟩

/-- How `item_iqappend_iqprepend` ends. -/
theorem lease_itemIqappendIqprepend {append : Bool} {data : Bytes} (hk : key.length ≤ keyMaxLen)
    (htid : u8Name tid ≠ leaseKey key) : 
    wlp (itemIqappendIqprepend append key data tid) (IqDeltaLease c s key) c s := by
  have hne : versionKey key ≠ leaseKey key := leaseKey_ne_versionKey.symm
  refine lease_itemIqDelta (within_itemAppendPrependIq hk) hk htid fun s' l t hs' => ?_
  exact evolve_itemIqDeltaOwn (within_itemAppendPrependIq hk) hs' (fun _ _ _ _ _ _ => hne)
    (fun _ _ _ _ _ _ => hne) fun _ _ _ _ _ => hne

/-- How `_item_iqincr_iqdecr` ends. -/
theorem lease_itemIqincrIqdecr {incr : Bool} {delta : UInt64} (hk : key.length ≤ keyMaxLen)
    (htid : u8Name tid ≠ leaseKey key) : 
    wlp (itemIqincrIqdecr incr key delta tid) (IqDeltaLease c s key) c s := by
  have hne : versionKey key ≠ leaseKey key := leaseKey_ne_versionKey.symm
  refine lease_itemIqDelta (within_itemAddDeltaIq hk) hk htid fun s' l t hs' => ?_
  split
  · exact evolve_itemIqDeltaOwn (within_itemAddDeltaIq hk) hs' (fun _ _ _ _ _ _ => hne)
      (fun _ _ _ _ _ _ => hne) fun _ _ _ _ _ => hne
  · exact .pure hs'

/-- How `item_iqget` ends: with a new I lease on a key without a lease, or with the lease of the key
left alone, up to its pending bit. -/
def IqgetLease (c : Settings) (s : Server) (key : Bytes) (r : IqgetResult) (s' : Server) : Prop :=
  s.live (leaseKey key) = none ∧ r.status = .lease ∧ (∃ it, r.item = some it) ∧
      r.newLeaseToken = s.token ∧ LeaseCreated c s key .i s' ∨
    r.status ≠ .lease ∧ (r.status = .miss → r.newLeaseToken = leaseHotmiss) ∧
      Evolve (heldPerm key) s s'

theorem iqgetLease_itemIqgetGrant {it : Option Item} (hk : key.length ≤ keyMaxLen)
    (hs : Evolve (heldPerm key) s s₁) (htok : s₁.leaseCurrentToken = s.leaseCurrentToken)
    (hnone : s.live (leaseKey key) = none) (hit : ∀ o, it = some o → o.key = key) :
    wlp (itemIqgetGrant key pending it) (IqgetLease c s key) c s₁ := by
  rw [itemIqgetGrant, wlp_bind, wlp_itemCreateLease]
  intro _
  cases s₁.room with
  | false => exact .pure (.inr ⟨by simp, by simp, hs.draw.allocate⟩)
  | true =>
    simp only [if_true, wlp_bind]
    have hdrop : wlp (whenSome it itemUnlink)
        (fun _ => Evolve (heldPerm key) s₁.draw.allocate) c s₁.draw.allocate := by
      rw [wlp_whenSome]
      refine ⟨fun _ => .refl _ _, fun o ho => wlp_itemUnlink.mpr ?_⟩
      exact (Evolve.refl _ _).unlink o fun _ _ _ => hit o ho ▸ (leaseKey_ne_self key).symm
    refine hdrop.mono fun _ s₂ hs₂ => ?_
    rw [wlp_itemStore_set (.inl rfl), if_pos (Item.storable_of_lease (by simp)), wlp_pure]
    refine .inl ⟨hnone, rfl, ⟨_, rfl⟩, ?_, ?_⟩
    · show s₁.token = s.token
      rw [Server.token, htok, Server.token]
    · have hcreated : LeaseCreated c s₁ key .i
          (s₂.link c { s₁.freshLease c key .i with p := pending }) :=
        (Evolve.refl _ _).leaseCreated (u8Name_leaseKey hk) ⟨rfl, rfl, rfl, rfl⟩
          (Nat.lt_of_lt_of_le (Nat.lt_succ_self _) hs₂.leaseCurrentToken) hs₂.now hs₂.oldestLive
      exact hcreated.congr htok hs.now hs.oldestLive

theorem iqgetLease_itemIqgetHeld {leaseIt : Item} (hs : Evolve (heldPerm key) s s₁) :
    wlp (itemIqgetHeld leaseIt pending leaseToken) (IqgetLease c s key) c s₁ := by
  rw [itemIqgetHeld, wlp_bind, wlp_itemWrite]
  have hs₁ : Evolve (heldPerm key) s (s₁.write leaseIt fun it => { it with p := pending }) :=
    hs.write (fun _ => rfl) fun o _ _ => .edit fun _ => ⟨pending, rfl⟩
  dsimp only
  split
  · exact .pure (.inr ⟨by simp, by simp, hs₁⟩)
  · exact .pure (.inr ⟨by simp, by simp, hs₁⟩)

theorem iqgetLease_itemIqgetOwn (hs : Evolve (heldPerm key) s s₁) :
    wlp (itemIqgetOwn key) (IqgetLease c s key) c s₁ := by
  rw [itemIqgetOwn, itemGetLease, wlp_bind, wlp_itemGet]
  split
  · exact .pure (.inr ⟨by simp, by simp, hs.reap _⟩)
  split
  · exact .pure (.inr ⟨by simp, by simp, hs.reap _⟩)
  split
  · rw [wlp_bind, itemGetPendingVersion, wlp_itemGet]
    split
    · exact .pure (.inr ⟨by simp, by simp, (hs.reap _).reap _⟩)
    · exact .pure (.inr ⟨by simp, by simp, (hs.reap _).reap _⟩)
  · exact .pure (.inr ⟨by simp, by simp, hs.reap _⟩)

theorem iqgetLease_itemIqgetValue (hk : key.length ≤ keyMaxLen) (hs : Evolve (heldPerm key) s s₁)
    (htok : s₁.leaseCurrentToken = s.leaseCurrentToken)
    (hlive : s₁.live (leaseKey key) = s.live (leaseKey key)) (hit : it.key = key) :
    wlp (itemIqgetValue key it leaseToken override) (IqgetLease c s key) c s₁ := by
  rw [itemIqgetValue, itemGetLease, wlp_bind, wlp_itemGet]
  split
  · exact .pure (.inr ⟨by simp, by simp, hs.reap _⟩)
  split
  · split
    · next hnone =>
      refine iqgetLease_itemIqgetGrant hk (hs.reap _) htok (hlive ▸ hnone) ?_
      rintro o ⟨⟩
      exact hit
    · exact iqgetLease_itemIqgetHeld (hs.reap _)
  · exact .bind ((evolve_itemTouch (hs.reap _)).mono fun _ _ h =>
      .pure (.inr ⟨by simp, by simp, h⟩))

theorem iqgetLease_itemIqget (hk : key.length ≤ keyMaxLen) :
    wlp (itemIqget key leaseToken tid override) (IqgetLease c s key) c s := by
  -- the first three reads only reap
  let Reaped (s' : Server) : Prop := Evolve (heldPerm key) s s' ∧
    s'.leaseCurrentToken = s.leaseCurrentToken ∧ s'.live = s.live
  have hreap : ∀ s' n, Reaped s' → Reaped (s'.reap n) := fun s' n ⟨h, htok, hlive⟩ =>
    ⟨h.reap n, htok, (funext fun m => s'.live_reap n m).trans hlive⟩
  have hread : wlp (itemIqgetTrans tid) (fun _ => Reaped) c s := by
    rw [itemIqgetTrans]
    split
    · exact .pure ⟨.refl _ s, rfl, rfl⟩
    · exact wlp_itemGet.mpr (hreap _ _ ⟨.refl _ s, rfl, rfl⟩)
  rw [itemIqget, wlp_bind]
  refine hread.mono fun transIt s₁ hs₁ => ?_
  rw [wlp_bind, wlp_itemGet, wlp_bind]
  have hpend : wlp (itemIqgetPending key (s₁.live key)) (fun _ => Reaped) c (s₁.reap key) := by
    cases s₁.live key with
    | some it => exact .pure (hreap _ _ hs₁)
    | none =>
      rw [itemIqgetPending, wlp_bind, itemGetPending, wlp_itemGet, wlp_pure]
      exact hreap _ _ (hreap _ _ hs₁)
  refine hpend.mono fun pending s₂ ⟨hs₂, htok₂, hlive₂⟩ => ?_
  refine .bind (wlp_itemCheckEntry fun own => ?_)
  split
  · exact iqgetLease_itemIqgetOwn hs₂
  split
  · next it hit =>
    exact iqgetLease_itemIqgetValue hk hs₂ htok₂ (congrFun hlive₂ _) (key_of_live hit)
  · rw [wlp_bind, itemGetLease, wlp_itemGet]
    split
    · next hnone =>
      exact iqgetLease_itemIqgetGrant hk (hs₂.reap _) htok₂ (by rw [← hlive₂, hnone]) (by simp)
    · exact iqgetLease_itemIqgetHeld (hs₂.reap _)

/-- How `iqset` ends: it takes the I lease with its token, or does nothing. -/
def FillEnds (s : Server) (key : Bytes) (leaseToken : UInt64) (stored : Prop)
    (s' : Server) : Prop :=
  stored ∧ s'.find (leaseKey key) = none ∧
      (∃ l, s.live (leaseKey key) = some l ∧ l.hasILease = true ∧ l.leaseValue = leaseToken) ∨
    ¬ stored ∧ Evolve .none s s'

theorem fillEnds_itemStore_iqset (hplain : Plain it) : wlp (itemStore it .iqset leaseToken)
    (fun r => FillEnds s it.key leaseToken (r = .stored)) c s := by
  have hs := (Evolve.refl .none s).reap it.key
  by_cases hbytes : it.nbyte = 0
  · rw [wlp_itemStore_of_not_storable (by simp [hplain.storable, hbytes])]
    exact .inr ⟨by simp, .refl _ s⟩
  rw [itemStore, it.not_storable, hplain.storable, decide_eq_true hbytes, Bool.not_true,
    if_neg Bool.false_ne_true, wlp_bind, wlp_itemGet]
  simp only [itemStoreIqset, itemGetLease, wlp_bind, wlp_itemGet, live_reap, hbytes, if_false]
  cases hl : s.live (leaseKey it.key) with
  | none => exact .pure (.inr ⟨by simp, hs.reap _⟩)
  | some l =>
    have hlk : l.key = leaseKey it.key := key_of_live hl
    dsimp only
    split
    · exact .pure (.inr ⟨by simp, hs.reap _⟩)
    split
    · exact .pure (.inr ⟨by simp, hs.reap _⟩)
    next hI htok =>
    have hI' : l.hasILease = true := by simpa using hI
    have htok' : l.leaseValue = leaseToken := (not_not.mp htok).symm
    rw [wlp_bind, wlp_itemUnlink]
    have hnone : (((s.reap it.key).reap (leaseKey it.key)).unlink l).find
      (leaseKey it.key) = none := by
      rw [find_unlink_of_find, if_pos hlk.symm]
      rw [hlk, find_reap_self, live_reap, hl]
    generalize ((s.reap it.key).reap (leaseKey it.key)).unlink l = s₁ at hnone
    -- whatever is linked now is under the name of the value
    have hlink : ∀ s₂ it', s₂.find (leaseKey it.key) = none → it'.key = it.key →
        wlp (itemStoreLink (s.live it.key) it') (fun r s' => r = .stored ∧
          s'.find (leaseKey it.key) = none) c s₂ := by
      intro s₂ it' hs₂ hk'
      rw [wlp_itemStoreLink fun o ho => (key_of_live ho).trans hk'.symm]
      refine ⟨rfl, ?_⟩
      rw [find_link, if_neg (hk' ▸ leaseKey_ne_self it.key), hs₂]
    have hreap : (s₁.reap (pendingKey it.key)).find (leaseKey it.key) = none := by
      rw [find_reap, if_neg leaseKey_ne_pendingKey, hnone]
    rw [wlp_bind, itemGetPending, wlp_itemGet]
    cases hp : s₁.live (pendingKey it.key) with
    | none =>
      refine (hlink _ it hreap rfl).mono ?_
      rintro r s' ⟨hr, hn⟩
      exact .inl ⟨hr, hn, l, hl, hI', htok'⟩
    | some pendingIt =>
      rw [wlp_bind, wlp_itemUnlink]
      refine (hlink _ { it with p := 1 } ?_ rfl).mono ?_
      · have hpk : pendingIt.key = pendingKey it.key := key_of_live hp
        rw [find_unlink, if_neg (hpk ▸ leaseKey_ne_pendingKey), hreap]
      · rintro r s' ⟨hr, hn⟩
        exact .inl ⟨hr, hn, l, hl, hI', htok'⟩

/-- `item_quarantine_and_register` leaves an invalidate lease that lists the transaction: a new one,
or the one that was there. -/
theorem lease_itemQuarantineAndRegister (hk : key.length ≤ keyMaxLen)
    (ht : tid.length ≤ tidMaxLen) (htid : u8Name tid ≠ leaseKey key) :
    wlp (itemQuarantineAndRegister tid key) (fun _ s' => ∀ l', s'.find (leaseKey key) = some l' →
      (∃ l, s.live (leaseKey key) = some l ∧ l.hasILease = false ∧ l.Has tid ∧ l.Same l') ∨
      ∃ l, InvLease c s key tid l ∧ l.Same l') c s := by
  have hlk : u8Name (leaseKey key) = leaseKey key := u8Name_leaseKey hk
  let Lease (l' : Item) : Prop :=
    (∃ l, s.live (leaseKey key) = some l ∧ l.hasILease = false ∧ l.Has tid ∧ l.Same l') ∨
      ∃ l, InvLease c s key tid l ∧ l.Same l'
  -- once the lease is in place, the rest works under other names
  have hrest : ∀ s₁ : Server, (∀ l', s₁.find (leaseKey key) = some l' → Lease l') →
      wlp (do
        itemAssocKeyTid (s.live tid) key tid
        let it ← itemGet key
        let leaseIt ← itemGetLease key
        whenSome it fun it => whenSome leaseIt fun leaseIt =>
          itemWrite it fun it => { it with exptime := leaseIt.exptime })
        (fun _ s' => ∀ l', s'.find (leaseKey key) = some l' → Lease l') c s₁ := by
    intro s₁ hs₁
    have hdone : ∀ s', Evolve (.except (leaseKey key)) s₁ s' →
        ∀ l', s'.find (leaseKey key) = some l' → Lease l' := by
      intro s' hs' l' hl'
      obtain ⟨l, hl, atime, rfl⟩ := hs'.same_of_avoids (Perm.avoids_except _) hl'
      rcases hs₁ l hl with ⟨l₀, hlive, hI, hhas, atime', rfl⟩ | ⟨l₀, hinv, atime', rfl⟩
      · exact .inl ⟨l₀, hlive, hI, hhas, atime, rfl⟩
      · exact .inr ⟨l₀, hinv, atime, rfl⟩
    refine .bind ((evolve_itemAddEntry (.refl (.except (leaseKey key)) s₁) (fun _ _ _ _ _ => htid)
      fun _ _ _ _ => htid).mono fun _ s₂ hs₂ => ?_)
    simp only [itemGetLease, wlp_bind, wlp_itemGet, wlp_whenSome, wlp_itemWrite]
    have hs₃ := (hs₂.reap key).reap (leaseKey key)
    refine ⟨fun _ => hdone _ hs₃, fun it hit => ⟨fun _ => hdone _ hs₃, fun leaseIt _ => hdone _ ?_⟩⟩
    refine hs₃.write (fun _ => rfl) fun o _ _ => .edit ?_
    rw [key_of_live hit]
    exact (leaseKey_ne_self key).symm
  simp only [itemQuarantineAndRegister, itemGetLease] at hrest ⊢
  rw [wlp_bind, wlp_itemGet, wlp_bind, wlp_itemGet, wlp_bind, wlp_itemVoidILease,
    live_reap, wlp_bind]
  refine wlp_itemAddEntry ?_ ?_
  · intro l hl hhas
    obtain ⟨hlive, hI⟩ := filter_eq_some_iff.mp hl
    have hI' : l.hasILease = false := by simpa using hI
    refine hrest _ fun l' hl' => .inl ⟨l, hlive, hI', hhas, ?_⟩
    rw [hlive, filter_some, if_neg (by simp [hI']), elim_none, find_reap_self, live_reap,
      hlive] at hl'
    cases hl'
    exact .refl l
  · intro data hdata _ _
    refine hrest _ fun l' hl' => .inr ⟨l', ⟨ht, data, hdata, ?_⟩, .refl l'⟩
    have hs := ((Evolve.refl (.except []) s).reap tid).voidILease key fun o _ h => by cases h
    rw [live_reap] at hs
    generalize Option.elim _ _ _ = s₁ at hs hl'
    have hkey : (s₁.freshReserved c (leaseKey key) data .qInv .none).key = leaseKey key := hlk
    rw [find_link, if_pos hkey.symm] at hl'
    cases hl'
    exact hs.reserved_stamp hs.allocate

end Operations

/-! ## Request lines and bodies -/

namespace Request

/-- The key on which a request asks for a Q lease. -/
def quarantines : Request → Option Bytes
  | qareg _ key _ | qaread _ key .. | iqDelta _ _ key .. | iqConcat _ _ key .. => some key
  | _ => none

/-- The key and the token of a fill. -/
def fill : Request → Option (Bytes × UInt64)
  | update (.iqset leaseToken) _ _ key .. => some (key, leaseToken)
  | _ => none

end Request

/-- The answers that grant a Q lease. -/
def Reply.grants : Reply → Bool
  | qInvLeasehold | okPending .. | okNovaluePending .. => true
  | qaread _ leaseToken _ => leaseToken ≠ leaseHotmiss
  | _ => false

/-- A number on a request line starts with no prefix. -/
theorem unprefixed_of_mcStrtoull {str : Bytes} {n : UInt64} (h : mcStrtoull str = some n) :
    Unprefixed str := by
  cases str with
  | nil => cases h
  | cons b rest =>
    have hb : b = 0x2d ∨ b = 0x2b ∨ isDigit b = true := by
      by_contra hne
      obtain ⟨h1, h2, h3⟩ : b ≠ 0x2d ∧ b ≠ 0x2b ∧ isDigit b = false := by simpa using hne
      simp [mcStrtoull, h1, h2, h3] at h
    intro hmem
    have hfirst : b ∈ ([0x6c, 0x6e, 0x70, 0x63] : List UInt8) := by
      have : ∀ p ∈ reservedPrefixes, ∀ x xs, p = x :: xs →
        x ∈ ([0x6c, 0x6e, 0x70, 0x63] : Bytes) := by
        simp [reservedPrefixes, leaseKey, versionKey, pendingKey, coLeaseKey]
      exact this _ hmem b _ rfl
    rcases hb with rfl | rfl | hdigit
    · revert hfirst; decide
    · revert hfirst; decide
    · simp only [mem_cons, not_mem_nil, or_false] at hfirst
      rcases hfirst with rfl | rfl | rfl | rfl <;> exact absurd hdigit (by decide)

section Lines

variable {key : Bytes}

/-- How a request for a value ends: with the token of a new I lease, or with the lease of the key
left alone. -/
def MissEnds (c : Settings) (s : Server) (key : Bytes) (out : Outcome) (s' : Server) : Prop :=
  (∃ p, out = .reply (.lvalue s.token p)) ∧ s.live (leaseKey key) = none ∧
      LeaseCreated c s key .i s' ∨
    (∀ token p, out = .reply (.lvalue token p) → token = leaseHotmiss) ∧ Evolve (heldPerm key) s s'

theorem missEnds_ascProcessIqget {cfg : Int} :
    wlp (ascProcessIqget cfg key leaseToken tid override) (MissEnds c s key) c s := by
  have hrefused : ∀ r ∈ Reply.refusals, MissEnds c s key (.reply r) s := by
    refine fun r hr => .inr ⟨fun token p h => ?_, .refl _ s⟩
    cases h
    simp [Reply.refusals] at hr
  rw [ascProcessIqget]
  refine wlp_ascCheckConfig hrefused fun _ => wlp_ascCheckLength hrefused fun hk => ?_
  refine .bind ((iqgetLease_itemIqget hk).mono fun r s' hr => .pure ?_)
  rcases hr with ⟨hnone, hstatus, ⟨it, hit⟩, htok, hl⟩ | ⟨hstatus, hmiss, hs'⟩
  · exact .inl ⟨⟨it.p, by rw [ascIqgetReply, hstatus, hit, htok]⟩, hnone, hl⟩
  · refine .inr ⟨fun token p h => ?_, hs'⟩
    rw [Outcome.reply.injEq, ascIqgetReply] at h
    split at h
    all_goals try cases h
    · exact hmiss ‹_›
    · exact absurd ‹_› hstatus

/-- How the line of a request for a value ends. -/
theorem missEnds_ascDispatch (hm : req.misses = some key) :
    wlp (ascDispatch req) (MissEnds c s key) c s := by
  cases req with
  | iqget cfg key leaseToken =>
    cases hm
    exact missEnds_ascProcessIqget
  | iset cfg key leaseToken tid =>
    cases hm
    exact missEnds_ascProcessIqget
  | _ => cases hm

/-- What a request for a Q lease leaves: once granted there is no I lease, and an I lease that was
there gives way unless the request does nothing. -/
structure QuarantineEnds (c : Settings) (s : Server) (key : Bytes) (granted : Prop) (s' : Server) :
    Prop where
  noILease : granted → ∀ l, s'.find (leaseKey key) = some l → l.hasILease = false
  ofILease : ∀ l, s.live (leaseKey key) = some l → l.hasILease = true →
    Evolve .none s s' ∨ granted ∨ ∃ kind, (kind = .qRef ∨ kind = .qInc) ∧
    LeaseCreated c s key kind s'

theorem QuarantineEnds.refused (h : ¬ granted) : QuarantineEnds c s key granted s :=
  ⟨fun hg => absurd hg h, fun _ _ _ => .inl (.refl _ s)⟩

theorem LeaseCreated.noILease {kind : Lease} (h : LeaseCreated c s key kind s') (hk : kind ≠ .i)
    (hl : s'.find (leaseKey key) = some l) : l.hasILease = false := by
  simp [Item.hasILease, (h.only l hl).lease, hk]

/-- The lease of a key that a step leaves alone is no I lease, if it was none. -/
theorem Evolve.noILease {P : Perm} {l₀ : Item} (h : Evolve P s s') (hP : P.Avoids (leaseKey key))
    (hlive : s.live (leaseKey key) = some l₀) (hI : l₀.hasILease = false)
    (hl : s'.find (leaseKey key) = some l) :
    l.hasILease = false := by
  obtain ⟨l₁, hl₁, atime, rfl⟩ := h.same_of_avoids hP hl
  rw [(live_eq_some.mp hlive).1] at hl₁
  cases hl₁
  exact hI

theorem Perm.avoids_none (n : Bytes) : Perm.none.Avoids n :=
  ⟨fun _ h => h, fun _ _ h => h, fun _ h => h⟩

theorem quarantineEnds_itemQuarantineAndRegister (hk : key.length ≤ keyMaxLen)
    (ht : tid.length ≤ tidMaxLen) (htid : Unprefixed tid) :
    wlp (itemQuarantineAndRegister tid key) (fun _ s' => QuarantineEnds c s key True s') c s := by
  refine (lease_itemQuarantineAndRegister hk ht htid.u8Name.ne_leaseKey).mono fun _ s' hs' =>
    ⟨fun _ l hl => ?_, fun _ _ _ => .inr (.inl trivial)⟩
  rcases hs' l hl with ⟨l₀, -, hI, -, atime, rfl⟩ | ⟨l₀, hinv, atime, rfl⟩
  · exact hI
  · obtain ⟨-, data, -, addr, cas, -, rfl⟩ := hinv
    rfl

theorem quarantineEnds_itemQuarantineAndRead (hk : key.length ≤ keyMaxLen) (htid : Unprefixed tid) :
    wlp (itemQuarantineAndRead tid key leaseToken) (fun r s' =>
      QuarantineEnds c s key (r.newLeaseToken ≠ leaseHotmiss) s') c s := by
  refine (lease_itemQuarantineAndRead hk htid.u8Name.ne_leaseKey).mono fun r s' hs' => ?_
  rcases hs' with ⟨-, -, hl⟩ | ⟨l, hlive, hq, hs', -⟩
  · exact ⟨fun _ l hl' => hl.noILease (by simp) hl', fun _ _ _ => .inr (.inr ⟨.qRef, .inl rfl, hl⟩)⟩
  · have hI := Item.not_hasILease_of_hasQLease hq
    refine ⟨fun _ l' hl' => hs'.noILease (Perm.avoids_none _) hlive hI hl', fun l' hlive' hI' => ?_⟩
    rw [hlive] at hlive'
    cases hlive'
    simp [hI] at hI'

/-- An incremental update on a key, however it is answered. -/
theorem IqDeltaLease.quarantineEnds {r : IqDeltaResult} (h : IqDeltaLease c s key r s') :
    QuarantineEnds c s key granted s' := by
  rcases h with ⟨-, -, hl⟩ | ⟨l, hlive, hI, hs'⟩
  · exact ⟨fun _ l hl' => hl.noILease (by simp) hl', fun _ _ _ => .inr (.inr ⟨.qInc, .inr rfl, hl⟩)⟩
  · refine ⟨fun _ l' hl' => hs'.noILease (Perm.avoids_except _) hlive hI hl',
      fun l' hlive' hI' => ?_⟩
    rw [hlive] at hlive'
    cases hlive'
    simp [hI] at hI'

/-- How the line of a request for a Q lease ends. -/
theorem quarantineEnds_ascDispatch (hids : ∀ tid ∈ req.ids, Unprefixed tid)
    (hq : req.quarantines = some key) :
    wlp (ascDispatch req) (fun out s' => QuarantineEnds c s key (∃ r, out = .reply r ∧
        r.grants = true) s') c s := by
  have hrefused : ∀ r ∈ Reply.refusals,
      QuarantineEnds c s key (∃ r', Outcome.reply r = .reply r' ∧ r'.grants = true) s := by
    refine fun r hr => .refused ?_
    rintro ⟨_, ⟨⟩, hg⟩
    simp only [Reply.refusals, mem_cons, not_mem_nil, or_false] at hr
    rcases hr with rfl | rfl | rfl <;> cases hg
  cases req with
  | qareg cfg key tid =>
    cases hq
    rw [ascDispatch, ascProcessQareg]
    refine wlp_ascCheckConfig hrefused fun _ => wlp_ascCheckLength hrefused fun hk =>
      wlp_ascCheckLength hrefused fun ht => ?_
    refine .bind ((quarantineEnds_itemQuarantineAndRegister hk ht
      (hids tid (by simp [Request.ids]))).mono fun _ s' hs' =>
      .pure ⟨fun _ => hs'.noILease trivial, fun _ _ _ => .inr (.inl ⟨_, rfl, rfl⟩)⟩)
  | qaread cfg key readValue leaseToken tid =>
    cases hq
    rw [ascDispatch, ascProcessQaread]
    refine wlp_ascCheckConfig hrefused fun _ => wlp_ascCheckLength hrefused fun hk => ?_
    refine .bind ((quarantineEnds_itemQuarantineAndRead hk (hids tid (by simp [Request.ids]))).mono
      fun r s' hs' => .pure ⟨?_, fun l hl hI => ?_⟩)
    · rintro ⟨_, ⟨⟩, hg⟩
      exact hs'.noILease (by simpa [Reply.grants] using hg)
    · rcases hs'.ofILease l hl hI with h | h | h
      · exact .inl h
      · exact .inr (.inl ⟨_, rfl, by simpa [Reply.grants] using h⟩)
      · exact .inr (.inr h)
  | iqDelta incr cfg key delta tid =>
    cases hq
    rw [ascDispatch, ascProcessIqDelta]
    refine wlp_ascCheckConfig hrefused fun _ => wlp_ascCheckLength hrefused fun hk => ?_
    split
    · exact .pure (hrefused _ (by simp [Reply.refusals]))
    · next amount hdelta =>
      exact .bind ((lease_itemIqincrIqdecr hk
        (unprefixed_of_mcStrtoull hdelta).u8Name.ne_leaseKey).mono fun r s' hs' =>
        .pure hs'.quarantineEnds)
  | iqConcat append cfg key vlen tid =>
    cases hq
    rw [ascDispatch, ascProcessIqConcat]
    refine wlp_ascCheckLength hrefused fun _ => wlp_ascCheckConfig hrefused fun _ => ?_
    rw [ascAllocConcat, wlp_bind, wlp_itemAlloc]
    intro _
    cases s.room with
    | false =>
      refine .pure ⟨?_, fun _ _ _ => .inl (Evolve.refl _ s).allocate⟩
      rintro ⟨_, ⟨⟩, ⟨⟩⟩
    | true =>
      refine .pure ⟨?_, fun _ _ _ => .inl (Evolve.refl _ s).allocate⟩
      rintro ⟨_, ⟨⟩, -⟩
  | _ => cases hq

end Lines

/-- How the body of an incremental update ends. -/
theorem quarantineEnds_ascCompleteNread {append : Bool} (hp : p.completion = .iqConcat append tid)
    (hk : p.item.key.length ≤ keyMaxLen) (htid : Unprefixed tid) :
    wlp (ascCompleteNread p body) (fun r s' =>
      QuarantineEnds c s p.item.key (r.grants = true) s') c s := by
  rw [ascCompleteNread, hp]
  split
  · exact .pure (.refused (by simp [Reply.grants]))
  · rw [ascComplete, wlp_bind]
    exact (lease_itemIqappendIqprepend hk htid.u8Name.ne_leaseKey).mono
      fun r s' hs' => .pure hs'.quarantineEnds

/-- How the body of a fill ends. -/
theorem fillEnds_ascCompleteNread (hp : p.completion = .store (.iqset leaseToken))
    (hplain : Plain (p.filled body)) :
    wlp (ascCompleteNread p body) (fun r => FillEnds s p.item.key leaseToken
        (r = .stored)) c s := by
  rw [ascCompleteNread, hp]
  split
  · exact .pure (.inr ⟨by simp, .refl _ s⟩)
  · rw [ascComplete, wlp_bind]
    refine (fillEnds_itemStore_iqset hplain).mono fun r s' hs' => .pure ?_
    rcases hs' with ⟨rfl, h⟩ | ⟨hr, h⟩
    · exact .inl ⟨rfl, h⟩
    · exact .inr ⟨by cases r <;> simp_all [ascStoreReply], h⟩

namespace Prepared

variable {key : Bytes}

variable (h : Prepared c s req p)

include h

/-- The body of a request for a Q lease is that of an incremental update. -/
theorem of_quarantines (hq : req.quarantines = some key) :
    ∃ append, ∃ tid ∈ req.ids, p.completion = .iqConcat append tid ∧ p.item.key = key := by
  have hmem := h.key_mem
  obtain ⟨hp, -, -⟩ := h
  cases req with
  | iqConcat append cfg key' vlen tid =>
    cases hq
    refine ⟨append, u8Name tid, by simp [Request.ids], ?_, by simpa [Request.keys] using hmem⟩
    cases hp
    rfl
  | qareg | qaread | iqDelta => cases hp
  | _ => cases hq

/-- An incremental update waits for the body of a request for a Q lease, and files the record of the
transaction under its identifier. -/
theorem quarantines_of {append : Bool} (hc : p.completion = .iqConcat append tid) :
    req.quarantines = some p.item.key ∧ tid ∈ req.ids ∧ u8Name tid ∈ req.records := by
  have hmem := h.key_mem
  obtain ⟨hp, -, -⟩ := h
  cases req with
  | iqConcat append' cfg key vlen tid' =>
    cases hp
    cases hc
    exact ⟨congrArg some (mem_singleton.mp hmem).symm, mem_singleton_self _,
      by simp [Request.records, u8Name_of_lt (length_u8Name_lt _)]⟩
  | update | sar | swap | oqswap | oqwrite | oqConcat => cases hp; cases hc
  | _ => cases hp

theorem of_fill (hf : req.fill = some (key, leaseToken)) :
    p.completion = .store (.iqset leaseToken) ∧ p.item.key = key := by
  have hmem := h.key_mem
  obtain ⟨hp, -, -⟩ := h
  cases req with
  | update cmd cfg frag key' flags exptime vlen =>
    cases cmd with
    | iqset leaseToken' =>
      cases hf
      refine ⟨?_, by simpa [Request.keys] using hmem⟩
      cases hp
      rfl
    | _ => cases hf
  | _ => cases hf

/-- A fill waits for the body of an `iqset`. -/
theorem fill_of (hc : p.completion = .store (.iqset leaseToken)) :
    req.fill = some (p.item.key, leaseToken) := by
  have hmem := h.key_mem
  obtain ⟨hp, -, -⟩ := h
  cases req with
  | update cmd cfg frag key' flags exptime vlen =>
    cases hp
    cases hc
    exact congrArg (fun k => some (k, leaseToken)) (mem_singleton.mp hmem).symm
  | sar | swap | iqConcat | oqswap | oqwrite | oqConcat => cases hp; cases hc
  | _ => cases hp

/-- A request for a value waits for no body. -/
theorem misses_eq_none : req.misses = none := by
  obtain ⟨hp, -, -⟩ := h
  cases req with
  | iqget | iset => cases hp
  | _ => rfl

end Prepared

end Rejig
