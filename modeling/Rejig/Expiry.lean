import Rejig.Records

/-!
# Expiry of quarantined values

A writer that registers a key with `qareg` and dies must not leave the old value behind: the value
is given the expiry of the invalidate lease, so that it is gone when the lease is.  Refresh and
increment leases do not touch the value, and neither `set` nor its relatives look at leases, so the
relation between the two expiry times holds for invalidate leases, and for values that no command
has stored since the key was registered.

`Server.Fenced` is about two records at once.  Most requests change neither expiry, and that is read
off their permissions.  The others are looked at together with the lease: `qareg` makes the two
times equal, and whatever ends a lease, or stores a value under one that it takes, leaves one of the
two records missing.
-/

namespace Rejig

open Prog Server List Bool

variable {cfgId pending : Int} {h : History} {n tid : Bytes} {s₀ : Server}

/-! ## The two expiry times -/

/-- The value of a key, if there is one, expires no later than a live invalidate lease on the
key. -/
def Server.Fenced (s : Server) (k : Bytes) : Prop :=
  ∀ v l, s.find k = some v → s.live (leaseKey k) = some l → l.hasQInvLease = true →
    v.exptime ≠ 0 ∧ v.exptime ≤ l.exptime

/-- A permission under which the value of a key keeps its expiry, and an invalidate lease on it is
neither made nor prolonged. -/
structure Perm.KeepsExpiry (P : Perm) (s : Server) (k : Bytes) : Prop where
  editValue : ∀ o o', P.edit k o o' → o'.exptime = o.exptime
  installValue : ∀ o', P.install k o' → ∃ o, s.live k = some o ∧ o'.exptime = o.exptime
  editLease : ∀ o o', P.edit (leaseKey k) o o' → o'.hasQInvLease = true →
    o.hasQInvLease = true ∧ o'.exptime = o.exptime
  installLease : ∀ o', P.install (leaseKey k) o' → o'.hasQInvLease = false

section Fenced

variable {c : Settings} {P : Perm} {s s' : Server} {k : Bytes}

theorem Perm.Avoids.keepsExpiry (hv : P.Avoids k) (hl : P.Avoids (leaseKey k)) :
    P.KeepsExpiry s k where
  editValue o o' he := absurd he (hv.2.1 o o')
  installValue o' hi := absurd hi (hv.2.2 o')
  editLease o o' he := absurd he (hl.2.1 o o')
  installLease o' hi := absurd hi (hl.2.2 o')

/-- Nothing appears under a name that is left alone. -/
theorem Evolve.find_eq_none (h : Evolve P s s') (hP : P.Avoids n) (hs : s.find n = none) :
    s'.find n = none := by
  cases hf : s'.find n with
  | none => rfl
  | some it' =>
    obtain ⟨it, hit, -⟩ := h.same_of_avoids hP hf
    rw [hs] at hit
    cases hit

/-- Dropping a lease leaves the value of its key alone. -/
theorem evolve_itemDropLease_except {leaseIt : Item} (hs : Evolve (.except k) s₀ s)
    (hl : s.live (leaseKey k) = some leaseIt) :
    wlp (itemDropLease tid k leaseIt) (fun _ => Evolve (.except k) s₀) c s := by
  exact evolve_itemDropLease hs hl (fun _ => leaseKey_ne_self k) (fun _ _ _ => leaseKey_ne_self k)
    fun _ _ => leaseKey_ne_self k

theorem Server.Fenced.of_value_none (h : s.find k = none) : s.Fenced k := by
  intro v l hv
  rw [h] at hv
  cases hv

theorem Server.Fenced.of_lease_none (h : s.find (leaseKey k) = none) : s.Fenced k := by
  intro v l _ hl
  rw [live_of_find_none h] at hl
  cases hl

/-- Where the expiry of a value comes from. -/
theorem Advance.value_exptime (h : Advance P s s') (hP : P.KeepsExpiry s k) {v' : Item}
    (hv : s'.find k = some v') : ∃ v, s.find k = some v ∧ v'.exptime = v.exptime := by
  refine h.invariant (I := fun o => ∀ v', o = some v' → ∃ v, s.find k = some v ∧
    v'.exptime = v.exptime)
    ?_ (fun v hv => ⟨v, hv, rfl⟩) v' hv
  rintro o o' hchange ho v' rfl
  cases hchange with
  | @touch it now => exact ho it rfl
  | @edit it _ he =>
    obtain ⟨v, hv, hexp⟩ := ho it rfl
    exact ⟨v, hv, (hP.editValue it v' he).trans hexp⟩
  | install hi =>
    obtain ⟨v, hv, hexp⟩ := hP.installValue v' hi
    exact ⟨v, (live_eq_some.mp hv).1, hexp⟩

/-- Where an invalidate lease comes from. -/
theorem Advance.invLease_exptime (h : Advance P s s') (hP : P.KeepsExpiry s k) {l' : Item}
    (hl : s'.find (leaseKey k) = some l') (hinv : l'.hasQInvLease = true) :
    ∃ l, s.find (leaseKey k) = some l ∧ l.hasQInvLease = true ∧ l'.exptime = l.exptime := by
  refine h.invariant (I := fun o => ∀ l', o = some l' → l'.hasQInvLease = true →
    ∃ l, s.find (leaseKey k) = some l ∧ l.hasQInvLease = true ∧ l'.exptime = l.exptime)
    ?_ (fun l hl hinv => ⟨l, hl, hinv, rfl⟩) l' hl hinv
  rintro o o' hchange ho l' rfl hinv
  cases hchange with
  | @touch it now => exact ho it rfl hinv
  | @edit it _ he =>
    obtain ⟨hinv₀, hexp₀⟩ := hP.editLease it l' he hinv
    obtain ⟨l, hl, hinv₁, hexp⟩ := ho it rfl hinv₀
    exact ⟨l, hl, hinv₁, hexp₀.trans hexp⟩
  | install hi =>
    rw [hP.installLease l' hi] at hinv
    cases hinv

theorem Advance.fenced (h : Advance P s s') (hP : P.KeepsExpiry s k) (hold : s.oldestLive = 0)
    (hs : s.Fenced k) : s'.Fenced k := by
  intro v' l' hv hl hinv
  obtain ⟨hfind, hdead⟩ := live_eq_some.mp hl
  obtain ⟨v, hv₀, hvexp⟩ := h.value_exptime hP hv
  obtain ⟨l, hl₀, hinv₀, hlexp⟩ := h.invLease_exptime hP hfind hinv
  have hlive : s.live (leaseKey k) = some l := by
    refine live_eq_some.mpr ⟨hl₀, ?_⟩
    rw [dead_of_oldestLive (h.oldestLive.trans hold), Item.expired, hlexp] at hdead
    rw [dead_of_oldestLive hold, Item.expired]
    have hnow := h.now
    simp only [ne_eq, and_eq_false_iff, decide_eq_false_iff_not] at hdead ⊢
    omega
  rw [hvexp, hlexp]
  exact hs v l hv₀ hlive hinv₀

theorem Evolve.fenced_of_avoids (h : Evolve P s s') (hv : P.Avoids k) (hl : P.Avoids (leaseKey k))
    (hold : s.oldestLive = 0) (hs : s.Fenced k) : s'.Fenced k :=
  h.advance.fenced (hv.keepsExpiry hl) hold hs

/-! ## Operations on both records -/

/-- `qareg` makes the two times equal. -/
theorem expires_itemQuarantineAndRegister :
    wlp (itemQuarantineAndRegister tid k) (fun _ s' => ∀ v l, s'.find k = some v →
      s'.live (leaseKey k) = some l → v.exptime = l.exptime) c s := by
  simp only [itemQuarantineAndRegister, wlp_bind]
  -- nothing is needed of what comes before the two records are read
  intro transIt s₁ _ leaseIt s₂ _ leaseIt' s₃ _ u s₄ _ u' s₅ _
  simp only [itemGetLease, wlp_itemGet, wlp_whenSome, wlp_itemWrite, live_reap]
  have hne : k ≠ leaseKey k := (leaseKey_ne_self k).symm
  refine ⟨fun hnone v l hv => ?_, fun it hit => ⟨fun hnone v l _ hl => ?_,
    fun lease hlease v l hv hl => ?_⟩⟩
  · rw [find_reap, if_neg hne, find_reap_self, hnone] at hv
    cases hv
  · rw [hnone] at hl
    cases hl
  · have hik : it.key = k := key_of_live hit
    have hfind : ((s₅.reap k).reap (leaseKey k)).find it.key = some it := by
      rw [hik, find_reap, if_neg hne, find_reap_self, hit]
    have hwrite := fun n => find_write_of_find (f := fun it => { it with exptime := lease.exptime })
      ((s₅.reap k).reap (leaseKey k)) n (fun _ => rfl) hfind
    rw [hwrite, if_pos hik.symm] at hv
    rw [Server.live, hwrite, if_neg (hik ▸ hne.symm), dead_write] at hl
    change ((s₅.reap k).reap (leaseKey k)).live (leaseKey k) = some l at hl
    rw [live_reap, live_reap, hlease] at hl
    cases hv
    cases hl
    rfl

/-- The value that was found is gone. -/
theorem find_unlink_live {s : Server} {it : Item} (hit : s.live k = some it) :
    ((s.reap k).unlink it).find k = none := by
  have hik : it.key = k := key_of_live hit
  rw [find_unlink_of_find _ _ (by rw [hik, find_reap_self, hit]), if_pos hik.symm]

/-- The loop of `dar` leaves no value. -/
theorem dropped_itemDeleteAndReleaseKey :
    wlp (itemDeleteAndReleaseKey tid k) (fun _ s' => s'.find k = none) c s := by
  have hdrop : wlp (whenSome (s.live k) itemUnlink) (fun _ s' => s'.find k = none) c
    (s.reap k) := by
    simp only [wlp_whenSome, wlp_itemUnlink]
    exact ⟨fun hnone => by rw [find_reap_self, hnone], fun it hit => find_unlink_live hit⟩
  simp only [itemDeleteAndReleaseKey, itemGetLease, wlp_bind, wlp_itemGet]
  refine hdrop.mono fun _ s₁ hs₁ => ?_
  -- what is done to the lease stays under its name
  have hevolve : Evolve (.except k) s₁ (s₁.reap (leaseKey k)) := (Evolve.refl _ s₁).reap _
  rw [wlp_whenSome]
  refine ⟨fun _ => hevolve.find_eq_none (Perm.avoids_except k) hs₁, fun leaseIt hl => ?_⟩
  refine (evolve_itemDropLease_except hevolve (by rwa [live_reap])).mono fun _ s₂ hs₂ => ?_
  exact hs₂.find_eq_none (Perm.avoids_except k) hs₁

/-- The end of the loop of `commit`, after the value: it works under other names. -/
theorem evolve_commitEnd {it pvIt : Option Item} (hk : (pendingKey k).length < 256)
    (hs : Evolve (.except n) s₀ s) (hn : n ≠ pendingKey k) (hpv : ∀ o, pvIt = some o → o.key ≠ n) :
    wlp (itemCommitPending k it pending cfgId) (fun _ s₁ => wlp (whenSome pvIt itemUnlink) (fun _ =>
        Evolve (.except n) s₀) c s₁) c s := by
  refine (evolve_itemCommitPending hs hk (fun _ => hn.symm) (fun _ _ _ => hn.symm)
    fun _ _ => hn.symm).mono fun _ s₁ hs₁ => ?_
  rw [wlp_whenSome]
  exact ⟨fun _ => hs₁, fun o ho => wlp_itemUnlink.mpr (hs₁.unlink o fun _ _ _ => hpv o ho)⟩

/-- The loop of `commit` drops the value under an invalidate lease, and any other Q lease. -/
theorem ends_itemCommitKey (hun : Unprefixed k) :
    wlp (itemCommitKey tid pending cfgId k) (fun _ s' => s'.find k = none ∨
      s'.find (leaseKey k) = none ∨ Evolve .none s s') c s := by
  have hs := ((Evolve.refl .none s).reap (leaseKey k)).reap (versionKey k)
  simp only [itemCommitKey, itemGetLease, itemGetPendingVersion, wlp_bind, wlp_itemGet,
    wlp_whenSome, wlp_when, live_reap]
  refine ⟨fun _ => .inr (.inr hs), fun l hl => ⟨fun hQ => ?_, fun _ => .inr (.inr hs)⟩⟩
  have hlk : l.key = leaseKey k := key_of_live hl
  have hlen : (leaseKey k).length < 256 := length_lt_of_find (live_eq_some.mp hl).1
  have hlen' : k.length < 256 := by
    simp only [leaseKey, length_cons] at hlen
    omega
  have hpv : ∀ {n}, n ≠ versionKey k → ∀ o, s.live (versionKey k) = some o → o.key ≠ n := by
    rintro n hn o ho rfl
    exact hn (key_of_live ho)
  generalize s.live (versionKey k) = pvIt at hpv
  rw [itemCommitLeased]
  cases hinv : l.hasQInvLease with
  | true =>
    -- whatever the value is by then, it is dropped
    simp only [wlp_bind, wlp_itemGet]
    intro _ s₂ _ _ s₃ _
    have hdrop : wlp (whenSome (s₃.live k) fun it => when (pvIt.isNone || true) (itemUnlink it))
        (fun _ s' => s'.find k = none) c (s₃.reap k) := by
      simp only [Bool.or_true, when_true, wlp_whenSome, wlp_itemUnlink]
      exact ⟨fun hnone => by rw [Server.find_reap_self, hnone], fun it hit => find_unlink_live hit⟩
    refine hdrop.mono fun _ s₄ hs₄ => ?_
    refine (evolve_commitEnd hlen (.refl (.except k) s₄) hun.ne_pendingKey
      (hpv hun.ne_versionKey)).mono fun _ s₅ hs₅ => hs₅.mono fun _ s' hs' => ?_
    exact .inl (hs'.find_eq_none (Perm.avoids_except k) hs₄)
  | false =>
    have hnone : (((s.reap (leaseKey k)).reap (versionKey k)).unlink l).find
      (leaseKey k) = none := by
      rw [find_unlink_of_find, if_pos hlk.symm]
      rw [hlk, find_reap, if_neg leaseKey_ne_versionKey, find_reap_self, hl]
    simp only [itemDropLease, hinv, false_eq_true, if_false, wlp_bind, wlp_itemUnlink, wlp_itemGet]
    generalize ((s.reap (leaseKey k)).reap (versionKey k)).unlink l = s₂ at hnone
    have hne : k ≠ leaseKey k := hun.ne_leaseKey
    have happly : wlp (whenSome pvIt fun pvIt => itemCommitApply k pvIt pending cfgId)
        (fun _ => Evolve (.except (leaseKey k)) s₂) c s₂ := by
      rw [wlp_whenSome]
      exact ⟨fun _ => .refl _ s₂, fun pv _ => evolve_itemCommitApply (.refl _ s₂) hlen'
        (fun _ _ _ _ => hne) fun _ _ _ => hne⟩
    refine happly.mono fun _ s₃ hs₃ => ?_
    have hvalue : wlp (whenSome (s₃.live k) fun it => when (pvIt.isNone || false) (itemUnlink it))
        (fun _ => Evolve (.except (leaseKey k)) s₂) c (s₃.reap k) := by
      simp only [wlp_whenSome, wlp_when, wlp_itemUnlink]
      refine ⟨fun _ => hs₃.reap k, fun it hit => ⟨fun _ => (hs₃.reap k).unlink it fun _ _ _ => ?_,
        fun _ => hs₃.reap k⟩⟩
      rw [key_of_live hit]
      exact hne
    refine hvalue.mono fun _ s₄ hs₄ => ?_
    refine (evolve_commitEnd hlen hs₄ leaseKey_ne_pendingKey
      (hpv leaseKey_ne_versionKey)).mono fun _ s₅ hs₅ => hs₅.mono fun _ s' hs' => ?_
    exact .inr (.inl (hs'.find_eq_none (Perm.avoids_except _) hnone))

end Fenced

/-! ## Requests -/

section Requests

variable {c : Settings} {N : Naming} {s s' : Server} {k : Bytes} {req : Request} {it : Item}

theorem TokenLease.not_hasQInvLease {kind : Lease} (h : TokenLease c s k kind it)
    (hkind : kind ≠ .qInv) :
    it.hasQInvLease = false := by
  rw [Item.hasQInvLease, h.lease]
  exact decide_eq_false hkind

/-- The lines that neither register the key nor end a transaction that lists it keep both times. -/
theorem Request.keepsExpiry (hs : s.ListsKeys N) (hkeys : ∀ key ∈ req.keys, N.isKey key)
    (hids : ∀ tid ∈ req.ids, N.isTid tid) (hrec : ∀ n ∈ req.records, ¬ N.isKey n) (hk : N.isKey k)
    (hreg : ∀ cfg tid, req ≠ .qareg cfg k tid)
    (hfin : ∀ tid, req.finishes = some tid → k ∉ s.listed tid) :
    (req.perm c s).KeepsExpiry s k where
  editValue o o' he := by
    cases Request.valueWrite hrec hk (writes_of_edit he) with
    | rewrite hit h =>
      cases hit.resolve_right fun hnone => nomatch hnone.1
      exact h.exptime
    | inPlace hit h =>
      cases hit
      rw [h]
    | @delay cfg tid => exact absurd rfl (hreg cfg tid)
    | commit hmem _ => exact absurd hmem (hfin _ rfl)
  installValue o' hi := by
    cases Request.valueWrite hrec hk (writes_of_install hi) with
    | rewrite hit h => exact ⟨_, (hit.resolve_left nofun).2, h.exptime⟩
    | commit hmem _ => exact absurd hmem (hfin _ rfl)
    | inPlace hit | delay hit => cases hit
  editLease o o' he hinv := by
    cases Request.leaseWrite hs hkeys hids (writes_of_edit he) with
    | @register cfg tid _ => exact absurd rfl (hreg cfg tid)
    | finish hreq hmem _ _ _ => exact absurd hmem (hfin _ hreq)
    | release hlive h => exact absurd h.1 (hs.not_has (hids _ (by simp [Request.ids])) hlive)
    | refresh _ h | increment h => simp [h.not_hasQInvLease (by simp)] at hinv
    | mark _ ho h =>
      cases ho
      subst h
      exact ⟨hinv, rfl⟩
    | fill _ ho => cases ho
  installLease o' hi := by
    cases Request.leaseWrite hs hkeys hids (writes_of_install hi) with
    | @register cfg tid _ => exact absurd rfl (hreg cfg tid)
    | finish hreq hmem _ _ _ => exact absurd hmem (hfin _ hreq)
    | release hlive h => exact absurd h.1 (hs.not_has (hids _ (by simp [Request.ids])) hlive)
    | refresh _ h | increment h | fill _ _ h => exact h.not_hasQInvLease (by simp)
    | mark _ ho => cases ho

/-- An operation that ends a transaction keeps the relation, if each pass of its loop does. -/
theorem SeenFrom.fenced {pass : ServerM Unit} (h : SeenFrom c k pass s s') (hold : s.oldestLive = 0)
    (hpass : ∀ s, wlp pass (fun _ s' => s'.find k = none ∨ s'.find (leaseKey k) = none ∨
      Evolve .none s s') c s) (hs : s.Fenced k) : s'.Fenced k := by
  obtain ⟨s₁, s₂, h₁, hrun, h₂⟩ := h
  have hk : (Perm.apart k).Avoids k := Perm.avoids_apart (by simp [recordNames])
  have hl : (Perm.apart k).Avoids (leaseKey k) := Perm.avoids_apart (by simp [recordNames])
  have hs₁ : s₁.Fenced k := h₁.fenced_of_avoids hk hl hold hs
  have hold₁ : s₁.oldestLive = 0 := h₁.oldestLive.trans hold
  rcases hpass s₁ () s₂ hrun with hnone | hnone | hevolve
  · exact .of_value_none (h₂.find_eq_none hk hnone)
  · exact .of_lease_none (h₂.find_eq_none hl hnone)
  · refine h₂.fenced_of_avoids hk hl (hevolve.oldestLive.trans hold₁) ?_
    exact hevolve.fenced_of_avoids (Perm.avoids_none _) (Perm.avoids_none _) hold₁ hs₁

/-- A line keeps the relation, unless it registers the key. -/
theorem fenced_ascDispatch (hiq : req.isIq = true) (hs : s.ListsKeys N)
    (hkeys : ∀ key ∈ req.keys, N.isKey key) (hids : ∀ tid ∈ req.ids, N.isTid tid)
    (hrec : ∀ n ∈ req.records, ¬ N.isKey n) (hk : N.isKey k) (hold : s.oldestLive = 0)
    (hreg : ∀ cfg tid, req ≠ .qareg cfg k tid) (hf : s.Fenced k) :
    wlp (ascDispatch req) (fun _ s' => s'.Fenced k) c s := by
  have hapart : ∀ {s'}, Evolve (.apart k) s s' → s'.Fenced k := fun h =>
    h.fenced_of_avoids (Perm.avoids_apart (by simp [recordNames]))
      (Perm.avoids_apart (by simp [recordNames])) hold hf
  by_cases hfin : ∀ tid, req.finishes = some tid → k ∉ s.listed tid
  · refine (evolve_ascDispatch hiq).mono fun _ s' hs' => ?_
    exact hs'.advance.fenced (Request.keepsExpiry hs hkeys hids hrec hk hreg hfin) hold hf
  · cases req with
    | dar cfg tid =>
      rw [ascDispatch, ascProcessDar]
      refine wlp_ascCheckConfig (fun _ _ => hf) fun _ =>
        wlp_ascCheckLength (fun _ _ => hf) fun _ => ?_
      refine .bind ((split_itemDeleteAndRelease hs (hids tid (by simp [Request.ids])) hk).mono ?_)
      rintro r s' ⟨hout, hin⟩
      have hs' : s'.Fenced k := by
        by_cases hmem : k ∈ s.listed tid
        · obtain ⟨transIt, -, -, hseen⟩ := hin hmem
          exact hseen.fenced hold (fun _ => dropped_itemDeleteAndReleaseKey.mono fun _ _ => .inl) hf
        · exact hapart (hout hmem)
      cases r <;> exact .pure hs'
    | commit cfg frag tid pending =>
      rw [ascDispatch, ascProcessCommit]
      refine wlp_ascCheckLength (fun _ _ => hf) fun _ =>
        wlp_ascCheckConfig (fun _ _ => hf) fun _ => ?_
      refine .bind ((split_itemCommit hs (hids tid (by simp [Request.ids])) hk).mono ?_)
      rintro r s' ⟨hout, hin⟩
      have hs' : s'.Fenced k := by
        by_cases hmem : k ∈ s.listed tid
        · obtain ⟨transIt, -, -, hseen⟩ := hin hmem
          exact hseen.fenced hold (fun _ => ends_itemCommitKey (N.key_unprefixed hk)) hf
        · exact hapart (hout hmem)
      cases r <;> exact .pure hs'
    | _ => exact absurd (by rintro _ ⟨⟩) hfin

/-- Registering the key makes the two times equal. -/
theorem expires_ascProcessQareg {cfg : Int} :
    wlp (ascProcessQareg cfg k tid) (fun out s' => out = .reply .qInvLeasehold ∧
      (∀ v l, s'.find k = some v → s'.live (leaseKey k) = some l → v.exptime = l.exptime) ∨
      out ≠ .reply .qInvLeasehold ∧ s' = s) c s := by
  have hrefuse : ∀ r ∈ Reply.refusals, Outcome.reply r ≠ .reply .qInvLeasehold := by
    rintro r hr ⟨⟩
    simp [Reply.refusals] at hr
  rw [ascProcessQareg]
  refine wlp_ascCheckConfig (fun r hr => .inr ⟨hrefuse r hr, rfl⟩) fun _ => ?_
  refine wlp_ascCheckLength (fun r hr => .inr ⟨hrefuse r hr, rfl⟩) fun _ => ?_
  refine wlp_ascCheckLength (fun r hr => .inr ⟨hrefuse r hr, rfl⟩) fun _ => ?_
  exact .bind (expires_itemQuarantineAndRegister.mono fun _ s' h => .pure (.inl ⟨rfl, h⟩))

theorem keepsExpiry_iqDeltaPerm {key : Bytes} (hk : Unprefixed k) (htid : Unprefixed tid)
    (hrec : u8Name tid ≠ k) :
    (iqDeltaPerm c s tid key).KeepsExpiry s k where
  editValue o o' he := by
    rcases he with ⟨hn, -⟩ | ⟨hn, -⟩
    · exact absurd hn hk.ne_versionKey
    · exact absurd hn.symm hrec
  installValue o' hi := by
    rcases hi with ⟨hn, -⟩ | ⟨hn, -⟩ | ⟨hn, -⟩
    · exact absurd hn hk.ne_leaseKey
    · exact absurd hn hk.ne_versionKey
    · exact absurd hn.symm hrec
  editLease o o' he := by
    rcases he with ⟨hn, -⟩ | ⟨hn, -⟩
    · exact absurd hn leaseKey_ne_versionKey
    · exact absurd hn.symm htid.u8Name.ne_leaseKey
  installLease o' hi := by
    rcases hi with ⟨hn, h⟩ | ⟨hn, -⟩ | ⟨hn, -⟩
    · obtain rfl := leaseKey_inj.mp hn
      exact h.not_hasQInvLease (by simp)
    · exact absurd hn leaseKey_ne_versionKey
    · exact absurd hn.symm htid.u8Name.ne_leaseKey

/-- The completions of requests on other keys keep both times. -/
theorem Completion.keepsExpiry {completion : Completion} (hk : Unprefixed k)
    (hkey : Unprefixed it.key) (hne : k ≠ it.key)
    (hrec : ∀ append tid, completion = .iqConcat append tid → Unprefixed tid ∧ u8Name tid ≠ k) :
    (completion.perm c s it).KeepsExpiry s k := by
  have hlk : leaseKey k ≠ it.key := hkey.ne_leaseKey.symm
  cases completion with
  | store cmd =>
    exact ⟨fun _ _ he => absurd he.1 hne, fun _ hi => absurd hi.1 hne,
      fun _ _ he => absurd he.1 hlk, fun _ hi => absurd hi.1 hlk⟩
  | iqConcat append tid =>
    obtain ⟨htid, hcut⟩ := hrec append tid rfl
    exact keepsExpiry_iqDeltaPerm hk htid hcut
  | sar token =>
    exact ⟨fun _ _ he => absurd he.1 hne, fun _ hi => absurd hi.1 hne,
      fun _ _ he => absurd he.1 hlk, fun _ hi => absurd hi.1 hlk⟩
  | swap token =>
    exact ⟨fun _ _ he => absurd he.1 hk.ne_versionKey, fun _ hi => absurd hi.1 hk.ne_versionKey,
      fun _ _ he => absurd he.1 leaseKey_ne_versionKey, fun _ hi =>
        absurd hi.1 leaseKey_ne_versionKey⟩
  | _ => exact (Perm.avoids_none k).keepsExpiry (Perm.avoids_none _)

/-- The commands that store a value without looking at the lease of its key. -/
def Update.ignoresLease : Update → Bool
  | set | add | replace | cas _ => true
  | _ => false

/-- A body keeps the relation, unless a value is stored without looking at the lease. -/
theorem fenced_ascCompleteNread {p : Pending} {body : Bytes} (hiq : p.completion.isIq = true)
    (hlen : p.item.key.length ≤ keyMaxLen) (hplain : Plain (p.filled body))
    (hkey : Unprefixed p.item.key) (hrec : ∀ append tid, p.completion = .iqConcat append tid →
      Unprefixed tid ∧ u8Name tid ≠ k) (hk : Unprefixed k) (hold : s.oldestLive = 0)
    (hf : s.Fenced k) :
    wlp (ascCompleteNread p body) (fun r s' => s'.Fenced k ∨ r = .stored ∧ p.item.key = k ∧
      ∃ cmd, p.completion = .store cmd ∧ cmd.ignoresLease = true) c s := by
  have hnone : ∀ {s'}, Evolve .none s s' → s'.Fenced k := fun h =>
    h.fenced_of_avoids (Perm.avoids_none _) (Perm.avoids_none _) hold hf
  by_cases hne : k = p.item.key
  · subst hne
    rw [ascCompleteNread]
    split
    · exact .pure (.inl hf)
    change wlp (ascComplete p.completion (p.filled body)) _ c s
    have hlen' : (p.filled body).key.length < 256 := hlen.trans_lt (by decide)
    cases hc : p.completion with
    | store cmd =>
      rw [ascComplete, wlp_bind]
      by_cases hfill : ∃ token, cmd = .iqset token
      · obtain ⟨token, rfl⟩ := hfill
        refine (fillEnds_itemStore_iqset hplain).mono fun r s' h => .pure (.inl ?_)
        rcases h with ⟨-, hlease, -⟩ | ⟨-, hs'⟩
        · exact .of_lease_none hlease
        · exact hnone hs'
      · refine (storeEnds_itemStore (fun token h => hfill ⟨token, h⟩) hlen').mono fun r s' h =>
          .pure ?_
        rcases h with ⟨rfl, hlinks | hs'⟩ | ⟨-, hs'⟩
        · refine .inr ⟨rfl, rfl, cmd, rfl, ?_⟩
          cases cmd with
          | iqset token => exact absurd ⟨token, rfl⟩ hfill
          | append | prepend => cases hlinks
          | _ => rfl
        · refine .inl (hs'.advance.fenced ⟨?_, ?_, ?_, ?_⟩ hold hf)
          · exact fun o o' he => he.2.exptime
          · rintro o' ⟨-, o, hlive, hrew⟩
            exact ⟨o, hlive, hrew.exptime⟩
          · exact fun o o' he => absurd he.1 (leaseKey_ne_self _)
          · exact fun o' hi => absurd hi.1 (leaseKey_ne_self _)
        · exact .inl (hnone hs')
    | iqConcat append tid =>
      obtain ⟨htid, hcut⟩ := hrec append tid hc
      rw [ascComplete, wlp_bind]
      refine (evolve_itemIqappendIqprepend hlen).mono fun _ s' hs' => .pure (.inl ?_)
      exact hs'.advance.fenced (keepsExpiry_iqDeltaPerm hk htid hcut) hold hf
    | sar token =>
      rw [ascComplete, wlp_bind]
      refine swapEnds_itemSwapAndRelease.mono fun r s' h => ?_
      have hs' : s'.Fenced p.item.key := by
        rcases h with ⟨hlease, -⟩ | ⟨-, hs'⟩
        · exact .of_lease_none hlease
        · exact hnone hs'
      cases r <;> exact .pure (.inl hs')
    | swap token =>
      have hswap : wlp (itemSwap (p.filled body) token) (fun _ =>
        Evolve (swapPerm p.item.key) s) c s :=
        evolve_itemSwap hlen
      rw [ascComplete, wlp_bind]
      refine hswap.mono fun r s' h => ?_
      have hs' : s'.Fenced p.item.key := by
        refine h.advance.fenced ⟨?_, ?_, ?_, ?_⟩ hold hf
        · exact fun o o' he => absurd he.1 hk.ne_versionKey
        · exact fun o' hi => absurd hi.1 hk.ne_versionKey
        · exact fun o o' he => absurd he.1 leaseKey_ne_versionKey
        · exact fun o' hi => absurd hi.1 leaseKey_ne_versionKey
      cases r <;> exact .pure (.inl hs')
    | _ => rw [hc] at hiq; cases hiq
  · refine (evolve_ascCompleteNread hiq hlen).mono fun r s' hs' => .inl ?_
    exact hs'.advance.fenced (Completion.keepsExpiry hk hkey hne hrec) hold hf

end Requests

/-! ## Runs -/

/-- The step stores a value for the key with a command that does not look at the lease. -/
def StoresOver (k : Bytes) (t : Moment) : Prop :=
  ∃ conn cmd cfg frag flags exptime vlen p data, cmd.ignoresLease = true ∧
    t.label = .body conn (.update cmd cfg frag k flags exptime vlen) p data .stored

/-- The step registers a transaction for the key. -/
def Registers (k : Bytes) (t : Moment) : Prop :=
  ∃ conn cfg tid, t.label = .line conn (.qareg cfg k tid) (.reply .qInvLeasehold)

/-- Whatever was stored for the key without looking at its lease, a transaction has registered the
key since. -/
def RegisteredSince (k : Bytes) (h : History) : Prop :=
  ∀ newer t older, h = newer ++ t :: older → StoresOver k t → ∃ t' ∈ newer, Registers k t'

section Runs

variable {c : Settings} {N : Naming} {w w' : World} {e : Event} {k : Bytes}

/-- A step keeps the relation, if it neither registers the key nor stores a value for it without
looking at the lease. -/
theorem World.Step.fenced (hr : IqRun c N h w) (hstep : World.Step c w e w') (he : e.Iq N)
    (hfiles : e.FilesApart N) (hk : N.isKey k) (hreg : ¬ Registers k ⟨w, e, w'⟩)
    (hover : ¬ StoresOver k ⟨w, e, w'⟩) (hf : w.server.Fenced k) : w'.server.Fenced k := by
  have hold := hr.registers.2
  have hun := N.key_unprefixed hk
  cases e with
  | line conn req out =>
    have hrun := hstep.of_line
    by_cases hq : ∃ cfg tid, req = .qareg cfg k tid
    · obtain ⟨cfg, tid, rfl⟩ := hq
      rcases expires_ascProcessQareg _ _ hrun with ⟨rfl, -⟩ | ⟨-, hsame⟩
      · exact absurd ⟨conn, cfg, tid, rfl⟩ hreg
      · rwa [hsame]
    · exact fenced_ascDispatch (he.isIq req rfl) hr.listsKeys (he.keys req rfl) (he.ids req rfl)
        (hfiles req rfl) hk hold (fun cfg tid h => hq ⟨cfg, tid, h⟩) hf _ _ hrun
  | body conn req p data r =>
    obtain ⟨hw, hrun⟩ := hstep.of_body
    obtain ⟨t₁, -, -, hp⟩ := exists_line_of_waiting hr.run hw
    have hids : ∀ append tid, p.completion = .iqConcat append tid →
      Unprefixed tid ∧ u8Name tid ≠ k := by
      intro append tid hc
      obtain ⟨-, htid, hrec⟩ := hp.quarantines_of hc
      refine ⟨N.tid_unprefixed (he.ids req rfl _ htid), ?_⟩
      rintro rfl
      exact hfiles req rfl _ hrec hk
    rcases fenced_ascCompleteNread (hp.isIq (he.isIq req rfl)) hp.short_key (hp.plain data)
      (N.key_unprefixed (he.keys req rfl _ hp.key_mem)) hids hun hold hf _ _ hrun with
      hf' | ⟨rfl, rfl, cmd, hc, hcmd⟩
    · exact hf'
    · obtain ⟨cfg, frag, key, flags, exptime, rfl, rfl, -⟩ := hp.of_store hc
      exact absurd ⟨conn, cmd, cfg, frag, flags, exptime, _, p, data, hcmd, rfl⟩ hover
  | _ =>
    have hadv := hstep.advance hr.run he.isIq
    exact hadv.fenced ((Perm.avoids_none _).keepsExpiry (Perm.avoids_none _)) hold hf

/-- The value of a registered key expires with the lease or before it, if nothing has been stored
for the key since without looking at the lease, and no record of a transaction has been filed under
it. -/
theorem IqRun.fenced (hr : IqRun c N h w) (hfiles : ∀ t ∈ h, t.label.FilesApart N) (hk : N.isKey k)
    (hover : RegisteredSince k h) : w.server.Fenced k := by
  refine hr.invariant (I := fun h w => (∀ t ∈ h, t.label.FilesApart N) → RegisteredSince k h →
    w.server.Fenced k) ?_ ?_ hfiles hover
  · intro _ _ v l hv
    cases hv
  intro h w e w' hr ih hstep he hadv hfiles hover
  by_cases hreg : Registers k ⟨w, e, w'⟩
  · obtain ⟨conn, cfg, tid, hlabel⟩ := hreg
    have hr' : IqRun c N (⟨w, e, w'⟩ :: h) w' := by
      refine ⟨.step hr.run hstep, fun t ht => ?_⟩
      rcases mem_cons.mp ht with rfl | ht
      · exact he
      · exact hr.iq t ht
    cases hlabel
    rcases expires_ascProcessQareg _ _ hstep.of_line with ⟨-, heq⟩ | ⟨hne, -⟩
    · intro v l hv hl _
      rw [heq v l hv hl]
      exact ⟨(hr'.leaseRecord (live_eq_some.mp hl).1).exptime, le_rfl⟩
    · exact absurd rfl hne
  · have hover' : ¬ StoresOver k ⟨w, e, w'⟩ := by
      intro hst
      obtain ⟨t', ht', -⟩ := hover [] ⟨w, e, w'⟩ h rfl hst
      cases ht'
    refine hstep.fenced hr he (hfiles _ mem_cons_self) hk hreg hover' ?_
    refine ih (fun t ht => hfiles t (mem_cons_of_mem _ ht)) ?_
    rintro newer t older rfl hst
    obtain ⟨t', ht', hreg'⟩ := hover (⟨w, e, w'⟩ :: newer) t older rfl hst
    rcases mem_cons.mp ht' with rfl | ht'
    · exact absurd hreg' hreg
    · exact ⟨t', ht', hreg'⟩

/-- If a writer that registered the key dies, the old value goes with its lease. -/
theorem value_expires_with_lease (hr : IqRun c N h w) (hfiles : ∀ t ∈ h, t.label.FilesApart N)
    (hk : N.isKey k) (hover : RegisteredSince k h) {v l : Item} (hv : w.server.find k = some v)
    (hl : w.server.live (leaseKey k) = some l) (hinv : l.hasQInvLease = true) :
    v.exptime ≠ 0 ∧ v.exptime ≤ l.exptime ∧ ∀ now, l.expired now = true → v.expired now = true := by
  obtain ⟨hne, hle⟩ := hr.fenced hfiles hk hover v l hv hl hinv
  refine ⟨hne, hle, fun now hexp => ?_⟩
  simp only [Item.expired, ne_eq, and_eq_true, decide_eq_true_eq] at hexp ⊢
  exact ⟨hne, hle.trans hexp.2⟩

theorem registeredSince_cons {t : Moment} (ht : Registers k t) : RegisteredSince k (t :: h) := by
  intro newer t' older heq hover
  cases newer with
  | nil =>
    obtain ⟨rfl, rfl⟩ := cons.inj heq
    obtain ⟨_, _, _, hline⟩ := ht
    obtain ⟨_, _, _, _, _, _, _, _, _, -, hbody⟩ := hover
    rw [hline] at hbody
    cases hbody
  | cons t'' newer =>
    obtain ⟨rfl, rfl⟩ := cons.inj heq
    exact ⟨t, mem_cons_self, ht⟩

end Runs

/-- The test that a step stores nothing. -/
def Event.storesNothing : Event → Bool
  | .body .. => false
  | _ => true

theorem registeredSince_of_storesNothing {k : Bytes} (hh : h.all (·.label.storesNothing) = true) :
    RegisteredSince k h := by
  rintro newer t older rfl ⟨_, _, _, _, _, _, _, _, _, -, hlabel⟩
  have ht := all_eq_true.mp hh t (by simp)
  rw [hlabel] at ht
  cases ht

/-- The test that a step files its records under none of the keys. -/
def Event.filesApart (keys : List Bytes) (e : Event) : Bool :=
  e.request.all fun req => req.records.all (· ∉ keys)

theorem Event.filesApart_ofLists {keys tids : List Bytes} {hk : ∀ n ∈ keys, Unprefixed n}
    {ht : ∀ n ∈ tids, Unprefixed n} {hd : ∀ n ∈ keys, n ∉ tids}
    (hh : h.all (·.label.filesApart keys) = true) :
    ∀ t ∈ h, t.label.FilesApart (.ofLists keys tids hk ht hd) := by
  intro t hmem req hreq
  have hrecords : ∀ n ∈ req.records, n ∉ keys := by
    simpa [Event.filesApart, hreq] using all_eq_true.mp hh t hmem
  exact hrecords

/-- The naming of the keys `k` and `1`, and the transactions `t` and `u`. -/
def expiryNaming : Naming :=
  .ofLists [[0x6b], [0x31]] [[0x75], [0x74]] (by decide) (by decide) (by decide)

theorem value_expires_with_lease_registered : ∃ (w : World) (v l : Item),
    w.server.find [0x6b] = some v ∧ w.server.live (leaseKey [0x6b]) = some l ∧
    v.exptime ≠ 0 ∧ v.exptime ≤ l.exptime ∧ ∀ now, l.expired now = true → v.expired now = true := by
  obtain ⟨h, t, w, hr, hfiles, hlast, hfound, l, hl, hinv⟩ :=
    (playable_iq : Playable {} (IqRun {} expiryNaming) _).exists_run₁
      [.line 0 (.update .set 0 (-1) [0x6b] 0 0 1), .body 0 [0x76, 0x0d, 0x0a],
        .line 1 (.qareg 0 [0x6b] [0x74])]
      (P := fun h t w => (t :: h).all (·.label.filesApart [[0x6b], [0x31]]) ∧
        t.label = .line 1 (.qareg 0 [0x6b] [0x74]) (.reply .qInvLeasehold) ∧
        (w.server.find [0x6b]).isSome ∧ ∃ l, w.server.live (leaseKey [0x6b]) = some l ∧
        l.hasQInvLease)
      (by decide +kernel)
  obtain ⟨v, hv⟩ := Option.isSome_iff_exists.mp hfound
  have ht : Registers [0x6b] t := ⟨1, 0, [0x74], hlast⟩
  exact ⟨w, v, l, hv, hl, value_expires_with_lease hr (Event.filesApart_ofLists hfiles)
    (by simp [Naming.ofLists]) (registeredSince_cons ht) hv hl hinv⟩

/-- A refresh lease does not fence the value, a `set` under an invalidate lease is not fenced by it,
and an increment by `1` files the record of its transaction over the value of the key `1`. -/
theorem value_outlives_lease :
    (∃ (h : History) (w : World) (v l : Item), IqRun {} expiryNaming h w ∧
      w.server.live [0x6b] = some v ∧ w.server.live (leaseKey [0x6b]) = some l ∧ l.lease = .qRef ∧
      v.exptime = 0) ∧
    (∃ (h : History) (w : World) (v l : Item), IqRun {} expiryNaming h w ∧
      w.server.live [0x6b] = some v ∧ w.server.live (leaseKey [0x6b]) = some l ∧ l.lease = .qInv ∧
      v.exptime = 0) ∧
    ∃ (h : History) (w : World) (v l : Item), IqRun {} expiryNaming h w ∧ RegisteredSince [0x31] h ∧
      w.server.live [0x31] = some v ∧ w.server.live (leaseKey [0x31]) = some l ∧ l.lease = .qInv ∧
      l.exptime < v.exptime := by
  refine ⟨?_, ?_, ?_⟩
  · obtain ⟨h, w, hr, ⟨v, hv, hexp⟩, l, hl, hkind⟩ :=
      (playable_iq : Playable {} (IqRun {} expiryNaming) _).exists_run
        [.line 0 (.update .set 0 (-1) [0x6b] 0 0 1), .body 0 [0x76, 0x0d, 0x0a],
          .line 1 (.qaread 0 [0x6b] 1 0 [0x74])]
        (P := fun _ w => (∃ v, w.server.live [0x6b] = some v ∧ v.exptime = 0) ∧
          ∃ l, w.server.live (leaseKey [0x6b]) = some l ∧ l.lease = .qRef) (by decide +kernel)
    exact ⟨h, w, v, l, hr, hv, hl, hkind, hexp⟩
  · obtain ⟨h, w, hr, ⟨v, hv, hexp⟩, l, hl, hkind⟩ :=
      (playable_iq : Playable {} (IqRun {} expiryNaming) _).exists_run
        [.line 1 (.qareg 0 [0x6b] [0x74]), .line 0 (.update .set 0 (-1) [0x6b] 0 0 1),
          .body 0 [0x76, 0x0d, 0x0a]]
        (P := fun _ w => (∃ v, w.server.live [0x6b] = some v ∧ v.exptime = 0) ∧
          ∃ l, w.server.live (leaseKey [0x6b]) = some l ∧ l.lease = .qInv) (by decide +kernel)
    exact ⟨h, w, v, l, hr, hv, hl, hkind, hexp⟩
  · obtain ⟨h, w, hr, hnone, v, hv, l, hl, hkind⟩ :=
      (playable_iq : Playable {} (IqRun {} expiryNaming) _).exists_run
        [.line 0 (.qareg 0 [0x31] [0x74]), .tick 1, .line 1 (.iqDelta true 0 [0x6b] [0x31] [0x75])]
        (P := fun h w => h.all (·.label.storesNothing) ∧ ∃ v, w.server.live [0x31] = some v ∧
          ∃ l, w.server.live (leaseKey [0x31]) = some l ∧ l.lease = .qInv ∧ l.exptime < v.exptime)
            (by decide +kernel)
    exact ⟨h, w, v, l, hr, registeredSince_of_storesNothing hnone, hv, hl, hkind⟩

end Rejig
