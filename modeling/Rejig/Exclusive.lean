import Rejig.Fill
import Rejig.Trans

/-!
# I leases are exclusive

While an I lease lasts nobody else is handed a token for its key.  `iLease_origin` said where an I
lease comes from; here it is what becomes of one: an I lease that is there before a step is there
afterwards, unless the step ends it or the lease has expired (`iLease_stays`).  A request for a
value that finds a lease is never handed a token, so the token of a lease that nothing has ended is
the last one for the key.

A token is spent by a fill that presents it.  The lease keeps its token as text and the test of a
fill reads the text back, so this is about the tokens below `tokenLimit`, which read back as
themselves.
-/

namespace Rejig

open Prog System Server List

variable {req : Request} {key : Bytes} {s : Server} {token : UInt64}

/-- The requests that may take away an I lease without a grant or a fill. -/
def Request.endsILease : Request → Bool
  | .delete _ deleteLease _ => deleteLease = 1
  | .unlease .. | .sar .. | .dar .. => true
  | _ => false

/-- The step ends the I lease on the key with the token. -/
def EndsILease (key : Bytes) (token : UInt64) (t : Moment) : Prop :=
  StoresFill key token t ∨ Quarantines key t ∨ Removes Request.endsILease key t

theorem Prepared.endsILease_of_sar {c : Settings} {p : Pending} (h : Prepared c s req p)
    (hc : p.completion = .sar token) : req.endsILease = true := by
  obtain ⟨hp, -, -⟩ := h
  cases req with
  | sar => rfl
  | update | swap | iqConcat | oqswap | oqwrite | oqConcat => cases hp; cases hc
  | _ => cases hp

/-! ## Permissions and I leases -/

/-- The permission drops no I lease under the name, and changes no more of one than its pending
bit. -/
structure Perm.HoldsILease (P : Perm) (n : Bytes) : Prop where
  drop : ∀ o, P.drop n o → o.hasILease = false
  edit : ∀ o o', P.edit n o o' → o.hasILease = true → ∃ p, o' = { o with p := p }

section Permissions

variable {c : Settings} {N : Naming} {s' : Server} {P : Perm} {n k : Bytes} {l : Item}

theorem Perm.Avoids.holdsILease (h : P.Avoids n) : P.HoldsILease n :=
  ⟨fun o hd => absurd hd (h.1 o), fun o o' he => absurd he (h.2.1 o o')⟩

/-- An I lease that has not expired stays under such a permission. -/
theorem Advance.exists_sameLease (h : Advance P s s') (hP : P.HoldsILease n)
    (hold : s.oldestLive = 0) (hl : s.find n = some l) (hI : l.hasILease = true)
    (hp : l.pinned = true) (hexp : s.now < l.exptime) :
    ∃ l', s'.find n = some l' ∧ l.SameLease l' := by
  refine h.invariant (I := fun o => ∃ l', o = some l' ∧ l.SameLease l') ?_
    ⟨l, hl, rfl, rfl, rfl, rfl⟩
  rintro o o' hchange ⟨l', rfl, hsame⟩
  have hI' : l'.hasILease = true := by rwa [Item.hasILease, hsame.lease]
  cases hchange with
  | lapse hlapse =>
    rcases hlapse with hdead | ⟨hunpinned, -⟩
    · rw [dead_of_oldestLive hold, Item.expired, hsame.exptime] at hdead
      simp only [Bool.and_eq_true, decide_eq_true_eq] at hdead
      omega
    · rw [hsame.pinned, hp] at hunpinned
      cases hunpinned
  | touch now => exact ⟨_, rfl, hsame.lease, hsame.data, hsame.exptime, hsame.pinned⟩
  | drop hd =>
    rw [hP.drop _ hd] at hI'
    cases hI'
  | edit he =>
    obtain ⟨p, rfl⟩ := hP.edit _ _ he hI'
    exact ⟨_, rfl, hsame.lease, hsame.data, hsame.exptime, hsame.pinned⟩

theorem Item.not_hasILease_of_hasQInvLease (h : l.hasQInvLease = true) : l.hasILease = false :=
  Item.not_hasILease_of_hasQLease (by simp [Item.hasQLease, h])

theorem holdsILease_iqDeltaPerm {tid : Bytes} (hkey : key ≠ k) (htid : Unprefixed tid) :
    (iqDeltaPerm c s tid key).HoldsILease (leaseKey k) where
  drop o hd := absurd (leaseKey_inj.mp hd.1).symm hkey
  edit o o' he := by
    rcases he with ⟨hn, -⟩ | ⟨hn, -⟩
    · exact absurd hn leaseKey_ne_versionKey
    · exact absurd hn.symm htid.u8Name.ne_leaseKey

/-- The lines that neither quarantine the key nor take leases away hold its I lease. -/
theorem Request.holdsILease (hs : s.ListsKeys N) (hkeys : ∀ key ∈ req.keys, N.isKey key)
    (hids : ∀ tid ∈ req.ids, N.isTid tid) (hq : req.quarantines ≠ some k)
    (hends : req.endsILease = false) :
    (req.perm c s).HoldsILease (leaseKey k) := by
  have hkey : ∀ {key}, key ∈ req.keys → leaseKey k ≠ key := fun hmem =>
    (N.key_unprefixed (hkeys _ hmem)).ne_leaseKey.symm
  have htid : ∀ {tid}, tid ∈ req.ids → leaseKey k ≠ tid := fun hmem =>
    (N.tid_unprefixed (hids _ hmem)).ne_leaseKey.symm
  have hcut : ∀ {tid}, tid ∈ req.ids → leaseKey k ≠ u8Name tid := fun hmem =>
    (N.tid_unprefixed (hids _ hmem)).u8Name.ne_leaseKey.symm
  cases req with
  | update cmd cfg frag key flags exptime vlen =>
    exact ⟨fun o hd => absurd hd.2 (hkey (by simp [Request.keys])), fun _ _ he => he.elim⟩
  | arithmetic incr cfg key delta =>
    exact ⟨fun _ hd => hd.elim, fun _ _ he => absurd he.1 (hkey (by simp [Request.keys]))⟩
  | delete cfg deleteLease keys =>
    have hflag : (decide (deleteLease = 1) : Bool) = false := by simpa [endsILease] using hends
    refine ⟨?_, fun _ _ he => he.elim⟩
    rintro o ⟨key, hmem, hn | ⟨hb, -⟩⟩
    · exact absurd hn (hkey hmem)
    · rw [hflag] at hb
      cases hb
  | qareg cfg key tid =>
    have hne : k ≠ key := fun h => hq (by rw [h]; rfl)
    constructor
    · rintro o ⟨hn, -⟩
      exact absurd (leaseKey_inj.mp hn) hne
    · rintro o o' (⟨hn, -⟩ | ⟨hn, -⟩ | ⟨hn, -⟩) -
      · exact absurd (leaseKey_inj.mp hn) hne
      · exact absurd hn (hcut (by simp [Request.ids]))
      · exact absurd hn (hkey (by simp [Request.keys]))
  | qaread cfg key readValue leaseToken tid =>
    have hne : k ≠ key := fun h => hq (by rw [h]; rfl)
    refine ⟨fun _ hd => hd.elim, ?_⟩
    rintro o o' ⟨-, ⟨hn, -⟩ | ⟨hn, -⟩ | ⟨hn, -⟩⟩ -
    · exact absurd (leaseKey_inj.mp hn) hne
    · exact absurd hn leaseKey_ne_versionKey
    · exact absurd hn (hcut (by simp [Request.ids]))
  | swap cfg frag key flags exptime vlen leaseToken =>
    exact ⟨fun o hd => absurd hd.2 (hkey (by simp [Request.keys])), fun _ _ he => he.elim⟩
  | iqDelta incr cfg key delta tid =>
    have hne : key ≠ k := fun h => hq (by rw [h]; rfl)
    rw [Request.perm]
    split
    · exact (Perm.avoids_none _).holdsILease
    · next hdelta => exact holdsILease_iqDeltaPerm hne (unprefixed_of_mcStrtoull hdelta)
  | commit cfg frag tid pending =>
    have ht : N.isTid tid := hids tid (by simp [Request.ids])
    constructor
    · rintro o (hn | ⟨key, hmem, ⟨-, hQ, -⟩ | hn⟩)
      · exact absurd hn (htid (by simp [Request.ids]))
      · exact Item.not_hasILease_of_hasQLease hQ
      · obtain ⟨hk, -⟩ := hs.of_listed ht hmem
        simp only [List.mem_cons, List.not_mem_nil, or_false] at hn
        rcases hn with hn | hn | hn
        · exact absurd hn (N.key_unprefixed hk).ne_leaseKey.symm
        · exact absurd hn leaseKey_ne_versionKey
        · exact absurd hn leaseKey_ne_pendingKey
    · rintro o o' ⟨key, hmem, ⟨-, hinv, -⟩ | ⟨hn, -⟩⟩ hI
      · simp [Item.not_hasILease_of_hasQInvLease hinv] at hI
      · obtain ⟨hk, -⟩ := hs.of_listed ht hmem
        simp only [List.mem_cons, List.not_mem_nil, or_false] at hn
        rcases hn with hn | hn
        · exact absurd hn (N.key_unprefixed hk).ne_leaseKey.symm
        · exact absurd hn leaseKey_ne_pendingKey
  | release tid =>
    have ht : N.isTid tid := hids tid (by simp [Request.ids])
    constructor
    · rintro o (hn | ⟨key, hmem, hn | hn | ⟨-, hQ | ⟨t, hlive, hhas, -⟩⟩⟩)
      · exact absurd hn (htid (by simp [Request.ids]))
      · exact absurd hn (htid (by simp [Request.ids]))
      · exact absurd hn leaseKey_ne_versionKey
      · exact Item.not_hasILease_of_hasQLease hQ
      · exact absurd hhas (hs.not_has ht hlive)
    · rintro o o' ⟨key, hmem, -, t, hlive, hhas, -⟩
      exact absurd hhas (hs.not_has ht hlive)
  | iqget cfg key leaseToken => exact ⟨fun _ hd => absurd hd.1 (by simp), fun _ _ he _ => he.2⟩
  | iset cfg key leaseToken tid =>
    exact ⟨fun _ hd => absurd hd.2.1 (hkey (by simp [Request.keys])), fun _ _ he _ => he.2⟩
  | unlease | dar | sar => cases hends
  | _ => exact (Perm.avoids_none _).holdsILease

/-- The completions that neither fill nor quarantine the key nor take leases away hold its I
lease. -/
theorem Completion.holdsILease {completion : Completion} {it : Item} (hkey : Unprefixed it.key)
    (hfill : ∀ token, completion = .store (.iqset token) → it.key ≠ k)
    (hq : ∀ append tid, completion = .iqConcat append tid → it.key ≠ k ∧ Unprefixed tid)
    (hsar : ∀ token, completion ≠ .sar token) :
    (completion.perm c s it).HoldsILease (leaseKey k) := by
  cases completion with
  | store cmd =>
    constructor
    · rintro o ⟨token, rfl, ⟨hn, -⟩ | hn⟩
      · exact absurd (leaseKey_inj.mp hn).symm (hfill token rfl)
      · exact absurd hn leaseKey_ne_pendingKey
    · exact fun _ _ he => absurd he.1.symm hkey.ne_leaseKey
  | iqConcat append tid =>
    obtain ⟨hne, htid⟩ := hq append tid rfl
    exact holdsILease_iqDeltaPerm hne htid
  | sar token => exact absurd rfl (hsar token)
  | swap token =>
    constructor
    · rintro o (hn | hn)
      · exact absurd hn leaseKey_ne_versionKey
      · exact absurd hn leaseKey_ne_pendingKey
    · exact fun _ _ he => absurd he.1 leaseKey_ne_versionKey
  | _ => exact (Perm.avoids_none _).holdsILease

end Permissions

/-! ## One step -/

section Step

variable {c : Settings} {N : Naming} {h : History} {w w' : World} {e : Event} {k : Bytes}

/-- A new Q lease on a key is there, if it outlives the moment. -/
theorem LeaseCreated.not_unquarantined {s' : Server} {kind : Lease} (h : LeaseCreated c s k kind s')
    (hkind : kind = .qRef ∨ kind = .qInc) (hnow : s'.now = s.now)
    (hold : s'.oldestLive = s.oldestLive) (hold₀ : s.oldestLive = 0)
    (hexp : s.now < s.leaseExpiry c) : ¬ s'.Unquarantined k := by
  obtain ⟨l, hl⟩ := h.there hold₀ hexp
  have hnew := h.only l hl
  have hlive : s'.live (leaseKey k) = some l := by
    refine live_eq_some.mpr ⟨hl, ?_⟩
    rw [dead_of_oldestLive (hold.trans hold₀), Item.expired, hnow, hnew.exptime]
    simp only [Bool.and_eq_false_iff, decide_eq_false_iff_not]
    omega
  have hQ : l.hasQLease = true := by
    rcases hkind with rfl | rfl <;>
      simp [Item.hasQLease, Item.hasQInvLease, Item.hasQRefLease, Item.hasQIncrLease, hnew.lease]
  intro hunq
  rw [hunq l hlive] at hQ
  cases hQ

/-- An I lease that is there before a step and has not expired is there afterwards, unless the step
ends it. -/
theorem iLease_stays {l : Item} (hr : IqRun c N h w) (hstep : World.Step c w e w') (he : e.Iq N)
    (hl : w.server.find (leaseKey k) = some l) (hI : l.hasILease = true) (hp : l.pinned = true)
    (hexp : w.server.now < l.exptime) (hle : l.exptime ≤ w.server.leaseExpiry c) :
    (∃ l', w'.server.find (leaseKey k) = some l' ∧ l.SameLease l') ∨
      EndsILease k l.leaseValue ⟨w, e, w'⟩ := by
  by_cases hstays : ∃ l', w'.server.find (leaseKey k) = some l' ∧ l.SameLease l'
  · exact .inl hstays
  refine .inr ?_
  have hold : w.server.oldestLive = 0 := hr.registers.2
  have hlive : w.server.live (leaseKey k) = some l := by
    refine live_eq_some.mpr ⟨hl, ?_⟩
    rw [dead_of_oldestLive hold, Item.expired]
    simp only [Bool.and_eq_false_iff, decide_eq_false_iff_not]
    omega
  have hadv := hstep.advance hr.run he.isIq
  have hholds : ∀ {P : Perm}, Advance P w.server w'.server → ¬ P.HoldsILease (leaseKey k) :=
    fun hadv hP => hstays (hadv.exists_sameLease hP hold hl hI hp hexp)
  have hremoves : ∀ req, e.request = some req → req.endsILease = true →
      EndsILease k l.leaseValue ⟨w, e, w'⟩ := fun req hreq hends =>
    .inr (.inr ⟨req, l, hreq, hends, hlive, fun l' hl' hsame => hstays ⟨l', hl', hsame⟩⟩)
  have hunq : w.server.Unquarantined k := by
    intro o ho
    rw [hlive] at ho
    cases ho
    cases hQ : l.hasQLease with
    | false => rfl
    | true => simp [Item.not_hasILease_of_hasQLease hQ] at hI
  -- a request for a Q lease on the key grants it, whatever it answers
  have hgrant : ∀ {req granted}, e.request = some req → req.quarantines = some k →
      (granted → ∃ r, e.reply = some r ∧ r.grants = true) → w'.server.now = w.server.now →
      QuarantineEnds c w.server k granted w'.server → Quarantines k ⟨w, e, w'⟩ := by
    intro req granted hreq hq hg hnow hends
    refine ⟨req, hreq, hq, ?_⟩
    rcases hends.ofILease l hlive hI with hnone | hgranted | ⟨kind, hkind, hcreated⟩
    · exact absurd (Perm.avoids_none _).holdsILease (hholds hnone.advance)
    · exact .inl (hg hgranted)
    · refine .inr ⟨hunq, ?_⟩
      exact hcreated.not_unquarantined hkind hnow hadv.oldestLive hold (hexp.trans_le hle)
  cases e with
  | line conn req outcome =>
    by_cases hends : req.endsILease = true
    · exact hremoves req rfl hends
    by_cases hq : req.quarantines = some k
    · have hids : ∀ tid ∈ req.ids, Unprefixed tid := fun tid ht =>
        N.tid_unprefixed (he.ids req rfl tid ht)
      have hrun := hstep.of_line
      refine .inr (.inl (hgrant rfl hq ?_ (evolve_ascDispatch (he.isIq req rfl) _ _ hrun).now
        (quarantineEnds_ascDispatch hids hq _ _ hrun)))
      rintro ⟨r, rfl, hg⟩
      exact ⟨r, rfl, hg⟩
    · refine absurd (Request.holdsILease hr.listsKeys ?_ ?_ hq ?_) (hholds hadv)
      · exact he.keys req rfl
      · exact he.ids req rfl
      · simpa using hends
  | body conn req p data reply =>
    obtain ⟨hw, hrun⟩ := hstep.of_body
    obtain ⟨t, -, -, hprep⟩ := exists_line_of_waiting hr.run hw
    by_cases hends : req.endsILease = true
    · exact hremoves req rfl hends
    by_cases hq : req.quarantines = some k
    · obtain ⟨append, tid, htid, hcomp, rfl⟩ := hprep.of_quarantines hq
      have hnow := (evolve_ascCompleteNread (hprep.isIq (he.isIq req rfl)) hprep.short_key
        _ _ hrun).now
      refine .inr (.inl (hgrant rfl hq (fun hg => ⟨reply, rfl, hg⟩) hnow ?_))
      exact quarantineEnds_ascCompleteNread hcomp hprep.short_key
        (N.tid_unprefixed (he.ids req rfl tid htid)) _ _ hrun
    by_cases hf : ∃ token, req.fill = some (k, token)
    · obtain ⟨token, hf⟩ := hf
      obtain ⟨hcomp, hk⟩ := hprep.of_fill hf
      have hfill := fillEnds_ascCompleteNread hcomp (hprep.plain data) _ _ hrun
      rw [hk, FillEnds, hlive] at hfill
      rcases hfill with ⟨rfl, -, _, ⟨⟩, -, rfl⟩ | ⟨-, hnone⟩
      · exact .inl ⟨conn, req, p, data, rfl, hf⟩
      · exact absurd (Perm.avoids_none _).holdsILease (hholds hnone.advance)
    · refine absurd (Completion.holdsILease ?_ ?_ ?_ ?_) (hholds hadv)
      · exact N.key_unprefixed (he.keys req rfl _ hprep.key_mem)
      · rintro token hcomp rfl
        exact hf ⟨token, hprep.fill_of hcomp⟩
      · intro append tid hcomp
        obtain ⟨hq', htid, -⟩ := hprep.quarantines_of hcomp
        refine ⟨?_, N.tid_unprefixed (he.ids req rfl tid htid)⟩
        rintro rfl
        exact hq hq'
      · intro token hcomp
        exact hends (hprep.endsILease_of_sar hcomp)
  | _ => exact absurd (Perm.avoids_none _).holdsILease (hholds hadv)

end Step

/-! ## Whole runs -/

section Runs

variable {c : Settings} {N : Naming} {h between older : History} {w : World} {t₀ t : Moment}
  {key' : Bytes} {token' : UInt64}

/-- A step that hands out a token draws it, and creates the lease of a key that had none. -/
theorem HandsOut.created (hout : HandsOut key token t) (hr : (service c).Run h t.pre)
    (hstep : World.Step c t.pre t.label t.post) :
    token = t.pre.server.token ∧ t.pre.server.live (leaseKey key) = none ∧
      LeaseCreated c t.pre.server key .i t.post.server := by
  obtain ⟨req, p, hreq, hm, hreply, hne⟩ := hout
  obtain ⟨w, e, w'⟩ := t
  cases e with
  | line conn req' outcome =>
    cases hreq
    cases outcome with
    | nread p' => cases hreply
    | reply r =>
      cases hreply
      rcases missEnds_ascDispatch hm _ _ hstep.of_line with ⟨⟨p', hp'⟩, hnone, hl⟩ | ⟨hmiss, -⟩
      · exact ⟨(Reply.lvalue.inj (Outcome.reply.inj hp')).1, hnone, hl⟩
      · exact absurd (hmiss token p rfl) hne
  | body conn req' p' data reply =>
    cases hreq
    obtain ⟨t', -, -, hp⟩ := exists_line_of_waiting hr hstep.of_body.1
    rw [hp.misses_eq_none] at hm
    cases hm
  | _ => cases hreq

/-- A token that has been handed out is a number below the counter. -/
theorem IqRun.drawn (hr : IqRun c N h w) (ht : t ∈ h) (hout : HandsOut key token t) :
    token = t.pre.server.token ∧ t.pre.server.leaseCurrentToken < w.server.leaseCurrentToken := by
  refine IqRun.invariant (I := fun h w => ∀ t ∈ h, ∀ key token, HandsOut key token t →
    token = t.pre.server.token ∧ t.pre.server.leaseCurrentToken < w.server.leaseCurrentToken)
    (by simp) ?_ hr t ht key token hout
  intro h w e w' hr ih hstep _ hadv t ht key token hout
  rcases mem_cons.mp ht with rfl | ht
  · obtain ⟨htok, -, hl⟩ := hout.created hr.run hstep
    exact ⟨htok, hl.drawn⟩
  · obtain ⟨htok, hlt⟩ := ih t ht key token hout
    exact ⟨htok, hlt.trans_le hadv.leaseCurrentToken⟩

/-- The lease of a token that was handed out lasts until something ends it. -/
theorem IqRun.iLease_lasts (hr : IqRun c N (between ++ t₀ :: older) w)
    (hout : HandsOut key token t₀) (htok : token.toNat < tokenLimit)
    (hun : ∀ t' ∈ between, ¬ EndsILease key token t')
    (hexp : w.server.now < t₀.pre.server.leaseExpiry c) :
    ∃ l, w.server.find (leaseKey key) = some l ∧ NewLease c t₀.pre.server .i l := by
  induction between generalizing w with
  | nil =>
    obtain ⟨hr', hstep, he, rfl⟩ := hr.of_cons
    obtain ⟨-, -, hl⟩ := hout.created hr'.run hstep
    have hnow := (hstep.advance hr'.run he.isIq).now
    obtain ⟨l, hfind⟩ := hl.there hr'.registers.2 (hnow.trans_lt hexp)
    exact ⟨l, hfind, hl.only l hfind⟩
  | cons t between ih =>
    obtain ⟨hr', hstep, he, rfl⟩ := hr.of_cons
    have hmem : t₀ ∈ between ++ t₀ :: older := by simp
    have hnow := (hstep.advance hr'.run he.isIq).now
    obtain ⟨l, hfind, hnew⟩ := ih hr' (fun t' ht' => hun t' (mem_cons_of_mem _ ht'))
      (hnow.trans_lt hexp)
    have hvalue : l.leaseValue = token := by
      obtain ⟨rfl, -⟩ := hr'.drawn hmem hout
      rw [Item.leaseValue, hnew.data, mcStrtoullLen_decimal, if_pos htok, Option.getD_some]
    have hI : l.hasILease = true := by simp [Item.hasILease, hnew.lease]
    have hle : l.exptime ≤ t.pre.server.leaseExpiry c := by
      rw [hnew.exptime]
      exact leaseExpiry_mono (hr'.mono hmem).2
    rcases iLease_stays hr' hstep he hfind hI hnew.pinned
      (hnew.exptime ▸ hnow.trans_lt hexp) hle with
      ⟨l', hl', hsame⟩ | hends
    · exact ⟨l', hl', hsame.lease.trans hnew.lease, hsame.data.trans hnew.data,
        hsame.exptime.trans hnew.exptime, hsame.pinned.trans hnew.pinned⟩
    · rw [hvalue] at hends
      exact absurd hends (hun t mem_cons_self)

/-- Between two hand-outs on one key the lease of the first was ended, by a fill with its token, a
grant or a removal, or it has expired; and no two hand-outs are of the same token. -/
theorem handsOut_exclusive (hr : IqRun c N (t :: between ++ t₀ :: older) w)
    (hout : HandsOut key token t₀) (hout' : HandsOut key' token' t) :
    (key' = key → token.toNat < tokenLimit → (∃ t' ∈ between, EndsILease key token t') ∨
      t₀.pre.server.leaseExpiry c ≤ t.pre.server.now) ∧
    (w.server.leaseCurrentToken ≤ 2 ^ 64 → token' ≠ token) := by
  obtain ⟨hr', hstep, he, rfl⟩ := hr.of_cons
  obtain ⟨rfl, hnone, hl⟩ := hout'.created hr'.run hstep
  obtain ⟨rfl, hlt⟩ := hr'.drawn (by simp) hout
  constructor
  · rintro rfl htok
    by_contra hcon
    rw [not_or, not_exists, Nat.not_le] at hcon
    obtain ⟨hun, hexp⟩ := hcon
    obtain ⟨l, hfind, hnew⟩ :=
      hr'.iLease_lasts hout htok (fun t' ht' hends => hun t' ⟨ht', hends⟩) hexp
    have hlive : t.pre.server.live (leaseKey key') = some l := by
      refine Server.live_eq_some.mpr ⟨hfind, ?_⟩
      rw [Server.dead_of_oldestLive hr'.registers.2, Item.expired, hnew.exptime]
      simp only [Bool.and_eq_false_iff, decide_eq_false_iff_not]
      omega
    rw [hnone] at hlive
    cases hlive
  · intro hlimit heq
    have hdrawn := hl.drawn
    have hsize : UInt64.size = 2 ^ 64 := rfl
    have hnat := congrArg UInt64.toNat heq
    rw [Server.token, Server.token, UInt64.toNat_ofNat_of_lt' (by omega),
      UInt64.toNat_ofNat_of_lt' (by omega)] at hnat
    omega

end Runs

/-- A step whose request is of no such kind ends no I lease. -/
theorem not_endsILease {t : Moment} (hreq : t.label.request = some req)
    (hq : req.quarantines = none) (he : req.endsILease = false)
    (hf : req.fill ≠ some (key, token)) : ¬ EndsILease key token t := by
  rintro (⟨conn, req', p, data, hlabel, hfill⟩ | ⟨req', hreq', hq', -⟩ | ⟨req', -, hreq', he', -⟩)
  · rw [hlabel] at hreq
    cases hreq
    exact hf hfill
  · rw [hreq] at hreq'
    cases hreq'
    rw [hq] at hq'
    cases hq'
  · rw [hreq] at hreq'
    cases hreq'
    rw [he] at he'
    cases he'

/-- A lease is handed out, deleted and handed out again. -/
theorem handsOut_exclusive_run : ∃ (between : History) (t₀ t : Moment) (w : World),
    IqRun {} fillNaming (t :: between ++ t₀ :: []) w ∧ HandsOut fillKey 5 t₀ ∧
    HandsOut fillKey 6 t ∧
    ((∃ t' ∈ between, EndsILease fillKey 5 t') ∨
      t₀.pre.server.leaseExpiry {} ≤ t.pre.server.now) ∧ (6 : UInt64) ≠ 5 := by
  obtain ⟨h, t₀, t₁, t, w, hr, hnil, hlimit, hout', hout⟩ :=
    (playable_iq : Playable {} (IqRun {} fillNaming) _).exists_run₃
      [.line 0 (.iqget 0 fillKey 0), .line 1 (.delete 0 1 [fillKey]), .line 2 (.iqget 0 fillKey 0)]
      (P := fun h t₀ _ t w => h.length = 0 ∧ w.server.leaseCurrentToken ≤ 2 ^ 64 ∧
        HandsOut fillKey 6 t ∧ HandsOut fillKey 5 t₀) (by decide +kernel)
  obtain rfl := eq_nil_of_length_eq_zero hnil
  have hr' : IqRun {} fillNaming (t :: [t₁] ++ t₀ :: []) w := hr
  obtain ⟨hended, hfresh⟩ := handsOut_exclusive hr' hout hout'
  exact ⟨[t₁], t₀, t, w, hr', hout, hout', hended rfl (by decide), hfresh hlimit⟩

/-- A fill with `2 ^ 64 - 1` takes the lease of the token `2 ^ 64 - 6`, and then another token is
handed out although nothing ended the lease. -/
theorem handsOut_not_exclusive : ∃ (older between : History) (t₀ t : Moment) (w : World),
    IqRun {} fillNaming (t :: between ++ t₀ :: older) w ∧ w.server.leaseCurrentToken ≤ 2 ^ 64 ∧
      HandsOut fillKey (.ofNat tokenLimit) t₀ ∧ HandsOut fillKey (.ofNat (tokenLimit + 1)) t ∧
      t.pre.server.now < t₀.pre.server.leaseExpiry {} ∧
      ∀ t' ∈ between, ¬ EndsILease fillKey (.ofNat tokenLimit) t' := by
  obtain ⟨older, hr, -⟩ := exists_run_worldAt (show 5 ≤ tokenLimit by decide)
  obtain ⟨h, w, hplay, htest⟩ := exists_play {}
    [.line 0 (.iqget 0 fillKey 0),
      .line 1 (.update (.iqset (.ofNat uint64Max)) 0 (-1) fillKey 0 0 1),
      .body 1 [0x76, 0x0d, 0x0a], .line 0 (.delete 0 0 [fillKey]), .line 0 (.iqget 0 fillKey 0)]
    (worldAt tokenLimit)
    (fun h w => h.all (·.label.iqNamed [fillKey] []) && h.length = 5 &&
      w.server.leaseCurrentToken ≤ 2 ^ 64 && h[4]?.any (HandsOut fillKey (.ofNat tokenLimit) ·) &&
      h[0]?.any (HandsOut fillKey (.ofNat (tokenLimit + 1)) ·) &&
      h.all (fun t => t.pre.server.now = Server.start.now) &&
      (h.drop 1).all fun t => t.label.request.any fun req => req.quarantines = none ∧
        req.endsILease = false ∧ req.fill ≠ some (fillKey, .ofNat tokenLimit)) (by decide +kernel)
  simp only [Bool.and_eq_true, decide_eq_true_eq, all_eq_true] at htest
  obtain ⟨⟨⟨⟨⟨⟨hnamed, hlen⟩, hlimit⟩, hout⟩, hout'⟩, hnow⟩, hkind⟩ := htest
  have hr' := iqRun_of_play hr hplay (all_eq_true.mpr hnamed)
  clear hplay
  obtain _ | ⟨t, _ | ⟨t₃, _ | ⟨t₂, _ | ⟨t₁, _ | ⟨t₀, _ | ⟨_, _⟩⟩⟩⟩⟩⟩ := h
  all_goals try cases hlen
  refine ⟨older, [t₃, t₂, t₁], t₀, t, w, hr', hlimit, of_decide_eq_true hout,
    of_decide_eq_true hout', ?_, fun t' ht' => ?_⟩
  · rw [Server.leaseExpiry, hnow t (by simp), hnow t₀ (by simp)]
    decide
  · have hmem : t' ∈ [t₃, t₂, t₁, t₀] := mem_append_left [t₀] ht'
    obtain ⟨req, hreq, hkind⟩ := (Option.any_eq_true _ _).mp (hkind t' hmem)
    obtain ⟨hq, he, hf⟩ := of_decide_eq_true hkind
    exact not_endsILease hreq hq he hf

end Rejig
