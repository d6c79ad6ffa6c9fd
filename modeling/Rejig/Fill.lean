import Rejig.Lease

/-!
# Reader fills

A reader that misses is handed a token (`HandsOut`), computes the value and stores it with that
token (`StoresFill`).  The I lease behind the token ends when a writer quarantines the key
(`Quarantines`), when the lease is removed (`Removes`) or expires, and when the token is used.

`iLease_origin` says where an I lease comes from: an I lease that is there after a step was there
before, and the step did not end it, or it has just been handed out.  By induction, whoever fills
was handed the token and lost the lease to nobody since.
-/

namespace Rejig

open Prog System Server Option List Function

variable {k : Bytes} {l' : Item}

/-- The step answers a request on the key with an I lease token. -/
def HandsOut (key : Bytes) (token : UInt64) (t : Moment) : Prop :=
  ∃ req p, t.label.request = some req ∧ req.misses = some key ∧
    t.label.reply = some (.lvalue token p) ∧ token ≠ leaseHotmiss

/-- The step grants a Q lease on the key, and says so or not: an increment of a value that is no
number is answered with an error. -/
def Quarantines (key : Bytes) (t : Moment) : Prop :=
  ∃ req, t.label.request = some req ∧ req.quarantines = some key ∧
    ((∃ r, t.label.reply = some r ∧ r.grants = true) ∨
      t.pre.server.Unquarantined key ∧ ¬ t.post.server.Unquarantined key)

/-- The step fills the key with the token and answers `STORED`. -/
def StoresFill (key : Bytes) (token : UInt64) (t : Moment) : Prop :=
  ∃ conn req p data, t.label = .body conn req p data .stored ∧ req.fill = some (key, token)

instance instDecidableHandsOut (key : Bytes) (token : UInt64) (t : Moment) :
    Decidable (HandsOut key token t) :=
  decidable_of_iff (t.label.request.bind Request.misses = some key ∧
    (t.label.reply.any fun | .lvalue token' _ => token' = token | _ => false) = true ∧
    token ≠ leaseHotmiss) <| by
  constructor
  · rintro ⟨hm, hreply, hne⟩
    obtain ⟨req, hreq, hm⟩ := bind_eq_some_iff.mp hm
    obtain ⟨r, hr, htoken⟩ := (any_eq_true _ _).mp hreply
    cases r with
    | lvalue token' p =>
      obtain rfl : token' = token := by simpa using htoken
      exact ⟨req, p, hreq, hm, hr, hne⟩
    | _ => cases htoken
  · rintro ⟨req, p, hreq, hm, hreply, hne⟩
    exact ⟨by rw [hreq, bind_some, hm], by simp [hreply], hne⟩

instance instDecidableStoresFill (key : Bytes) (token : UInt64) (t : Moment) :
    Decidable (StoresFill key token t) :=
  match ht : t.label with
  | .body conn req p data r =>
    decidable_of_iff (r = .stored ∧ req.fill = some (key, token)) <| by
      constructor
      · rintro ⟨rfl, hf⟩
        exact ⟨conn, req, p, data, ht, hf⟩
      · rintro ⟨_, _, _, _, hlabel, hf⟩
        rw [ht] at hlabel
        cases hlabel
        exact ⟨rfl, hf⟩
  | .line .. | .tick _ | .memory _ | .hangup _ =>
    isFalse <| by
      rintro ⟨_, _, _, _, hlabel, -⟩
      rw [ht] at hlabel
      cases hlabel

/-! ## Permissions and I leases -/

/-- The permission creates no I lease under the name, and changes none. -/
structure Perm.KeepsILease (P : Perm) (n : Bytes) : Prop where
  edit : ∀ o o', P.edit n o o' → o'.hasILease = true → ∃ p, o' = { o with p := p }
  install : ∀ o', P.install n o' → o'.hasILease = false

/-- The same lease, up to its pending bit and the time of the last access. -/
structure Item.SameLease (l l' : Item) : Prop where
  lease : l'.lease = l.lease
  data : l'.data = l.data
  exptime : l'.exptime = l.exptime
  pinned : l'.pinned = l.pinned

/-- A request of the given kind takes the lease of the key away. -/
def Removes (kind : Request → Bool) (key : Bytes) (t : Moment) : Prop :=
  ∃ req l, t.label.request = some req ∧ kind req = true ∧
    t.pre.server.live (leaseKey key) = some l ∧
    ∀ l', t.post.server.find (leaseKey key) = some l' → ¬ l.SameLease l'

section Permissions

variable {c : Settings} {s s' : Server} {P : Perm} {n key tid : Bytes} {it : Item}

theorem Item.hasILease_of_lease {it : Item} {kind : Lease} (h : it.lease = kind) (hk : kind ≠ .i) :
    it.hasILease = false := by
  simp [Item.hasILease, h, hk]

/-- An I lease under a name where none may be created was there before. -/
theorem Advance.sameLease (h : Advance P s s') (hP : P.KeepsILease n) (hl' : s'.find n = some l')
    (hI : l'.hasILease = true) : ∃ l, s.find n = some l ∧ l.SameLease l' := by
  refine h.invariant (I := fun o => ∀ l', o = some l' → l'.hasILease = true →
    ∃ l, s.find n = some l ∧ l.SameLease l') ?_ (fun l hl _ =>
      ⟨l, hl, rfl, rfl, rfl, rfl⟩) l' hl' hI
  rintro o o' hchange ho l' rfl hI
  cases hchange with
  | touch now =>
    obtain ⟨l, hl, hsame⟩ := ho _ rfl hI
    exact ⟨l, hl, hsame.lease, hsame.data, hsame.exptime, hsame.pinned⟩
  | edit hp =>
    obtain ⟨p, rfl⟩ := hP.edit _ _ hp hI
    obtain ⟨l, hl, hsame⟩ := ho _ rfl hI
    exact ⟨l, hl, hsame.lease, hsame.data, hsame.exptime, hsame.pinned⟩
  | install hp => exact absurd hI (by simp [hP.install _ hp])

theorem TransRecord.hasILease (h : TransRecord c s tid key it) : it.hasILease = false := by
  obtain ⟨-, data, -, addr, cas, -, rfl⟩ := h
  rfl

theorem InvLease.hasILease (h : InvLease c s key tid it) : it.hasILease = false := by
  obtain ⟨-, data, -, addr, cas, -, rfl⟩ := h
  rfl

theorem Rebuilt.hasILease {name entry : Bytes} {o : Item} (h : Rebuilt c s name entry o it) :
    it.hasILease = false := by
  obtain ⟨-, data, -, addr, cas, -, rfl⟩ := h
  simp only [Item.hasILease, reserved_lease, Item.listLease]
  split <;> rfl

/-- No request creates an I lease on `k` but those that ask for one on `k`. -/
theorem Request.keepsILease {req : Request} (hkeys : ∀ key ∈ req.keys, key ≠ leaseKey k)
    (hm : req.misses ≠ some k) :
    (req.perm c s).KeepsILease (leaseKey k) := by
  have hwrite : ∀ {o o'}, req.Writes c s o o' (leaseKey k) → o'.hasILease = false := by
    intro o o' h
    generalize hn : leaseKey k = n at h
    cases h with
    | lease h =>
      obtain rfl := leaseKey_inj.mp hn
      cases h with
      | register h => exact h.hasILease
      | finish _ _ _ _ h | release _ h => exact h.hasILease
      | refresh _ h | increment h => exact Item.hasILease_of_lease h.lease (by simp)
      | mark h | fill h => exact absurd h hm
    | version => exact absurd hn leaseKey_ne_versionKey
    | value h =>
      cases h with
      | rewrite | inPlace | delay => exact absurd hn.symm (hkeys _ (by simp [Request.keys]))
      | commit _ h => exact Item.hasILease_of_lease h.lease (by simp)
    | marker => exact absurd hn leaseKey_ne_pendingKey
    | record _ _ _ h => exact h.hasILease
  exact ⟨fun o o' he hI => absurd hI (by simp [hwrite (writes_of_edit he)]),
    fun o' hi => hwrite (writes_of_install hi)⟩

/-- No completion of a request creates an I lease. -/
theorem Completion.keepsILease {completion : Completion} (hk : it.key ≠ leaseKey k) :
    (completion.perm c s it).KeepsILease (leaseKey k) := by
  have hwrite : ∀ {o o'}, completion.Writes c s it o o' (leaseKey k) → o'.hasILease = false := by
    intro o o' h
    generalize hn : leaseKey k = n at h
    cases h with
    | link | rewrite => exact absurd hn.symm hk
    | lease h => exact Item.hasILease_of_lease h.lease (by simp)
    | version => exact absurd hn leaseKey_ne_versionKey
    | record _ h => exact h.hasILease
  exact ⟨fun o o' he hI => absurd hI (by simp [hwrite (writes_of_edit he)]),
    fun o' hi => hwrite (writes_of_install hi)⟩

theorem keepsILease_heldPerm : (heldPerm key).KeepsILease (leaseKey key) :=
  ⟨fun _ _ he _ => he rfl, fun _ hi => absurd rfl hi⟩

end Permissions

/-! ## One step -/

section Step

variable {c : Settings} {N : Naming} {h : History} {w w' : World} {e : Event}

/-- An I lease that is there after a step was there before, and the step did not end it; or the step
has just handed it out. -/
theorem iLease_origin (hr : (service c).Run h w) (hstep : World.Step c w e w') (hiq : e.Iq N)
    (htoken : w.server.token ≠ leaseHotmiss) (hl' : w'.server.find (leaseKey k) = some l')
    (hI : l'.hasILease = true) :
    (∃ l, w.server.find (leaseKey k) = some l ∧ l.SameLease l' ∧ ¬ Quarantines k ⟨w, e, w'⟩ ∧
      ∀ token, ¬ StoresFill k token ⟨w, e, w'⟩) ∨ HandsOut k w.server.token ⟨w, e, w'⟩ ∧
      NewLease c w.server .i l' ∧
      w.server.leaseCurrentToken < w'.server.leaseCurrentToken := by
  have hadv := hstep.advance hr hiq.isIq
  -- a Q lease on the key would be in the place of the I lease
  have hunq : w'.server.Unquarantined k := by
    intro o ho
    rw [(live_eq_some.mp ho).1] at hl'
    obtain rfl := some.inj hl'
    cases ho' : o.hasQLease with
    | false => rfl
    | true => simp [Item.not_hasILease_of_hasQLease ho'] at hI
  cases hstep with
  | @line conn req outcome s hidle hrun =>
    have hne : ∀ key ∈ req.keys, key ≠ leaseKey k := fun key hkey =>
      (N.key_unprefixed (hiq.keys req rfl key hkey)).ne_leaseKey
    have hfill : ∀ token w', ¬ StoresFill k token ⟨w, .line conn req outcome, w'⟩ := by
      rintro token w' ⟨_, _, _, _, ⟨⟩, -⟩
    by_cases hm : req.misses = some k
    · have hq : ¬ Quarantines k ⟨w, .line conn req outcome,
        ⟨s, update w.conns conn (outcome.waiting req)⟩⟩ := by
        rintro ⟨req', ⟨⟩, hq, -⟩
        cases req with
        | qareg | qaread | iqDelta | iqConcat => cases hm
        | _ => cases hq
      rcases missEnds_ascDispatch hm _ _ hrun with ⟨⟨p, rfl⟩, -, hl⟩ | ⟨-, hs⟩
      · exact .inr ⟨⟨req, p, rfl, hm, rfl, htoken⟩, hl.only l' hl', hl.drawn⟩
      · obtain ⟨l, hl, hsame⟩ := hs.advance.sameLease keepsILease_heldPerm hl' hI
        exact .inl ⟨l, hl, hsame, hq, fun token => hfill token _⟩
    · obtain ⟨l, hl, hsame⟩ := hadv.sameLease (Request.keepsILease hne hm) hl' hI
      refine .inl ⟨l, hl, hsame, ?_, fun token => hfill token _⟩
      rintro ⟨req', ⟨⟩, hq, ⟨r, hreply, hg⟩ | ⟨-, hnot⟩⟩
      · have hids : ∀ tid ∈ req.ids, Unprefixed tid := fun tid ht =>
          N.tid_unprefixed (hiq.ids req rfl tid ht)
        have hout : outcome = .reply r := by
          cases outcome <;> cases hreply
          rfl
        have hends := quarantineEnds_ascDispatch hids hq _ _ hrun
        simp [hends.noILease ⟨r, hout, hg⟩ l' hl'] at hI
      · exact hnot hunq
  | @body conn req p data reply s hw hlen hrun =>
    obtain ⟨t, -, -, hp⟩ := exists_line_of_waiting hr hw
    have hkey : N.isKey p.item.key := hiq.keys req rfl _ hp.key_mem
    have hne : p.item.key ≠ leaseKey k := (N.key_unprefixed hkey).ne_leaseKey
    obtain ⟨l, hl, hsame⟩ := hadv.sameLease (Completion.keepsILease hne) hl' hI
    refine .inl ⟨l, hl, hsame, ?_, ?_⟩
    · rintro ⟨req', ⟨⟩, hq, ⟨r, ⟨⟩, hg⟩ | ⟨-, hnot⟩⟩
      · obtain ⟨append, tid, htid, hcomp, hk⟩ := hp.of_quarantines hq
        have hu : Unprefixed tid := N.tid_unprefixed (hiq.ids req rfl tid htid)
        have hends := quarantineEnds_ascCompleteNread hcomp hp.short_key hu _ _ hrun
        rw [hk] at hends
        simp [hends.noILease hg l' hl'] at hI
      · exact hnot hunq
    · rintro token ⟨_, _, _, _, ⟨⟩, hf⟩
      obtain ⟨hcomp, hk⟩ := hp.of_fill hf
      have hends := fillEnds_ascCompleteNread hcomp (hp.plain data) _ _ hrun
      rw [hk] at hends
      rcases hends with ⟨-, hnone, -⟩ | ⟨hne, -⟩
      · rw [hnone] at hl'
        cases hl'
      · exact absurd rfl hne
  | _ =>
    refine .inl ⟨l', hl', ⟨rfl, rfl, rfl, rfl⟩, ?_, ?_⟩
    · rintro ⟨_, ⟨⟩, -⟩
    · rintro token ⟨_, _, _, _, ⟨⟩, -⟩

end Step

/-! ## Whoever fills holds the lease -/

/-- The requests of `delete` with its lease flag, and of `unlease`. -/
def Request.unleases : Request → Bool
  | .delete _ deleteLease _ => deleteLease = 1
  | .unlease .. => true
  | _ => false

/-- Nothing has ended an I lease on the key since it was handed out. -/
def Undisturbed (key : Bytes) (newer : History) : Prop :=
  ∀ t ∈ newer, ¬ Quarantines key t ∧ (∀ kind, ¬ Removes kind key t) ∧
    ∀ token, ¬ StoresFill key token t

section Runs

variable {c : Settings} {N : Naming} {h : History} {w : World} {key : Bytes}

/-- Every I lease has been handed out in the run, and nothing has ended it since. -/
theorem IqRun.handedOut (hr : IqRun c N h w) (hlimit : w.server.leaseCurrentToken ≤ tokenLimit)
    {l : Item} (hl : w.server.find (leaseKey key) = some l) (hI : l.hasILease = true) :
    ∃ newer t older, h = newer ++ t :: older ∧ HandsOut key t.pre.server.token t ∧
      NewLease c t.pre.server .i l ∧ t.pre.server.leaseCurrentToken < w.server.leaseCurrentToken ∧
      Undisturbed key newer := by
  refine IqRun.invariant (I := fun h w => w.server.leaseCurrentToken ≤ tokenLimit →
    ∀ l, w.server.find (leaseKey key) = some l → l.hasILease = true →
      ∃ newer t older, h = newer ++ t :: older ∧ HandsOut key t.pre.server.token t ∧
        NewLease c t.pre.server .i l ∧ t.pre.server.leaseCurrentToken < w.server.leaseCurrentToken ∧
        Undisturbed key newer) ?_ ?_ hr hlimit l hl hI
  · intro _ l hl
    cases hl
  intro h w e w' hr ih hstep he hadv hlimit l' hl' hI
  have hlt : w.server.leaseCurrentToken < 2 ^ 64 := by
    have := hadv.leaseCurrentToken
    rw [tokenLimit_eq] at hlimit
    omega
  have htoken := token_ne_hotmiss hr.registers.1 hlt
  rcases iLease_origin hr.run hstep he htoken hl' hI with
    ⟨l, hl, hsame, hq, hf⟩ | ⟨hout, hnew, hdrawn⟩
  · have hI' : l.hasILease = true := by rwa [Item.hasILease, ← hsame.lease]
    obtain ⟨newer, t, older, rfl, hout, hnew, hlt, hun⟩ :=
      ih (hadv.leaseCurrentToken.trans hlimit) l hl hI'
    refine ⟨⟨w, e, w'⟩ :: newer, t, older, rfl, hout, ?_, hlt.trans_le hadv.leaseCurrentToken, ?_⟩
    · exact ⟨hsame.lease.trans hnew.lease, hsame.data.trans hnew.data,
        hsame.exptime.trans hnew.exptime, hsame.pinned.trans hnew.pinned⟩
    · intro t' ht'
      rcases mem_cons.mp ht' with rfl | ht'
      · refine ⟨hq, ?_, hf⟩
        rintro kind ⟨req, l₁, -, -, hl₁, hgone⟩
        have hl₁' := (live_eq_some.mp hl₁).1
        rw [hl] at hl₁'
        cases hl₁'
        exact hgone l' hl' hsame
      · exact hun t' ht'
  · exact ⟨[], ⟨w, e, w'⟩, h, rfl, hout, hnew, hdrawn, fun t ht => by cases ht⟩

/-- A fill is stored only with a token that was handed out for the key, whose lease has not expired
and was taken by nobody since: no writer quarantined the key, nothing removed the lease, and no fill
was stored. -/
theorem storesFill_handsOut {t : Moment} (hr : IqRun c N (t :: h) w)
    (hlimit : w.server.leaseCurrentToken ≤ tokenLimit) {token : UInt64}
    (hfill : StoresFill key token t) :
    ∃ newer t₀ older, h = newer ++ t₀ :: older ∧ HandsOut key token t₀ ∧
      t.pre.server.now < t₀.pre.server.leaseExpiry c ∧
      ∀ t' ∈ newer, ¬ Quarantines key t' ∧ ¬ Removes Request.unleases key t' ∧
        ¬ StoresFill key token t' := by
  obtain ⟨hr', hstep, he, rfl⟩ := hr.of_cons
  have hlimit' := (World.Step.advance hr'.run hstep he.isIq).leaseCurrentToken.trans hlimit
  obtain ⟨conn, req, p, data, hlabel, hf⟩ := hfill
  rw [hlabel] at hstep
  obtain ⟨hw, hrun⟩ := hstep.of_body
  obtain ⟨t₁, -, -, hp⟩ := exists_line_of_waiting hr'.run hw
  obtain ⟨hcomp, hk⟩ := hp.of_fill hf
  have hends := fillEnds_ascCompleteNread hcomp (hp.plain data) _ _ hrun
  rw [hk] at hends
  rcases hends with ⟨-, -, l, hl, hI, hval⟩ | ⟨hne, -⟩
  · obtain ⟨hfind, hdead⟩ := live_eq_some.mp hl
    obtain ⟨newer, t₀, older, rfl, hout, hnew, hlt, hun⟩ := hr'.handedOut hlimit' hfind hI
    have htok : t₀.pre.server.token = token := by
      have hnat : t₀.pre.server.token.toNat < tokenLimit := by
        rw [Server.token, UInt64.toNat_ofNat_of_lt']
        · exact hlt.trans_le hlimit'
        · rw [tokenLimit_eq] at hlimit'
          exact (hlt.trans_le hlimit').trans (by norm_num)
      rw [← hval, Item.leaseValue, hnew.data, mcStrtoullLen_decimal, if_pos hnat, getD_some]
    refine ⟨newer, t₀, older, rfl, htok ▸ hout, ?_, fun t' ht' => ?_⟩
    · rw [dead_of_oldestLive hr'.registers.2, Item.expired, hnew.exptime] at hdead
      have hpos := t₀.pre.server.leaseExpiry_pos c
      simp only [Bool.and_eq_false_iff, decide_eq_false_iff_not] at hdead
      omega
    · obtain ⟨hq, hrem, hst⟩ := hun t' ht'
      exact ⟨hq, hrem _, hst token⟩
  · exact absurd rfl hne

end Runs

/-! ### The limit of the tokens -/

/-- The key of the runs below. -/
def fillKey : Bytes := [0x6b]

/-- The naming with one key and no transactions. -/
def fillNaming : Naming := .ofLists [fillKey] [] (by decide) (by decide) (by decide)

/-- An `iqset` with the token that the `iqget` before it was given. -/
theorem storesFill_handsOut_run : ∃ (h : History) (t : Moment) (w : World),
    IqRun {} fillNaming (t :: h) w ∧ StoresFill fillKey 5 t ∧
    ∃ newer t₀ older, h = newer ++ t₀ :: older ∧ HandsOut fillKey 5 t₀ ∧
      t.pre.server.now < t₀.pre.server.leaseExpiry {} ∧
      ∀ t' ∈ newer, ¬ Quarantines fillKey t' ∧ ¬ Removes Request.unleases fillKey t' ∧
        ¬ StoresFill fillKey 5 t' := by
  obtain ⟨h, t, w, hr, hfill, hlimit⟩ :=
    (playable_iq : Playable {} (IqRun {} fillNaming) _).exists_run₁
    [.line 0 (.iqget 0 fillKey 0), .line 1 (.update (.iqset 5) 0 (-1) fillKey 0 0 1),
      .body 1 [0x76, 0x0d, 0x0a]]
    (P := fun _ t w => StoresFill fillKey 5 t ∧ w.server.leaseCurrentToken ≤ tokenLimit)
      (by decide +kernel)
  exact ⟨h, t, w, hr, hfill, storesFill_handsOut hr hlimit hfill⟩

/-- A server without records whose token counter shows `n`. -/
def worldAt (n : Nat) : World := ⟨{ Server.start with leaseCurrentToken := n }, fun _ => none⟩

/-- An `iqget` that finds no memory for the lease has drawn a token all the same. -/
theorem run_iqget_full (n : Nat) :
    run (ascDispatch (.iqget 0 fillKey 0)) {} { (worldAt n).server with heap := [.full] } =
      some (.reply .serverError, (worldAt (n + 1)).server) := by
  have hlen := length_decimal_le (.ofNat n)
  have hfits : itemNtotal true (leaseKey [0x6b]).length (decimal (.ofNat n)).length ≤ 1048576 := by
    simp only [itemNtotal, leaseKey, length_cons, length_nil, if_true]
    omega
  simp [ascDispatch, ascProcessIqget, ascCheckConfig, ascCheckLength, itemIqget, itemIqgetTrans,
    itemGet, itemIqgetPending, itemGetPending, pendingBit, itemCheckEntry, itemGetLease,
    itemIqgetGrant, itemCreateLease, leaseNextToken, leaseExptime, timeReltime, itemAlloc,
    itemAllocConfig, itemSlabid, slabGetItem, Server.find, worldAt, Server.start,
    ascIqgetReply, hfits, keyMaxLen, fillKey]

/-- The counter can be driven to any number without handing out a token. -/
theorem exists_run_worldAt {n : Nat} (hn : 5 ≤ n) :
    ∃ h, IqRun {} fillNaming h (worldAt n) ∧ ∀ t ∈ h, ∀ key token, ¬ HandsOut key token t := by
  induction n, hn using Nat.le_induction with
  | base => exact ⟨[], iqRun_start, by simp⟩
  | succ n _ ih =>
    obtain ⟨h, hr, hout⟩ := ih
    have hnext : play {} [.memory [.full], .line 0 (.iqget 0 fillKey 0)] ([], worldAt n) =
        some ([⟨⟨{ (worldAt n).server with heap := [.full] }, (worldAt n).conns⟩,
          .line 0 (.iqget 0 fillKey 0) (.reply .serverError), worldAt (n + 1)⟩,
          ⟨worldAt n, .memory [.full], ⟨{ (worldAt n).server with heap := [.full] },
            (worldAt n).conns⟩⟩], worldAt (n + 1)) := by
      have hconns : update (worldAt n).conns 0 none = (worldAt (n + 1)).conns :=
        update_eq_self_iff.mpr rfl
      have hidle : (worldAt n).conns 0 = none := rfl
      simp only [play, World.next, bind_some, hidle, run_iqget_full, map_some,
        Outcome.waiting, hconns]
    refine ⟨_, iqRun_of_play hr hnext rfl, fun t ht key token hhands => ?_⟩
    simp only [cons_append, nil_append, mem_cons] at ht
    rcases ht with rfl | rfl | ht
    · obtain ⟨_, _, -, -, ⟨⟩, -⟩ := hhands
    · obtain ⟨_, _, ⟨⟩, -⟩ := hhands
    · exact hout t ht key token hhands

/-- The token `2 ^ 64 - 6` reads back as `2 ^ 64 - 1`, so a fill with a token that nobody was handed
is stored. -/
theorem storesFill_not_handsOut : ∃ (h : History) (t : Moment) (w : World),
    IqRun {} fillNaming (t :: h) w ∧ w.server.leaseCurrentToken < 2 ^ 64 ∧
      StoresFill fillKey (.ofNat uint64Max) t ∧
      ∀ t' ∈ h, ¬ HandsOut fillKey (.ofNat uint64Max) t' := by
  obtain ⟨h₀, hr, hout⟩ := exists_run_worldAt (show 5 ≤ tokenLimit by decide)
  obtain ⟨h, w, hplay, htest⟩ := exists_play {}
    [.line 0 (.iqget 0 fillKey 0),
      .line 1 (.update (.iqset (.ofNat uint64Max)) 0 (-1) fillKey 0 0 1),
      .body 1 [0x76, 0x0d, 0x0a]]
    (worldAt tokenLimit)
    (fun h w => h.all (·.label.iqNamed [fillKey] []) && w.server.leaseCurrentToken < 2 ^ 64 &&
      h.head?.any (StoresFill fillKey (.ofNat uint64Max) ·) &&
      h.all (¬ HandsOut fillKey (.ofNat uint64Max) ·)) (by decide +kernel)
  simp only [Bool.and_eq_true, decide_eq_true_eq] at htest
  obtain ⟨⟨⟨hnamed, hlt⟩, hfill⟩, hnone⟩ := htest
  have hr' := iqRun_of_play hr hplay hnamed
  cases h with
  | nil => cases hfill
  | cons t h =>
    refine ⟨h ++ h₀, t, w, hr', hlt, by simpa using hfill, fun t' ht' => ?_⟩
    rcases mem_append.mp ht' with ht' | ht'
    · simpa using all_eq_true.mp hnone t' (mem_cons_of_mem _ ht')
    · exact hout t' ht' _ _

end Rejig
