import Rejig.Lease
import Rejig.Trans

/-!
# The records of a key

Who may change the value, the lease and the pending version of a key, for request lines whose names
are kept apart.  The permissions of `Rejig.RequestEffect` speak about all names at once; here they
are read at the names of one key, so that each kind of change comes with the requests that can make
it.  The invariants of later modules are case distinctions over these lists.

`commit`, `dar` and `release` do their work in a loop over the keys that the transaction lists.
Seen from one key, such a loop is one pass, with steps before and after it that leave the records of
the key alone (`SeenFrom`).
-/

namespace Rejig

open Prog Server Option List

variable {c : Settings} {it l : Item} {N : Naming} {completion : Completion} {h : History}
  {k : Bytes} {w : World} {s : Server}

/-! ## Changes of the lease -/

section Lines

variable {req : Request} {o : Option Item} {o' : Item}

theorem unprefixed_of_record {tid : Bytes} (hids : ∀ tid ∈ req.ids, N.isTid tid)
    (h : tid ∈ req.ids ∨ (mcStrtoull tid).isSome) : Unprefixed (u8Name tid) := by
  rcases h with h | h
  · exact (N.tid_unprefixed (hids _ h)).u8Name
  · obtain ⟨n, hn⟩ := isSome_iff_exists.mp h
    exact (unprefixed_of_mcStrtoull hn).u8Name

variable (hs : s.ListsKeys N) (hkeys : ∀ key ∈ req.keys, N.isKey key)
  (hids : ∀ tid ∈ req.ids, N.isTid tid)

include hs hkeys hids

theorem Request.leaseWrite (h : req.Writes c s o o' (leaseKey k)) : LeaseWrite c s k o o' req := by
  generalize hn : leaseKey k = n at h
  cases h with
  | lease h => exact leaseKey_inj.mp hn ▸ h
  | version => exact absurd hn leaseKey_ne_versionKey
  | value h => exact absurd hn.symm (N.key_unprefixed (h.isKey hs hkeys hids)).ne_leaseKey
  | marker => exact absurd hn leaseKey_ne_pendingKey
  | record _ _ ht => exact absurd hn.symm (unprefixed_of_record hids ht).ne_leaseKey

theorem Request.versionWrite (h : req.Writes c s o o' (versionKey k)) :
    VersionWrite s k o o' req := by
  generalize hn : versionKey k = n at h
  cases h with
  | lease => exact absurd hn.symm leaseKey_ne_versionKey
  | version h => exact versionKey_inj.mp hn ▸ h
  | value h => exact absurd hn.symm (N.key_unprefixed (h.isKey hs hkeys hids)).ne_versionKey
  | marker => exact absurd hn versionKey_ne_pendingKey
  | record _ _ ht => exact absurd hn.symm (unprefixed_of_record hids ht).ne_versionKey

omit hs hkeys hids

theorem Request.valueWrite (hrec : ∀ n ∈ req.records, ¬ N.isKey n) (hk : N.isKey k)
    (h : req.Writes c s o o' k) :
    ValueWrite s k o o' req := by
  have hun : Unprefixed k := N.key_unprefixed hk
  cases h with
  | lease => exact absurd rfl hun.ne_leaseKey
  | version => exact absurd rfl hun.ne_versionKey
  | value h => exact h
  | marker => exact absurd rfl hun.ne_pendingKey
  | record _ hmem => exact absurd hk (hrec _ hmem)

end Lines

section Bodies

variable {conn : Nat} {req : Request} {p : Pending} {data : Bytes} {r : Reply} {s₀ : Server}
  {o : Option Item} {o' : Item} (hp : Prepared c s₀ req p)
  (he : Event.Iq N (.body conn req p data r))

include hp he

theorem Prepared.unprefixed : Unprefixed (p.filled data).key ∧
    ∀ append tid, p.completion = .iqConcat append tid → Unprefixed tid :=
  ⟨N.key_unprefixed (he.keys req rfl _ hp.key_mem), fun _ _ hc =>
    N.tid_unprefixed (he.ids req rfl _ (hp.quarantines_of hc).2.1)⟩

/-- The completion of `iqappend` and `iqprepend` links the lease of its key. -/
theorem Prepared.leaseWrite (h : p.completion.Writes c s (p.filled data) o o' (leaseKey k)) :
    TokenLease c s k .qInc o' := by
  obtain ⟨hkey, hids⟩ := hp.unprefixed he
  generalize hn : leaseKey k = n at h
  cases h with
  | link | rewrite => exact absurd hn.symm hkey.ne_leaseKey
  | lease h => exact leaseKey_inj.mp hn ▸ h
  | version => exact absurd hn leaseKey_ne_versionKey
  | record hc => exact absurd hn.symm (hids _ _ hc).u8Name.ne_leaseKey

theorem Prepared.versionWrite (h : p.completion.Writes c s (p.filled data) o o' (versionKey k)) :
    Version o' ∨ ∃ l cas data, o = some l ∧ o' = { l with cas := cas, data := data } := by
  obtain ⟨hkey, hids⟩ := hp.unprefixed he
  generalize hn : versionKey k = n at h
  cases h with
  | link | rewrite => exact absurd hn.symm hkey.ne_versionKey
  | lease => exact absurd hn.symm leaseKey_ne_versionKey
  | version _ h => exact h
  | record hc => exact absurd hn.symm (hids _ _ hc).u8Name.ne_versionKey

end Bodies

/-! ## Lease records -/

/-- What all leases have in common: they expire, and they are not evicted. -/
structure Item.LeaseRecord (it : Item) : Prop where
  exptime : it.exptime ≠ 0
  pinned : it.pinned = true

/-- A property of leases that a new lease has, at the time it is created, holds of all leases, if it
does not depend on the pending bit and the last access and is kept as time passes. -/
theorem IqRun.lease_invariant {J : Nat → Item → Prop} (hr : IqRun c N h w)
    (hnew : ∀ (s : Server) name data lease co it, Reserved c s name data lease co it → J s.now it)
    (hsame : ∀ now it atime p, J now it → J now { it with atime := atime, p := p })
    (hlater : ∀ now now' it, now ≤ now' → J now it → J now' it)
      (hl : w.server.find (leaseKey k) = some l) : J w.server.now l := by
  refine hr.invariant (I := fun _ w => ∀ l, w.server.find (leaseKey k) = some l → J w.server.now l)
    ?_ ?_ l hl
  · intro l hl
    cases hl
  intro h w e w' hr ih hstep he hadv l' hl'
  refine hlater _ _ _ hadv.now ?_
  have htoken : ∀ {kind it}, TokenLease c w.server k kind it → J w.server.now it := by
    rintro kind _ ⟨token, it, -, hres, p, rfl⟩
    exact hsame _ it it.atime p (hnew _ _ _ _ _ _ hres)
  refine hstep.items hr.run hadv (fun it now => hsame _ it now it.p) ?_ ?_ ih l' hl'
  · rintro conn req out rfl o it ho hwrites
    cases Request.leaseWrite hr.listsKeys (he.keys req rfl) (he.ids req rfl) hwrites with
    | register hinv => exact hinv.2.elim fun _ h => hnew _ _ _ _ _ _ h.2
    | finish _ _ _ _ hreb | release _ hreb => exact hreb.2.elim fun _ h => hnew _ _ _ _ _ _ h.2
    | refresh _ htok | increment htok | fill _ _ htok => exact htoken htok
    | @mark _ l _ _ hl hp => exact hp ▸ hsame _ l l.atime _ (ho l hl)
  · rintro conn req p data r s₀ rfl hp o it - hwrites
    exact htoken (hp.leaseWrite he hwrites)

theorem Reserved.leaseRecord {name data : Bytes} {lease : Lease} {co : CoFlag}
    (h : Reserved c s name data lease co it) : it.LeaseRecord := by
  obtain ⟨addr, cas, -, rfl⟩ := h
  exact ⟨(s.leaseExpiry_pos c).ne', rfl⟩

theorem IqRun.leaseRecord (hr : IqRun c N h w) (hl : w.server.find (leaseKey k) = some l) :
    l.LeaseRecord :=
  hr.lease_invariant (J := fun _ l => l.LeaseRecord) (fun _ _ _ _ _ _ hres => hres.leaseRecord)
    (fun _ _ _ _ h => ⟨h.exptime, h.pinned⟩) (fun _ _ _ _ => id) hl

/-- No lease expires later than one that is created now. -/
theorem IqRun.lease_exptime_le (hr : IqRun c N h w) (hl : w.server.find (leaseKey k) = some l) :
    l.exptime ≤ w.server.leaseExpiry c := by
  obtain ⟨s, hnow, hexp⟩ := hr.lease_invariant
    (J := fun now l => ∃ s : Server, s.now ≤ now ∧ l.exptime = s.leaseExpiry c)
    (fun s _ _ _ _ _ hres => ⟨s, le_rfl, hres.exptime⟩) (fun _ _ _ _ h => h)
    (fun _ _ _ hle ⟨s, hnow, hexp⟩ => ⟨s, hnow.trans hle, hexp⟩) hl
  rw [hexp]
  exact leaseExpiry_mono hnow

/-- While a lease is there, a lease that is created does not expire at once. -/
theorem IqRun.now_lt_leaseExpiry (hr : IqRun c N h w) (hl : w.server.live (leaseKey k) = some l) :
    w.server.now < w.server.leaseExpiry c := by
  obtain ⟨hfind, hdead⟩ := live_eq_some.mp hl
  have hle := hr.lease_exptime_le hfind
  have hne := (hr.leaseRecord hfind).exptime
  rw [dead_of_oldestLive hr.registers.2, Item.expired] at hdead
  simp only [Bool.and_eq_false_iff, decide_eq_false_iff_not] at hdead
  omega

/-! ## Changes of the pending version -/

theorem Version.of_write {o : Option Item} {o' : Item}
    (h : Version o' ∨ ∃ it cas data, o = some it ∧ o' = { it with cas := cas, data := data })
    (ho : ∀ it, o = some it → Version it) : Version o' := by
  rcases h with h | ⟨it, cas, data, hit, rfl⟩
  · exact h
  · exact ⟨(ho it hit).lease, (ho it hit).co, (ho it hit).configNumber⟩

theorem VersionWrite.version {req : Request} {o : Option Item} {o' : Item}
    (h : VersionWrite s k o o' req) (ho : ∀ it, o = some it → Version it) : Version o' := by
  cases h with
  | refresh _ hv => exact hv
  | increment _ hv => exact .of_write hv ho

/-- In every run of IQ requests a pending version is neither a lease nor a record. -/
theorem IqRun.version {pv : Item} (hr : IqRun c N h w)
    (hpv : w.server.find (versionKey k) = some pv) : Version pv := by
  refine hr.invariant (I := fun _ w => ∀ pv, w.server.find (versionKey k) = some pv → Version pv)
    ?_ ?_ pv hpv
  · intro pv hpv
    cases hpv
  intro h w e w' hr ih hstep he hadv
  refine hstep.items hr.run hadv (fun _ _ h => ⟨h.lease, h.co, h.configNumber⟩) ?_ ?_ ih
  · rintro conn req out rfl o it ho hwrites
    exact (Request.versionWrite hr.listsKeys (he.keys req rfl) (he.ids req rfl) hwrites).version ho
  · rintro conn req p data r s₀ rfl hp o it ho hwrites
    exact .of_write (hp.versionWrite he hwrites) ho

/-! ## Stores, with what they answer -/

/-- The commands that link the item of the request, if they store it. -/
def Update.links : Update → Bool
  | append | prepend => false
  | _ => true

/-- The permission to write the value of a key anew, with its expiry and its flags. -/
def rewritePerm (s : Server) (key : Bytes) : Perm where
  drop _ _ := False
  edit n o o' := n = key ∧ Rewritten s o o'
  install n o' := n = key ∧ ∃ o, s.live key = some o ∧ Rewritten s o o'

/-- How a store without a token ends: it is answered `STORED`, or it does nothing. -/
theorem storeEnds_itemStore {cmd : Update} (hcmd : ∀ leaseToken, cmd ≠ .iqset leaseToken)
    (hk : it.key.length < 256) :
    wlp (itemStore it cmd.type cmd.leaseToken) (fun r s' =>
      r = .stored ∧ (cmd.links = true ∨ Evolve (rewritePerm s it.key) s s') ∨ r ≠ .stored ∧
        Evolve .none s s') c s := by
  have hs := (Evolve.refl .none s).reap it.key
  have hpure : ∀ {r : StoreResult}, r ≠ .stored → wlp (pure r) (fun r s' =>
      r = .stored ∧ (cmd.links = true ∨ Evolve (rewritePerm s it.key) s s') ∨
      r ≠ .stored ∧ Evolve .none s s') c (s.reap it.key) := fun hr => .pure (.inr ⟨hr, hs⟩)
  have hlink : ∀ {oit}, s.live it.key = oit → cmd.links = true →
      wlp (itemStoreLink oit it) (fun r s' =>
        r = .stored ∧ (cmd.links = true ∨ Evolve (rewritePerm s it.key) s s') ∨
        r ≠ .stored ∧ Evolve .none s s') c (s.reap it.key) := by
    rintro oit rfl hcl
    rw [wlp_itemStoreLink fun o ho => key_of_live ho]
    exact .inl ⟨rfl, .inl hcl⟩
  have hconcat : ∀ {o data ralign}, s.live it.key = some o →
      wlp (itemStoreConcat o data ralign) (fun r s' =>
        r = .stored ∧ (cmd.links = true ∨ Evolve (rewritePerm s it.key) s s') ∨
        r ≠ .stored ∧ Evolve .none s s') c (s.reap it.key) := by
    intro o data ralign ho
    have hok : o.key = it.key := key_of_live ho
    rw [itemStoreConcat, wlp_bind, wlp_itemSlabid]
    split
    · exact hpure (by simp)
    split
    · exact hpure (by simp)
    rw [wlp_bind, wlp_itemAlloc]
    intro _
    cases (s.reap it.key).room with
    | false => exact .pure (.inr ⟨by simp, hs.allocate⟩)
    | true =>
      have hs' : Evolve (rewritePerm s o.key) s (s.reap o.key) := (Evolve.refl _ s).reap _
      have hkey : ∀ o', some o = some o' →
          o'.key = Item.key { (s.reap it.key).fresh o.key o.dataflags o.exptime (-1) with
            data := data, ralign := ralign } := by
        rintro o' ⟨⟩
        exact (u8Name_of_lt (hok ▸ hk)).symm
      refine (wlp_itemStoreLink hkey).mpr (.inl ⟨rfl, .inr ?_⟩)
      rw [← hok] at ho hk ⊢
      exact hs'.link_rewritten hs'.allocate hk (fun o' ho' => live_allocate_reap ho ho')
        (fun o' h => ⟨rfl, h⟩) fun o' h => ⟨rfl, o, ho, h⟩
  rw [itemStore]
  split
  · exact .pure (.inr ⟨by simp, .refl _ s⟩)
  rw [wlp_bind, wlp_itemGet]
  cases cmd with
  | iqset leaseToken => exact absurd rfl (hcmd leaseToken)
  | set => exact hlink rfl rfl
  | add =>
    cases ho : s.live it.key with
    | none => exact hlink ho rfl
    | some o =>
      dsimp only [Update.type]
      split
      · exact hlink ho rfl
      · exact .bind ((evolve_itemTouch hs).mono fun _ _ h => .pure (.inr ⟨by simp, h⟩))
  | replace =>
    cases ho : s.live it.key with
    | none => exact hpure (by simp)
    | some o =>
      dsimp only [Update.type]
      split
      · exact hpure (by simp)
      · exact hlink ho rfl
  | append =>
    cases ho : s.live it.key with
    | none => exact hpure (by simp)
    | some o => exact hconcat ho
  | prepend =>
    cases ho : s.live it.key with
    | none => exact hpure (by simp)
    | some o => exact hconcat ho
  | cas =>
    cases ho : s.live it.key with
    | none => exact hpure (by simp)
    | some o =>
      dsimp only [Update.type]
      split
      · exact hpure (by simp)
      · exact hlink ho rfl

/-- How `item_swap_and_release` ends: it takes the lease, or does nothing; and the value changes
only if the answer is `STORED`. -/
theorem swapEnds_itemSwapAndRelease {leaseToken : UInt64} :
    wlp (itemSwapAndRelease it leaseToken) (fun r s' =>
      s'.find (leaseKey it.key) = none ∧ (r = .stored ∨ Evolve (.except it.key) s s') ∨
      r ≠ .stored ∧ Evolve .none s s') c s := by
  have hs := (Evolve.refl .none s).reap (leaseKey it.key)
  rw [itemSwapAndRelease, wlp_bind, itemGetLease, wlp_itemGet]
  cases hl : s.live (leaseKey it.key) with
  | none => exact .pure (.inr ⟨by simp, hs⟩)
  | some l =>
    have hlk : l.key = leaseKey it.key := key_of_live hl
    dsimp only
    split
    · exact .pure (.inr ⟨by simp, hs⟩)
    rw [wlp_bind, wlp_itemUnlink]
    have hfind : (s.reap (leaseKey it.key)).find l.key = some l := by
      rw [hlk, find_reap_self, hl]
    have hnone : ((s.reap (leaseKey it.key)).unlink l).find (leaseKey it.key) = none := by
      rw [find_unlink_of_find _ _ hfind, if_pos hlk.symm]
    have hs₁ : Evolve (.except it.key) s ((s.reap (leaseKey it.key)).unlink l) := by
      refine ((Evolve.refl _ s).reap _).unlink_found hfind ?_
      rw [hlk]
      exact leaseKey_ne_self it.key
    generalize (s.reap (leaseKey it.key)).unlink l = s₁ at hnone hs₁
    split
    · exact .pure (.inl ⟨hnone, .inr hs₁⟩)
    -- the item is linked under the name of the value
    have hlink : ∀ s₂ : Server, s₂.find (leaseKey it.key) = none →
        (s₂.link c it).find (leaseKey it.key) = none := by
      intro s₂ hs₂
      rw [find_link, if_neg (leaseKey_ne_self it.key), hs₂]
    have hreap : (s₁.reap it.key).find (leaseKey it.key) = none := by
      rw [find_reap, if_neg (leaseKey_ne_self it.key), hnone]
    rw [wlp_bind, wlp_itemGet]
    cases ho : s₁.live it.key with
    | none =>
      rw [wlp_bind, wlp_itemStore_set (.inl rfl)]
      split
      · exact .pure (.inl ⟨hlink _ hreap, .inl rfl⟩)
      · exact .pure (.inl ⟨hreap, .inl rfl⟩)
    | some o =>
      simp only [itemReplace, wlp_bind, wlp_itemUnlink, wlp_itemLink, wlp_pure]
      rw [link_unlink _ _ (key_of_live ho)]
      exact .inl ⟨hlink _ hreap, .inl trivial⟩

/-! ## The end of a transaction, seen from one key -/

/-- The names of the value, the lease, the pending version and the pending marker of a key. -/
def recordNames (k : Bytes) : List Bytes := [k, leaseKey k, versionKey k, pendingKey k]

/-- The permission to do anything, except to the records of a key. -/
def Perm.apart (k : Bytes) : Perm where
  drop n _ := n ∉ recordNames k
  edit n _ _ := n ∉ recordNames k
  install n _ := n ∉ recordNames k

/-- From `s` to `s'` the program `pass` is executed once, and apart from that nothing is done to the
records of the key. -/
def SeenFrom (c : Settings) (k : Bytes) (pass : ServerM Unit) (s s' : Server) : Prop :=
  ∃ s₁ s₂, Evolve (.apart k) s s₁ ∧ run pass c s₁ = some ((), s₂) ∧ Evolve (.apart k) s₂ s'

section Apart

variable {s' : Server} {key tid n : Bytes}

theorem Perm.avoids_apart (hn : n ∈ recordNames k) : (Perm.apart k).Avoids n :=
  ⟨fun _ h => h hn, fun _ _ h => h hn, fun _ h => h hn⟩

/-- The records of two keys have different names. -/
theorem not_mem_recordNames (hk : Unprefixed k) (hkey : Unprefixed key) (hne : key ≠ k)
    (hn : n ∈ recordNames key) : n ∉ recordNames k := by
  simp only [recordNames, mem_cons, not_mem_nil, or_false] at hn ⊢
  rintro (rfl | rfl | rfl | rfl)
  · rcases hn with rfl | hn | hn | hn
    · exact hne rfl
    · exact hk.ne_leaseKey hn
    · exact hk.ne_versionKey hn
    · exact hk.ne_pendingKey hn
  · rcases hn with hn | hn | hn | hn
    · exact hkey.ne_leaseKey hn.symm
    · exact hne (leaseKey_inj.mp hn).symm
    · exact leaseKey_ne_versionKey hn
    · exact leaseKey_ne_pendingKey hn
  · rcases hn with hn | hn | hn | hn
    · exact hkey.ne_versionKey hn.symm
    · exact leaseKey_ne_versionKey hn.symm
    · exact hne (versionKey_inj.mp hn).symm
    · exact versionKey_ne_pendingKey hn
  · rcases hn with hn | hn | hn | hn
    · exact hkey.ne_pendingKey hn.symm
    · exact leaseKey_ne_pendingKey hn.symm
    · exact versionKey_ne_pendingKey hn.symm
    · exact hne (pendingKey_inj.mp hn).symm

theorem Naming.tid_not_mem_recordNames (ht : N.isTid tid) (hk : N.isKey k) :
    tid ∉ recordNames k := by
  have hun : Unprefixed tid := N.tid_unprefixed ht
  simp only [recordNames, mem_cons, not_mem_nil, or_false, not_or]
  exact ⟨fun h => N.disjoint hk (h ▸ ht), hun.ne_leaseKey, hun.ne_versionKey, hun.ne_pendingKey⟩

theorem Server.ListsKeys.nodup_listed (hs : s.ListsKeys N) (ht : N.isTid tid) :
    (s.listed tid).Nodup := by
  rw [Server.listed]
  cases ho : s.live tid with
  | none => simp
  | some o =>
    obtain ⟨ks, henc, -⟩ := hs tid o (N.tid_unprefixed ht) (fun hk => N.disjoint hk ht)
      (live_eq_some.mp ho).1
    rw [bind_some, henc.entries, getD_some]
    exact henc.nodup

/-- An operation that ends a transaction, seen from one key. -/
theorem wlp_finish_split {A : Type} {pass : Item → Bytes → ServerM Unit} {a b : A}
    (hs : s.ListsKeys N) (ht : N.isTid tid) (hk : N.isKey k)
    (hpass : ∀ transIt, s.live tid = some transIt → ∀ key ∈ s.listed tid, key ≠ k →
      ∀ s₁, wlp (pass transIt key) (fun _ => Evolve (.apart k) s₁) c s₁) :
    wlp (finish tid a b pass) (fun r s' => (k ∉ s.listed tid → Evolve (.apart k) s s') ∧
      (k ∈ s.listed tid → ∃ transIt, s.live tid = some transIt ∧ r = b ∧
        SeenFrom c k (pass transIt k) s s')) c s := by
  have hs₁ := (Evolve.refl (.apart k) s).reap tid
  rw [wlp_bind, wlp_itemGet]
  cases hlive : s.live tid with
  | none =>
    refine .pure ⟨fun _ => hs₁, fun hmem => ?_⟩
    simp [Server.listed, hlive] at hmem
  | some transIt =>
    have htk : transIt.key = tid := key_of_live hlive
    simp only [wlp_bind, wlp_deref, wlp_itemUnlink, wlp_pure]
    intro keys hkeys
    have hlisted : s.listed tid = keys := by simp [Server.listed, hlive, hkeys]
    have hend : ∀ {s₀ s₁ : Server}, Evolve (.apart k) s₀ s₁ →
        Evolve (.apart k) s₀ (s₁.unlink transIt) := fun h =>
      h.unlink transIt fun _ _ _ => htk.symm ▸ N.tid_not_mem_recordNames ht hk
    rw [hlisted]
    refine (wlp_forEach_split (R := Evolve (.apart k)) (a := k) (Evolve.refl _)
      (fun _ _ _ => Evolve.trans) (hlisted ▸ hs.nodup_listed ht) ?_).mono ?_
    · exact fun key hkey hne s₂ => hpass transIt hlive key (hlisted ▸ hkey) hne s₂
    · rintro _ s' ⟨hout, hin⟩
      refine ⟨fun h => hend (hs₁.trans (hout h)), fun h => ?_⟩
      obtain ⟨s₂, s₃, h₂, hrun, h₃⟩ := hin h
      exact ⟨transIt, rfl, trivial, s₂, s₃, hs₁.trans h₂, hrun, hend h₃⟩

variable {pending cfgId : Int}

theorem darKeyPerm_le_apart (hk : Unprefixed k) (hkey : Unprefixed key) (hne : key ≠ k) :
    darKeyPerm c s tid key ≤ .apart k := by
  have hother : ∀ {n}, n ∈ recordNames key → n ∉ recordNames k := not_mem_recordNames hk hkey hne
  refine ⟨?_, ?_, ?_⟩
  · rintro n o (rfl | ⟨rfl, -⟩)
    · exact hother (by simp [recordNames])
    · exact hother (by simp [recordNames])
  · rintro n o o' ⟨rfl, -⟩
    exact hother (by simp [recordNames])
  · rintro n o' ⟨rfl, -⟩
    exact hother (by simp [recordNames])

theorem commitKeyPerm_le_apart (hk : Unprefixed k) (hkey : Unprefixed key)
    (hne : key ≠ k) : commitKeyPerm c s tid cfgId key ≤ .apart k := by
  have hother : ∀ {n}, n ∈ recordNames key → n ∉ recordNames k := not_mem_recordNames hk hkey hne
  have hval : ∀ {n}, n ∈ [key, pendingKey key] → n ∉ recordNames k := by
    intro n hn
    exact hother (by simp only [recordNames, mem_cons] at hn ⊢; tauto)
  refine ⟨?_, ?_, ?_⟩
  · rintro n o (⟨rfl, -⟩ | hn)
    · exact hother (by simp [recordNames])
    · exact hother (by simp only [recordNames, mem_cons] at hn ⊢; tauto)
  · rintro n o o' (⟨rfl, -⟩ | ⟨hn, -⟩)
    · exact hother (by simp [recordNames])
    · exact hval hn
  · rintro n o' (⟨rfl, -⟩ | ⟨hn, -⟩)
    · exact hother (by simp [recordNames])
    · exact hval hn

/-- `item_delete_and_release`, seen from one key. -/
theorem split_itemDeleteAndRelease (hs : s.ListsKeys N) (ht : N.isTid tid) (hk : N.isKey k) :
    wlp (itemDeleteAndRelease tid) (fun r s' => (k ∉ s.listed tid → Evolve (.apart k) s s') ∧
      (k ∈ s.listed tid → ∃ transIt, s.live tid = some transIt ∧ r = true ∧
        SeenFrom c k (itemDeleteAndReleaseKey tid k) s s')) c s := by
  refine wlp_finish_split hs ht hk fun transIt _ key hmem hne s₁ => ?_
  have hkey := (hs.of_listed ht hmem).1
  exact evolve_itemDeleteAndReleaseKey (.refl _ s₁)
    (darKeyPerm_le_apart (N.key_unprefixed hk) (N.key_unprefixed hkey) hne)

/-- `item_commit`, seen from one key. -/
theorem split_itemCommit (hs : s.ListsKeys N) (ht : N.isTid tid) (hk : N.isKey k) :
    wlp (itemCommit tid pending cfgId) (fun r s' => (k ∉ s.listed tid → Evolve (.apart k) s s') ∧
      (k ∈ s.listed tid → ∃ transIt, s.live tid = some transIt ∧ r = .ok ∧
        SeenFrom c k (itemCommitKey tid pending cfgId k) s s')) c s := by
  refine wlp_finish_split hs ht hk fun transIt _ key hmem hne s₁ => ?_
  have hkey := (hs.of_listed ht hmem).1
  exact evolve_itemCommitKey (.refl _ s₁)
    (commitKeyPerm_le_apart (N.key_unprefixed hk) (N.key_unprefixed hkey) hne)
    fun pvIt hpv _ => ⟨pvIt, (Server.live_eq_some.mp hpv).1, rfl⟩

end Apart

end Rejig
