import Rejig.StoreEffect

/-!
# What the IQ operations may do

For every operation behind the IQ commands, the permission it keeps to.  Permissions speak about the
state `s` in which the operation starts: the clock, the counters, and the lists that the operation
reads first.
-/

namespace Rejig

open Prog Server Option

variable {data key n tid : Bytes} {delta leaseToken : UInt64} {cfgId pending : Int} {it : Item}
  {update : PvUpdate} {A : Type} {a b : A} {incr : Bool} {pass : Item → Bytes → ServerM Unit}
  {s₁ : Server} {transIt : Option Item}

/-! ## Registering -/

/-- What `item_quarantine_and_register` may do. -/
def qaregPerm (c : Settings) (s : Server) (tid key : Bytes) : Perm where
  drop n o := n = leaseKey key ∧ o.hasILease
  edit n o o' := n = leaseKey key ∧ InvLease c s key tid o' ∨
    n = u8Name tid ∧ TransRecord c s tid key o' ∨ n = key ∧ ∃ e, o' = { o with exptime := e }
  install n o' := n = leaseKey key ∧ InvLease c s key tid o' ∨
    n = u8Name tid ∧ TransRecord c s tid key o'

section Registering

variable {c : Settings} {P : Perm} {s₀ s : Server}

/-- Adding a key to the list of a transaction; `transIt` was read when the operation started. -/
theorem evolve_itemAssocKeyTid (hs : Evolve P s₀ s) (hk : key.length ≤ keyMaxLen)
    (ht : transIt = s₀.live tid)
    (he : ∀ o it, TransRecord c s₀ tid key it → P.edit (u8Name tid) o it)
    (hi : ∀ it, TransRecord c s₀ tid key it → P.install (u8Name tid) it) :
    wlp (itemAssocKeyTid transIt key tid) (fun _ => Evolve P s₀) c s := by
  subst ht
  exact evolve_itemAddEntry hs (fun data rec o hdata h => he o rec ⟨hk, data, hdata, h⟩)
    fun data rec hdata h => hi rec ⟨hk, data, hdata, h⟩

theorem wlp_itemVoidILease {leaseIt : Option Item} {Q : Option Item → Server → Prop} :
    wlp (itemVoidILease leaseIt) Q c s ↔
      Q (leaseIt.filter (!·.hasILease)) ((leaseIt.filter (·.hasILease)).elim s s.unlink) := by
  cases leaseIt with
  | none => simp [itemVoidILease]
  | some leaseIt => cases h : leaseIt.hasILease <;> simp [itemVoidILease, h, filter_some]

/-- The state after an I lease has given way. -/
theorem Evolve.voidILease (hs : Evolve P s₀ s) (key : Bytes)
    (hd : ∀ o, o.hasILease → P.drop (leaseKey key) o) :
    Evolve P s₀ (((s.live (leaseKey key)).filter (·.hasILease)).elim (s.reap (leaseKey key))
      (s.reap (leaseKey key)).unlink) := by
  cases hl : s.live (leaseKey key) with
  | none => exact hs.reap _
  | some leaseIt =>
    have hk : leaseIt.key = leaseKey key := key_of_live hl
    cases hI : leaseIt.hasILease with
    | false => simpa [hI, filter_some] using hs.reap _
    | true =>
      rw [filter_some, if_pos hI]
      refine (hs.reap _).unlink_found ?_ ?_
      · rw [hk, find_reap_self, hl]
      · rw [hk]
        exact hd leaseIt hI

/-- `item_quarantine_and_register` keeps to its permission. -/
theorem evolve_itemQuarantineAndRegister (hk : key.length ≤ keyMaxLen)
    (ht : tid.length ≤ tidMaxLen) :
    wlp (itemQuarantineAndRegister tid key) (fun _ => Evolve (qaregPerm c s tid key) s) c s := by
  have hlk : u8Name (leaseKey key) = leaseKey key := u8Name_leaseKey hk
  have hs := (Evolve.refl (qaregPerm c s tid key) s).reap tid
  have hs₁ := hs.voidILease key fun o ho => ⟨rfl, ho⟩
  simp only [itemQuarantineAndRegister, itemGetLease, wlp_bind, wlp_itemGet, wlp_itemVoidILease,
    wlp_whenSome, wlp_itemWrite, live_reap] at hs₁ ⊢
  refine (evolve_itemAddEntry hs₁ ?_ ?_).mono fun _ s₂ hs₂ => ?_
  · exact fun data rec o hdata h => .inl ⟨hlk, ht, data, hdata, h⟩
  · exact fun data rec hdata h => .inl ⟨hlk, ht, data, hdata, h⟩
  refine (evolve_itemAssocKeyTid hs₂ hk rfl ?_ ?_).mono fun _ s₃ hs₃ => ?_
  · exact fun o it h => .inr (.inl ⟨rfl, h⟩)
  · exact fun it h => .inr ⟨rfl, h⟩
  have hs₄ := (hs₃.reap key).reap (leaseKey key)
  refine ⟨fun _ => hs₄, fun it hit => ⟨fun _ => hs₄, fun leaseIt _ => ?_⟩⟩
  refine hs₄.write (fun _ => rfl) fun o _ _ => .edit (.inr (.inr ⟨?_, _, rfl⟩))
  exact key_of_live hit

end Registering

/-! ## Ending a transaction -/

/-- The keys that the record of a transaction lists. -/
def Server.listed (s : Server) (tid : Bytes) : List Bytes :=
  ((s.live tid).bind fun it => trigKeylistEntries it.data).getD []

/-- The bytes are those of the pending version of a key that the transaction lists.  If the
transaction lists a name with a prefix, it may also have written the version itself. -/
def Server.Pends (s : Server) (tid key data : Bytes) : Prop :=
  (∀ k ∈ s.listed tid, Unprefixed k) → ∃ pv, s.find (versionKey key) = some pv ∧ data = pv.data

/-- The lease of a listed key without the transaction. -/
def rebuiltPerm (c : Settings) (s : Server) (tid key : Bytes) : Perm where
  drop _ _ := False
  edit n o o' := n = leaseKey key ∧ o.hasQInvLease ∧ Rebuilt c s (leaseKey key) tid o o'
  install n o' := n = leaseKey key ∧ ∃ l, l.hasQInvLease ∧ l.pinned = false ∧
    Rebuilt c s (leaseKey key) tid l o'

/-- What may be done for each key that a transaction lists, when the transaction ends. -/
def finishPerm (s : Server) (tid : Bytes) (P : Bytes → Perm) : Perm where
  drop n o := n = tid ∨ ∃ key ∈ s.listed tid, (P key).drop n o
  edit n o o' := ∃ key ∈ s.listed tid, (P key).edit n o o'
  install n o' := ∃ key ∈ s.listed tid, (P key).install n o'

/-- What `item_delete_and_release` may do for a key. -/
def darKeyPerm (c : Settings) (s : Server) (tid key : Bytes) : Perm where
  drop n o := n = key ∨ n = leaseKey key ∧ (o.hasQInvLease → o.Has tid)
  edit := (rebuiltPerm c s tid key).edit
  install := (rebuiltPerm c s tid key).install

/-- What `item_delete_and_release` may do. -/
def darPerm (c : Settings) (s : Server) (tid : Bytes) : Perm :=
  finishPerm s tid (darKeyPerm c s tid)

/-- A value or a pending marker, as a commit with the configuration number `cfgId` writes it. -/
structure Committed (s : Server) (cfgId : Int) (it : Item) : Prop where
  addr : s.nextAddr ≤ it.addr
  exptime : it.exptime = 0
  lease : it.lease = .none
  co : it.co = .none
  configNumber : it.configNumber = cfgId
  pinned : it.pinned = false

/-- What `item_commit` may do for a key. -/
def commitKeyPerm (c : Settings) (s : Server) (tid : Bytes) (cfgId : Int) (key : Bytes) : Perm where
  drop n o := n = leaseKey key ∧ o.hasQLease ∧ (o.hasQInvLease → o.Has tid) ∨
    n ∈ [key, versionKey key, pendingKey key]
  edit n o o' := (rebuiltPerm c s tid key).edit n o o' ∨
    n ∈ [key, pendingKey key] ∧ Committed s cfgId o' ∧ (n = key → s.Pends tid key o'.data)
  install n o' := (rebuiltPerm c s tid key).install n o' ∨
    n ∈ [key, pendingKey key] ∧ Committed s cfgId o' ∧ (n = key → s.Pends tid key o'.data)

/-- What `item_commit` may do. -/
def commitPerm (c : Settings) (s : Server) (tid : Bytes) (cfgId : Int) : Perm :=
  finishPerm s tid (commitKeyPerm c s tid cfgId)

/-- What `item_release` may do for a key, where `transIt` is the record of the transaction.  A
transaction that lists itself as a key leaves a record without a lease under the name of a lease. -/
def releaseKeyPerm (c : Settings) (s : Server) (tid : Bytes) (transIt : Option Item) (key : Bytes) :
    Perm where
  drop n o := n = tid ∨ n = versionKey key ∨ n = leaseKey key ∧
    (o.hasQLease ∨ ∃ t, transIt = some t ∧ Rebuilt c s (leaseKey key) tid t o)
  edit n _ o' := n = leaseKey key ∧ ∃ o, transIt = some o ∧ Rebuilt c s (leaseKey key) tid o o'
  install n o' := n = leaseKey key ∧ ∃ o, transIt = some o ∧ Rebuilt c s (leaseKey key) tid o o'

/-- What `item_release` may do. -/
def releasePerm (c : Settings) (s : Server) (tid : Bytes) : Perm :=
  finishPerm s tid (releaseKeyPerm c s tid (s.live tid))

section Ending

variable {c : Settings} {P : Perm} {s₀ s : Server}

theorem evolve_itemDropLease {leaseIt : Item} (hs : Evolve P s₀ s)
    (hl : s.live (leaseKey key) = some leaseIt)
    (hd : (leaseIt.hasQInvLease → leaseIt.Has tid) → P.drop (leaseKey key) leaseIt)
    (he : ∀ o o', (rebuiltPerm c s₀ tid key).edit (leaseKey key) o o' → P.edit (leaseKey key) o o')
    (hi : ∀ o', (rebuiltPerm c s₀ tid key).install (leaseKey key) o' →
      P.install (leaseKey key) o') :
    wlp (itemDropLease tid key leaseIt) (fun _ => Evolve P s₀) c s := by
  have hk : leaseIt.key = leaseKey key := key_of_live hl
  rw [itemDropLease]
  split
  · next hinv =>
    refine evolve_itemRemoveEntryFromList hs hl (fun hhas => hd fun _ => hhas) ?_ ?_
    · exact fun it h => he leaseIt it ⟨rfl, hinv, h⟩
    · exact fun it hp h => hi it ⟨rfl, leaseIt, hinv, hp, h⟩
  · next hinv =>
    rw [wlp_itemUnlink]
    exact hs.unlink_found (hk ▸ (live_eq_some.mp hl).1) (hk ▸ hd fun h => absurd h hinv)

theorem wlp_finish {I : Server → Prop} {Q : A → Server → Prop}
    (hnone : s.live tid = none → Q a (s.reap tid)) (hI : I (s.reap tid))
    (hpass : ∀ transIt, s.live tid = some transIt → ∀ key ∈ s.listed tid, ∀ s₁, I s₁ →
      wlp (pass transIt key) (fun _ => I) c s₁)
    (hend : ∀ transIt, s.live tid = some transIt → ∀ s₁, I s₁ → Q b (s₁.unlink transIt)) :
    wlp (finish tid a b pass) Q c s := by
  rw [wlp_bind, wlp_itemGet]
  cases ht : s.live tid with
  | none => exact .pure (hnone ht)
  | some transIt =>
    simp only [wlp_bind, wlp_deref, wlp_itemUnlink, wlp_pure]
    intro keys hkeys
    have hlisted : s.listed tid = keys := by simp [Server.listed, ht, hkeys]
    refine (wlp_forEach (fun key hkey s₁ hs₁ => ?_) hI).mono fun _ s₁ hs₁ => hend transIt ht s₁ hs₁
    exact hpass transIt ht key (hlisted ▸ hkey) s₁ hs₁

/-- An operation that ends a transaction keeps to its permission, if every pass of its loop does. -/
theorem evolve_finish {P : Bytes → Perm}
    (hpass : ∀ transIt, s.live tid = some transIt →
      ∀ key ∈ s.listed tid, ∀ s₁, Evolve (finishPerm s tid P) s s₁ → P key ≤ finishPerm s tid P →
        wlp (pass transIt key) (fun _ => Evolve (finishPerm s tid P) s) c s₁) :
    wlp (finish tid a b pass) (fun _ => Evolve (finishPerm s tid P) s) c s := by
  have hs := (Evolve.refl (finishPerm s tid P) s).reap tid
  refine wlp_finish (I := Evolve (finishPerm s tid P) s) (fun _ => hs) hs ?_ ?_
  · intro transIt ht key hkey s₁ hs₁
    exact hpass transIt ht key hkey s₁ hs₁ ⟨fun _ _ h => .inr ⟨key, hkey, h⟩,
      fun _ _ _ h => ⟨key, hkey, h⟩, fun _ _ h => ⟨key, hkey, h⟩⟩
  · intro transIt ht s₁ hs₁
    exact hs₁.unlink transIt fun o _ _ => .inl (key_of_live ht)

/-- One pass of the loop of `item_delete_and_release`. -/
theorem evolve_itemDeleteAndReleaseKey (hs : Evolve P s₀ s) (hP : darKeyPerm c s₀ tid key ≤ P) :
    wlp (itemDeleteAndReleaseKey tid key) (fun _ => Evolve P s₀) c s := by
  simp only [itemDeleteAndReleaseKey, itemGetLease, wlp_bind, wlp_itemGet]
  refine (evolve_dropFound hs fun it _ => hP.1 key it (.inl rfl)).mono fun _ s₁ hs₁ => ?_
  rw [wlp_whenSome]
  refine ⟨fun _ => hs₁.reap _, fun leaseIt hl => ?_⟩
  refine evolve_itemDropLease (hs₁.reap _) (by rwa [live_reap]) ?_ ?_ ?_
  · exact fun hhas => hP.1 _ _ (.inr ⟨rfl, hhas⟩)
  · exact fun o o' h => hP.2.1 _ o o' h
  · exact fun o' h => hP.2.2 _ o' h

/-- `item_delete_and_release` keeps to its permission. -/
theorem evolve_itemDeleteAndRelease :
    wlp (itemDeleteAndRelease tid) (fun _ => Evolve (darPerm c s tid) s) c s :=
  evolve_finish fun _ _ _ _ _ hs₁ hP => evolve_itemDeleteAndReleaseKey hs₁ hP

/-- Linking what a commit writes. -/
theorem Evolve.link_committed {name : Bytes} {dataflags : Nat} {p : UInt8} (hs₁ : Evolve P s₀ s₁)
    (hs : Evolve P s₀ s) (hname : name.length < 256)
    (he : ∀ o o', Committed s₀ cfgId o' → o'.data = data → P.edit name o o')
    (hi : ∀ o', Committed s₀ cfgId o' → o'.data = data → P.install name o') :
    Evolve P s₀ (s.link c { s₁.fresh name dataflags 0 cfgId with data := data, p := p }) := by
  have hc : Committed s₀ cfgId
      (s.stamp c { s₁.fresh name dataflags 0 cfgId with data := data, p := p }) :=
    ⟨hs₁.nextAddr, rfl, rfl, rfl, rfl, rfl⟩
  rw [← u8Name_of_lt hname] at he hi
  exact hs.link (fun o _ => he o _ hc rfl) fun _ => hi _ hc rfl

theorem evolve_itemCommitApply {pvIt : Item} (hs : Evolve P s₀ s) (hk : key.length < 256)
    (he : ∀ o o', Committed s₀ cfgId o' → o'.data = pvIt.data → P.edit key o o')
    (hi : ∀ o', Committed s₀ cfgId o' → o'.data = pvIt.data → P.install key o') :
    wlp (itemCommitApply key pvIt pending cfgId) (fun _ => Evolve P s₀) c s := by
  rw [itemCommitApply, wlp_bind, wlp_itemAllocConfig]
  intro _
  refine wlp_deref_store ?_ ?_
  · exact .pure (hs.link_committed hs.allocate hk he hi)
  · exact .pure hs.allocate

theorem evolve_itemCommitPending {it : Option Item} (hs : Evolve P s₀ s)
    (hk : (pendingKey key).length < 256) (hd : ∀ o, P.drop (pendingKey key) o)
    (he : ∀ o o', Committed s₀ cfgId o' → P.edit (pendingKey key) o o')
    (hi : ∀ o', Committed s₀ cfgId o' → P.install (pendingKey key) o') :
    wlp (itemCommitPending key it pending cfgId) (fun _ => Evolve P s₀) c s := by
  rw [itemCommitPending, wlp_bind, itemGetPending, wlp_itemGet]
  have hs₁ := hs.reap (pendingKey key)
  have hdrop : ∀ o, s.live (pendingKey key) = some o →
      Evolve P s₀ ((s.reap (pendingKey key)).unlink o) := by
    intro o ho
    have hk : o.key = pendingKey key := key_of_live ho
    exact hs₁.unlink o fun o' _ _ => hk ▸ hd o'
  cases it with
  | some it =>
    dsimp only
    rw [wlp_whenSome]
    exact ⟨fun _ => hs₁, fun o ho => wlp_itemUnlink.mpr (hdrop o ho)⟩
  | none =>
    cases hp : s.live (pendingKey key) with
    | some o =>
      dsimp only
      rw [wlp_when, wlp_itemUnlink]
      exact ⟨fun _ => hdrop o hp, fun _ => hs₁⟩
    | none =>
      dsimp only
      rw [wlp_when]
      refine ⟨fun _ => ?_, fun _ => hs₁⟩
      rw [wlp_bind, wlp_itemAllocConfig]
      intro _
      refine wlp_deref_store ?_ ?_
      · exact .pure (hs₁.link_committed hs₁.allocate hk (fun o o' h _ => he o o' h)
          fun o' h _ => hi o' h)
      · exact .pure hs₁.allocate

/-- One pass of the loop of `item_commit`. -/
theorem evolve_itemCommitKey (hs : Evolve P s₀ s) (hP : commitKeyPerm c s₀ tid cfgId key ≤ P)
    (hpv : ∀ pvIt, s.live (versionKey key) = some pvIt → s₀.Pends tid key pvIt.data) :
    wlp (itemCommitKey tid pending cfgId key) (fun _ => Evolve P s₀) c s := by
  have hdrop : ∀ n o, n ∈ [key, versionKey key, pendingKey key] → P.drop n o :=
    fun n o hn => hP.1 n o (.inr hn)
  have hval : ∀ n, n ∈ [key, pendingKey key] → ∀ o', Committed s₀ cfgId o' →
      (n = key → s₀.Pends tid key o'.data) → (∀ o, P.edit n o o') ∧ P.install n o' :=
    fun n hn o' h hd => ⟨fun o => hP.2.1 n o o' (.inr ⟨hn, h, hd⟩), hP.2.2 n o' (.inr ⟨hn, h, hd⟩)⟩
  simp only [itemCommitKey, itemGetLease, itemGetPendingVersion, wlp_bind, wlp_itemGet,
    live_reap, wlp_whenSome, wlp_when]
  have hs₁ := (hs.reap (leaseKey key)).reap (versionKey key)
  refine ⟨fun _ => hs₁, fun leaseIt hl => ⟨fun hq => ?_, fun _ => hs₁⟩⟩
  -- a key whose lease is found fits its length byte with any of the prefixes
  have hlen : (pendingKey key).length < 256 := by
    have := length_lt_of_find (live_eq_some.mp hl).1
    simpa [leaseKey, pendingKey] using this
  have hlen' : key.length < 256 := by
    simp only [pendingKey, List.length_cons] at hlen
    omega
  simp only [itemCommitLeased, wlp_bind, wlp_itemGet]
  refine (evolve_itemDropLease hs₁ (by simpa using hl) ?_ ?_ ?_).mono fun _ s₂ hs₂ => ?_
  · exact fun hhas => hP.1 _ _ (.inl ⟨rfl, hq, hhas⟩)
  · exact fun o o' h => hP.2.1 _ o o' (.inl h)
  · exact fun o' h => hP.2.2 _ o' (.inl h)
  have happly : wlp (whenSome (s.live (versionKey key)) fun pvIt =>
      itemCommitApply key pvIt pending cfgId) (fun _ => Evolve P s₀) c s₂ := by
    rw [wlp_whenSome]
    refine ⟨fun _ => hs₂, fun pvIt hlive => evolve_itemCommitApply hs₂ hlen' ?_ ?_⟩
    · exact fun o o' h hd => (hval _ (by simp) o' h fun _ => hd ▸ hpv pvIt hlive).1 o
    · exact fun o' h hd => (hval _ (by simp) o' h fun _ => hd ▸ hpv pvIt hlive).2
  refine happly.mono fun _ s₃ hs₃ => ?_
  have hunlink : wlp (whenSome (s₃.live key) fun it =>
      when ((s.live (versionKey key)).isNone || leaseIt.hasQInvLease) (itemUnlink it))
        (fun _ => Evolve P s₀) c (s₃.reap key) := by
    rw [wlp_whenSome]
    refine ⟨fun _ => hs₃.reap _, fun it hit => ?_⟩
    rw [wlp_when, wlp_itemUnlink]
    refine ⟨fun _ => (hs₃.reap _).unlink it fun o _ _ => ?_, fun _ => hs₃.reap _⟩
    exact hdrop _ o (by simp [key_of_live hit])
  refine hunlink.mono fun _ s₄ hs₄ => ?_
  refine (evolve_itemCommitPending hs₄ hlen ?_ ?_ ?_).mono fun _ s₅ hs₅ => ?_
  · exact fun o => hdrop _ o (by simp)
  · exact fun o o' h => (hval _ (by simp) o' h fun heq => absurd heq (pendingKey_ne_self key)).1 o
  · exact fun o' h => (hval _ (by simp) o' h fun heq => absurd heq (pendingKey_ne_self key)).2
  rw [wlp_whenSome]
  refine ⟨fun _ => hs₅, fun pvIt hpv => ?_⟩
  rw [wlp_itemUnlink]
  exact hs₅.unlink pvIt fun o _ _ => hdrop _ o (by simp [key_of_live hpv])

/-- Up to the pass for its key, a commit leaves a pending version alone. -/
theorem pends_of_evolve {pvIt : Item} (hs : Evolve (commitPerm c s₀ tid cfgId) s₀ s)
    (hpv : s.live (versionKey key) = some pvIt) : s₀.Pends tid key pvIt.data := by
  intro hun
  refine hs.invariant (n := versionKey key) (I := fun o => ∀ it, o = some it →
    ∃ pv, s₀.find (versionKey key) = some pv ∧ it.data = pv.data) ?_ (fun it hit =>
      ⟨it, hit, rfl⟩) pvIt
    (live_eq_some.mp hpv).1
  have hother : ∀ {n k}, k ∈ s₀.listed tid → n ∈ [k, pendingKey k] → n ≠ versionKey key := by
    rintro n k hk hn rfl
    simp only [List.mem_cons, List.not_mem_nil, or_false] at hn
    rcases hn with rfl | hn
    · exact not_unprefixed_versionKey key (hun _ hk)
    · exact versionKey_ne_pendingKey hn
  rintro o o' hchange ho it rfl
  cases hchange with
  | @touch it now => exact ho it rfl
  | edit h =>
    obtain ⟨k, hk, ⟨hn, -⟩ | ⟨hn, -⟩⟩ := h
    · exact absurd hn.symm leaseKey_ne_versionKey
    · exact absurd rfl (hother hk hn)
  | install h =>
    obtain ⟨k, hk, ⟨hn, -⟩ | ⟨hn, -⟩⟩ := h
    · exact absurd hn.symm leaseKey_ne_versionKey
    · exact absurd rfl (hother hk hn)

/-- `item_commit` keeps to its permission. -/
theorem evolve_itemCommit : wlp (itemCommit tid pending cfgId) (fun _ =>
        Evolve (commitPerm c s tid cfgId) s) c s :=
  evolve_finish fun _ _ _ _ _ hs₁ hP => evolve_itemCommitKey hs₁ hP fun _ => pends_of_evolve hs₁

/-- One pass of the loop of `item_release`. -/
theorem evolve_itemReleaseKey {transIt : Item} (hs : Evolve P s₀ s) (htk : transIt.key = tid)
    (hP : releaseKeyPerm c s₀ tid (some transIt) key ≤ P) :
    wlp (itemReleaseKey tid transIt key) (fun _ => Evolve P s₀) c s := by
  simp only [itemReleaseKey, itemGetLease, itemGetPendingVersion, wlp_bind, wlp_itemGet, live_reap]
  have hs₁ := (hs.reap (leaseKey key)).reap (versionKey key)
  rw [wlp_whenSome]
  refine ⟨fun _ => hs₁, fun leaseIt hl => ?_⟩
  rw [wlp_when]
  refine ⟨fun hq => ?_, fun _ => hs₁⟩
  have hlk : leaseIt.key = leaseKey key := key_of_live hl
  have hcut : u8Name (leaseKey key) = leaseKey key :=
    u8Name_of_lt (length_lt_of_find (live_eq_some.mp hl).1)
  -- what is under the name of the lease when the lease is unlinked
  let Found (s' : Server) : Prop := ∀ o, s'.find (leaseKey key) = some o →
    o = leaseIt ∨ Rebuilt c s₀ (leaseKey key) tid transIt o
  have hfound : Found ((s.reap (leaseKey key)).reap (versionKey key)) := by
    intro o ho
    simp only [find_reap, if_true, live_reap, hl, ite_self, Option.some.injEq] at ho
    exact .inl ho.symm
  generalize (s.reap (leaseKey key)).reap (versionKey key) = s₁ at hs₁ hfound
  have hremove : wlp (when leaseIt.hasQInvLease (itemRemoveTidLease transIt key tid))
      (fun _ s' => Evolve P s₀ s' ∧ Found s') c s₁ := by
    rw [wlp_when]
    refine ⟨fun _ => ?_, fun _ => ⟨hs₁, hfound⟩⟩
    have hfound' : Found s₁.allocate := by
      intro o ho
      rcases s₁.find_allocate_eq_or (leaseKey key) with heq | ⟨_, _, _, hnone⟩
      · exact hfound o (heq ▸ ho)
      · rw [hnone] at ho
        cases ho
    refine wlp_itemRemoveEntryFromList ⟨hs₁, hfound⟩ (fun _ => ⟨?_, ?_⟩) ⟨hs₁.allocate, hfound'⟩ ?_
    · exact hs₁.unlink transIt fun o _ _ => hP.1 _ o (.inl htk)
    · intro o ho
      rw [find_unlink] at ho
      split at ho
      · exact hfound o (filter_eq_some_iff.mp ho).1
      · exact hfound o ho
    · intro data hhas hdata
      refine ⟨hs₁.link_reserved hs₁.allocate ?_ ?_, ?_⟩
      · exact fun it o _ h => hP.2.1 _ o it ⟨hcut, transIt, rfl, hhas, data, hdata, h⟩
      · exact fun it _ h => hP.2.2 _ it ⟨hcut, transIt, rfl, hhas, data, hdata, h⟩
      · intro o ho
        rw [find_link] at ho
        split at ho
        · cases ho
          exact .inr ⟨hhas, data, hdata, hs₁.reserved_stamp hs₁.allocate⟩
        · exact hfound' o ho
  refine .bind (hremove.mono fun _ s₂ ⟨hs₂, hfound₂⟩ => ?_)
  rw [wlp_bind, wlp_itemUnlink, wlp_whenSome]
  have hs₃ : Evolve P s₀ (s₂.unlink leaseIt) := by
    refine hs₂.unlink leaseIt fun o ho _ => hP.1 _ o (.inr (.inr ⟨hlk, ?_⟩))
    rcases hfound₂ o (hlk ▸ ho) with rfl | h
    · exact .inl hq
    · exact .inr ⟨transIt, rfl, h⟩
  refine ⟨fun _ => hs₃, fun pvIt hpv => ?_⟩
  rw [wlp_itemUnlink]
  exact hs₃.unlink pvIt fun o _ _ => hP.1 _ o (.inr (.inl (key_of_live hpv)))

/-- `item_release` keeps to its permission. -/
theorem evolve_itemRelease : wlp (itemRelease tid) (fun _ => Evolve (releasePerm c s tid) s) c s :=
  evolve_finish fun _ ht _ _ _ hs₁ hP => evolve_itemReleaseKey hs₁ (key_of_live ht) (ht ▸ hP)

end Ending

/-! ## Refreshing -/

/-- An item that is neither a lease nor a record of a session. -/
def Plain (it : Item) : Prop := it.lease = .none ∧ it.co = .none

theorem Plain.storable (h : Plain it) : it.storable = decide (it.nbyte ≠ 0) := by
  simp [Item.storable, Item.isLeaseHolder, Item.hasILease, Item.hasQLease, Item.hasQInvLease,
    Item.hasQRefLease, Item.hasQIncrLease, Item.hasCoLease, Item.hasCLease, Item.hasOLease,
    Item.hasOLeaseInv, Item.hasOLeaseRef, h.1, h.2]

/-- A pending version, as an operation writes it. -/
structure Version (it : Item) : Prop where
  lease : it.lease = .none
  co : it.co = .none
  configNumber : it.configNumber = -1

/-- The key has no Q lease. -/
def Server.Unquarantined (s : Server) (key : Bytes) : Prop :=
  ∀ o, s.live (leaseKey key) = some o → o.hasQLease = false

/-- What `item_quarantine_and_read` may do: nothing on a key with a Q lease. -/
def qareadPerm (c : Settings) (s : Server) (tid key : Bytes) : Perm where
  drop _ _ := False
  edit n o o' := s.Unquarantined key ∧ (
    n = leaseKey key ∧ o.hasQLease = false ∧ TokenLease c s key .qRef o' ∨
    n = versionKey key ∧ Version o' ∨ n = u8Name tid ∧ TransRecord c s tid key o')
  install n o' := s.Unquarantined key ∧ (n = leaseKey key ∧ TokenLease c s key .qRef o' ∨
    n = versionKey key ∧ Version o' ∨ n = u8Name tid ∧ TransRecord c s tid key o')

/-- What `item_swap` may do. -/
def swapPerm (key : Bytes) : Perm where
  drop n _ := n = versionKey key ∨ n = pendingKey key
  edit n _ o' := n = versionKey key ∧ Version o'
  install n o' := n = versionKey key ∧ Version o'

/-- What `item_swap_and_release` may do. -/
def sarPerm (s : Server) (it : Item) (leaseToken : UInt64) : Perm where
  drop n o := n = leaseKey it.key ∧ o.leaseValue = leaseToken
  edit n _ o' := n = it.key ∧ Linked s it o'
  install n o' := n = it.key ∧ Linked s it o'

section Refreshing

variable {c : Settings} {P : Perm} {s₀ s : Server}

/-- A lease that has just been allocated, as it is when it is linked. -/
theorem Evolve.tokenLease_stamp (hs₁ : Evolve P s₀ s₁) (hs : Evolve P s₀ s) (c : Settings)
    (key : Bytes) (kind : Lease) (p : UInt8) :
    TokenLease c s₀ key kind (s.stamp c { s₁.freshLease c key kind with p := p }) := by
  refine ⟨s₁.leaseCurrentToken, s.stamp c (s₁.freshLease c key kind), hs₁.leaseCurrentToken,
    ⟨s₁.nextAddr, (s.stamp c (s₁.freshLease c key kind)).cas, hs₁.nextAddr, ?_⟩, p, rfl⟩
  rw [Server.stamp, Server.freshLease, hs.now, hs₁.leaseExpiry_eq]
  rfl

/-- Linking a pending version. -/
theorem Evolve.link_version (hs : Evolve P s₀ s) (hk : it.key = n) (hv : Version it)
    (he : ∀ o o', Version o' → P.edit n o o') (hi : ∀ o', Version o' → P.install n o') :
    Evolve P s₀ (s.link c it) := by
  subst hk
  have hv' : Version (s.stamp c it) := ⟨hv.lease, hv.co, hv.configNumber⟩
  exact hs.link (fun o _ => he o _ hv') fun _ => hi _ hv'

/-- What is found under the name of the lease after the allocation of a new one. -/
theorem Server.Unquarantined.of_allocate (h : s.Unquarantined key) {o : Item}
    (ho : ((s.reap n).reap (leaseKey key)).draw.allocate.live (leaseKey key) = some o) :
    o.hasQLease = false := by
  obtain ⟨hf, -⟩ := live_eq_some.mp ho
  rcases ((s.reap n).reap (leaseKey key)).draw.find_allocate_eq_or (leaseKey key) with
    heq | ⟨_, _, _, hnone⟩
  · rw [heq, find_draw, find_reap_self, live_reap] at hf
    exact h o hf
  · rw [hnone] at hf
    cases hf

theorem evolve_itemQareadGrant (hk : key.length ≤ keyMaxLen) (h : s.Unquarantined key) :
    wlp (itemQareadGrant tid key (s.live tid)) (fun _ => Evolve (qareadPerm c s tid key) s) c
      ((s.reap tid).reap (leaseKey key)) := by
  have hs := ((Evolve.refl (qareadPerm c s tid key) s).reap tid).reap (leaseKey key)
  have hlk : u8Name (leaseKey key) = leaseKey key := u8Name_leaseKey hk
  have htrans : ∀ s', Evolve (qareadPerm c s tid key) s s' →
      wlp (itemAssocKeyTid (s.live tid) key tid) (fun _ =>
        Evolve (qareadPerm c s tid key) s) c s' := by
    intro s' hs'
    refine evolve_itemAssocKeyTid hs' hk rfl ?_ ?_
    · exact fun o it hit => ⟨h, .inr (.inr ⟨rfl, hit⟩)⟩
    · exact fun it hit => ⟨h, .inr (.inr ⟨rfl, hit⟩)⟩
  have hlink : Evolve (qareadPerm c s tid key) s
      (((s.reap tid).reap (leaseKey key)).draw.allocate.link c
        (((s.reap tid).reap (leaseKey key)).freshLease c key .qRef)) := by
    have htok := hs.tokenLease_stamp hs.draw.allocate c key .qRef 0
    refine hs.draw.allocate.link ?_ ?_
    · intro o ho
      rw [freshLease_key, hlk] at ho ⊢
      exact ⟨h, .inl ⟨rfl, h.of_allocate ho, htok⟩⟩
    · intro _
      rw [freshLease_key, hlk]
      exact ⟨h, .inl ⟨rfl, htok⟩⟩
  refine wlp_store_lease (fun _ => rfl) (.inr rfl) (by simp) ?_
  generalize Server.link c _ _ = s₂ at hlink ⊢
  rw [wlp_bind, wlp_itemGet]
  cases horig : s₂.live key with
  | none =>
    rw [wlp_bind, itemGetPending, wlp_itemGet, wlp_bind]
    exact (htrans _ ((hlink.reap _).reap _)).mono fun _ _ h => .pure h
  | some origIt =>
    have hok : origIt.key = key := key_of_live horig
    dsimp only
    rw [wlp_bind, wlp_itemCreatePendingVersion]
    intro _
    have hver : Evolve (qareadPerm c s tid key) s ((s₂.reap key).allocate.link c
        { (s₂.reap key).freshVersion c origIt origIt.data with
          p := origIt.p, exptime := ((s.reap tid).reap (leaseKey key)).leaseExpiry c }) := by
      have hvk : u8Name (versionKey origIt.key) = versionKey key := by
        rw [hok, u8Name_versionKey hk]
      refine (hlink.reap _).allocate.link_version hvk ⟨rfl, rfl, rfl⟩ ?_ ?_
      · exact fun o o' hp => ⟨h, .inr (.inl ⟨rfl, hp⟩)⟩
      · exact fun o' hp => ⟨h, .inr (.inl ⟨rfl, hp⟩)⟩
    have hrest : ∀ s', Evolve (qareadPerm c s tid key) s s' → ∀ r : QareadResult,
        wlp (do itemAssocKeyTid (s.live tid) key tid; pure r)
          (fun _ => Evolve (qareadPerm c s tid key) s) c s' := by
      intro s' hs' r
      exact .bind ((htrans s' hs').mono fun _ _ h => .pure h)
    refine wlp_deref_store ?_ ?_
    · exact hrest _ hver _
    · exact hrest _ (hlink.reap _).allocate _

/-- `item_quarantine_and_read` keeps to its permission. -/
theorem evolve_itemQuarantineAndRead (hk : key.length ≤ keyMaxLen) :
    wlp (itemQuarantineAndRead tid key leaseToken) (fun _ =>
        Evolve (qareadPerm c s tid key) s) c s := by
  have hs := ((Evolve.refl (qareadPerm c s tid key) s).reap tid).reap (leaseKey key)
  simp only [itemQuarantineAndRead, itemGetLease, wlp_bind, wlp_itemGet, live_reap]
  cases hl : s.live (leaseKey key) with
  | none =>
    exact evolve_itemQareadGrant hk fun o ho => by rw [hl] at ho; cases ho
  | some leaseIt =>
    dsimp only
    split
    · split
      · simp only [itemQareadOwn, itemGetPendingVersion, wlp_bind, wlp_itemGet]
        split
        · exact .pure (hs.reap _)
        · rw [wlp_bind, itemGetPending, wlp_itemGet]
          exact .pure ((hs.reap _).reap _)
      · exact .pure hs
    · next hq =>
      refine evolve_itemQareadGrant hk fun o ho => ?_
      rw [hl] at ho
      cases ho
      simpa using hq

theorem evolve_itemSwapPending (hs : Evolve P s₀ s) (hv : ∀ o, P.drop (versionKey key) o)
    (hp : ∀ o, P.drop (pendingKey key) o) :
    wlp (itemSwapPending key) (fun _ => Evolve P s₀) c s := by
  rw [itemSwapPending, itemGetPendingVersion, wlp_bind, wlp_itemGet]
  cases hpv : s.live (versionKey key) with
  | some pvIt =>
    rw [wlp_bind, wlp_itemUnlink, wlp_pure]
    exact (hs.reap _).unlink pvIt fun o _ _ => key_of_live hpv ▸ hv o
  | none =>
    rw [wlp_bind, itemGetPending, wlp_itemGet]
    have hs₁ := (hs.reap (versionKey key)).reap (pendingKey key)
    cases hpd : (s.reap (versionKey key)).live (pendingKey key) with
    | none => exact .pure hs₁
    | some pendingIt =>
      rw [wlp_bind, wlp_itemUnlink, wlp_pure]
      exact hs₁.unlink pendingIt fun o _ _ => key_of_live hpd ▸ hp o

/-- `item_swap` keeps to its permission. -/
theorem evolve_itemSwap (hk : it.key.length ≤ keyMaxLen) :
    wlp (itemSwap it leaseToken) (fun _ => Evolve (swapPerm it.key) s) c s := by
  have hs := (Evolve.refl (swapPerm it.key) s).reap (leaseKey it.key)
  have hvk : u8Name (versionKey it.key) = versionKey it.key := u8Name_versionKey hk
  rw [itemSwap, itemGetLease, wlp_bind, wlp_itemGet]
  cases s.live (leaseKey it.key) with
  | none => exact .pure hs
  | some leaseIt =>
    dsimp only
    split
    · exact .pure hs
    split
    · exact .pure hs
    refine .bind ((evolve_itemSwapPending hs (fun o => .inl rfl) fun o => .inr rfl).mono
      fun pending s₁ hs₁ => ?_)
    rw [wlp_bind, wlp_itemCreatePendingVersion]
    intro _
    refine wlp_deref_store ?_ ?_
    · rw [wlp_pure]
      exact hs₁.allocate.link_version hvk ⟨rfl, rfl, rfl⟩ (fun _ _ h => ⟨rfl, h⟩) fun _ h =>
        ⟨rfl, h⟩
    · exact .pure hs₁.allocate

/-- `item_swap_and_release` keeps to its permission. -/
theorem evolve_itemSwapAndRelease :
    wlp (itemSwapAndRelease it leaseToken) (fun _ => Evolve (sarPerm s it leaseToken) s) c s := by
  have hs := (Evolve.refl (sarPerm s it leaseToken) s).reap (leaseKey it.key)
  rw [itemSwapAndRelease, itemGetLease, wlp_bind, wlp_itemGet]
  cases hl : s.live (leaseKey it.key) with
  | none => exact .pure hs
  | some leaseIt =>
    have hlk : leaseIt.key = leaseKey it.key := key_of_live hl
    dsimp only
    split
    · exact .pure hs
    next htok =>
    rw [wlp_bind, wlp_itemUnlink]
    have hs₁ : Evolve (sarPerm s it leaseToken) s ((s.reap (leaseKey it.key)).unlink leaseIt) := by
      refine hs.unlink_found ?_ ⟨hlk, not_not.mp htok⟩
      rw [hlk, find_reap_self, hl]
    have hlink : ∀ s', Evolve (sarPerm s it leaseToken) s s' →
        Evolve (sarPerm s it leaseToken) s (s'.link c it) :=
      fun s' hs' => hs'.link_value it (fun _ _ h => ⟨rfl, h⟩) fun _ h => ⟨rfl, h⟩
    split
    · exact .pure hs₁
    rw [wlp_bind, wlp_itemGet]
    split
    · rw [wlp_bind, wlp_itemStore_set (.inl rfl)]
      split
      · exact .pure (hlink _ (hs₁.reap _))
      · exact .pure (hs₁.reap _)
    · next oit hoit =>
      simp only [itemReplace, wlp_bind, wlp_itemUnlink, wlp_itemLink, wlp_pure]
      rw [link_unlink _ _ (key_of_live hoit)]
      exact hlink _ (hs₁.reap _)

end Refreshing

/-! ## Reading -/

/-- What `item_iqget` may do. -/
def iqgetPerm (c : Settings) (s : Server) (key : Bytes) (override : Bool) : Perm where
  drop n _ := override = true ∧ n = key ∧ s.live (leaseKey key) = none
  edit n o o' := n = leaseKey key ∧ ∃ p, o' = { o with p := p }
  install n o' := n = leaseKey key ∧ TokenLease c s key .i o'

section Reading

variable {c : Settings} {s₀ s : Server} {override : Bool}

theorem evolve_itemIqgetHeld {leaseIt : Item} {pending : UInt8}
    (hs : Evolve (iqgetPerm c s₀ key override) s₀ s) (hk : leaseIt.key = leaseKey key) :
    wlp (itemIqgetHeld leaseIt pending leaseToken) (fun _ =>
        Evolve (iqgetPerm c s₀ key override) s₀) c s := by
  rw [itemIqgetHeld, wlp_bind, wlp_itemWrite]
  have hs₁ : Evolve (iqgetPerm c s₀ key override) s₀
      (s.write leaseIt fun it => { it with p := pending }) :=
    hs.write (fun _ => rfl) fun o _ _ => .edit ⟨hk, pending, rfl⟩
  dsimp only
  split
  · exact .pure hs₁
  · exact .pure hs₁

theorem evolve_itemIqgetGrant {it : Option Item} {pending : UInt8}
    (hs : Evolve (iqgetPerm c s₀ key override) s₀ s) (hlen : key.length ≤ keyMaxLen)
    (hl : s₀.live (leaseKey key) = none) (hl' : s.find (leaseKey key) = none)
    (hit : ∀ o, it = some o → o.key = key ∧ override = true) :
    wlp (itemIqgetGrant key pending it) (fun _ => Evolve (iqgetPerm c s₀ key override) s₀) c s := by
  have hlk : u8Name (leaseKey key) = leaseKey key := u8Name_leaseKey hlen
  rw [itemIqgetGrant, wlp_bind, wlp_itemCreateLease]
  intro _
  have hs₁ : Evolve (iqgetPerm c s₀ key override) s₀ s.draw.allocate := hs.draw.allocate
  have hnone : s.draw.allocate.find (leaseKey key) = none := by
    rcases s.draw.find_allocate_eq_or (leaseKey key) with heq | ⟨_, _, _, h⟩
    · rw [heq, find_draw, hl']
    · exact h
  cases s.room with
  | false => exact .pure hs₁
  | true =>
    simp only [if_true, wlp_bind]
    -- the value that `iset` drops is not under the name of the lease
    have hdrop : wlp (whenSome it itemUnlink) (fun _ s' =>
      Evolve (iqgetPerm c s₀ key override) s₀ s' ∧
        s'.find (leaseKey key) = none) c s.draw.allocate := by
      rw [wlp_whenSome]
      refine ⟨fun _ => ⟨hs₁, hnone⟩, fun o ho => ?_⟩
      obtain ⟨hok, hov⟩ := hit o ho
      rw [wlp_itemUnlink]
      refine ⟨hs₁.unlink o fun _ _ _ => ⟨hov, hok, hl⟩, ?_⟩
      rw [find_unlink, if_neg (hok ▸ leaseKey_ne_self key), hnone]
    refine hdrop.mono fun _ s₂ ⟨hs₂, hnone₂⟩ => ?_
    rw [wlp_itemStore_set (.inl rfl), if_pos (Item.storable_of_lease (by simp)), wlp_pure]
    have htok := hs.tokenLease_stamp hs₂ c key .i pending
    refine hs₂.link ?_ fun _ => ⟨hlk, htok⟩
    intro o ho
    have hkey : Item.key { s.freshLease c key .i with p := pending } = leaseKey key := hlk
    rw [hkey, live_of_find_none hnone₂] at ho
    cases ho

/-- Checking a list leaves the state alone. -/
theorem wlp_itemCheckEntry {it : Option Item} {entry : Bytes} {Q : Bool → Server → Prop}
    (h : ∀ b, Q b s) : wlp (itemCheckEntry it entry) Q c s := by
  cases it with
  | none => exact .pure (h false)
  | some it => exact wlp_deref.mpr fun b _ => h b

theorem evolve_itemIqgetOwn {P : Perm} (hs : Evolve P s₀ s) :
    wlp (itemIqgetOwn key) (fun _ => Evolve P s₀) c s := by
  rw [itemIqgetOwn, itemGetLease, wlp_bind, wlp_itemGet]
  split
  · exact .pure (hs.reap _)
  split
  · exact .pure (hs.reap _)
  split
  · rw [wlp_bind, itemGetPendingVersion, wlp_itemGet]
    split
    · exact .pure ((hs.reap _).reap _)
    · exact .pure ((hs.reap _).reap _)
  · exact .pure (hs.reap _)

theorem evolve_itemIqgetValue (hs : Evolve (iqgetPerm c s₀ key override) s₀ s)
    (hlen : key.length ≤ keyMaxLen) (hlive : s.live (leaseKey key) = s₀.live (leaseKey key))
    (hit : it.key = key) :
    wlp (itemIqgetValue key it leaseToken override) (fun _ =>
        Evolve (iqgetPerm c s₀ key override) s₀) c s := by
  rw [itemIqgetValue, itemGetLease, wlp_bind, wlp_itemGet]
  split
  · exact .pure (hs.reap _)
  split
  · next hov =>
    split
    · next hnone =>
      refine evolve_itemIqgetGrant (hs.reap _) hlen (hlive ▸ hnone) ?_ ?_
      · rw [find_reap_self, hnone]
      · rintro o ⟨⟩
        exact ⟨hit, hov⟩
    · next leaseIt hl => exact evolve_itemIqgetHeld (hs.reap _) (key_of_live hl)
  · exact .bind ((evolve_itemTouch (hs.reap _)).mono fun _ _ h => .pure h)

/-- `item_iqget` keeps to its permission. -/
theorem evolve_itemIqget (hlen : key.length ≤ keyMaxLen) :
    wlp (itemIqget key leaseToken tid override) (fun _ =>
        Evolve (iqgetPerm c s key override) s) c s := by
  -- the first three reads only reap
  have hread : wlp (itemIqgetTrans tid) (fun _ s' => Evolve (iqgetPerm c s key override) s s' ∧
      s'.live = s.live) c s := by
    have hs := Evolve.refl (iqgetPerm c s key override) s
    rw [itemIqgetTrans]
    split
    · exact .pure ⟨hs, rfl⟩
    · exact wlp_itemGet.mpr ⟨hs.reap _, funext fun n => s.live_reap tid n⟩
  rw [itemIqget, wlp_bind]
  refine hread.mono fun transIt s₁ ⟨hs₁, hlive₁⟩ => ?_
  rw [wlp_bind, wlp_itemGet]
  have hpend : wlp (itemIqgetPending key (s₁.live key))
      (fun _ s' => Evolve (iqgetPerm c s key override) s s' ∧ s'.live = s.live) c
        (s₁.reap key) := by
    have hlive : (s₁.reap key).live = s.live := (funext fun n => s₁.live_reap key n).trans hlive₁
    cases s₁.live key with
    | some it => exact .pure ⟨hs₁.reap _, hlive⟩
    | none =>
      rw [itemIqgetPending, wlp_bind, itemGetPending, wlp_itemGet, wlp_pure]
      exact ⟨(hs₁.reap _).reap _, (funext fun n => live_reap _ _ n).trans hlive⟩
  refine .bind (hpend.mono fun pending s₂ ⟨hs₂, hlive₂⟩ => ?_)
  refine .bind (wlp_itemCheckEntry fun own => ?_)
  split
  · exact evolve_itemIqgetOwn hs₂
  split
  · next it hit =>
    exact evolve_itemIqgetValue hs₂ hlen (congrFun hlive₂ _) (key_of_live hit)
  · rw [wlp_bind, itemGetLease, wlp_itemGet]
    split
    · next hnone =>
      refine evolve_itemIqgetGrant (hs₂.reap _) hlen ?_ ?_ (by simp)
      · rw [← hlive₂, hnone]
      · rw [find_reap_self, hnone]
    · next leaseIt hl => exact evolve_itemIqgetHeld (hs₂.reap _) (key_of_live hl)

end Reading

/-! ## Incremental updates -/

/-- The transaction lists the key. -/
def Server.Lists (s : Server) (tid key : Bytes) : Prop :=
  ∃ it, s.live tid = some it ∧ it.Has key

/-- The key has no lease but an I lease, or the transaction lists it. -/
def Server.MayUpdate (s : Server) (tid key : Bytes) : Prop :=
  (∀ o, s.live (leaseKey key) = some o → o.hasILease) ∨ s.Lists tid key

/-- What an incremental update may do: on a key with a Q lease, only for a transaction that lists
the key. -/
def iqDeltaPerm (c : Settings) (s : Server) (tid key : Bytes) : Perm where
  drop n o := n = leaseKey key ∧ o.hasILease
  edit n o o' := n = versionKey key ∧ s.MayUpdate tid key ∧
      (Version o' ∨ ∃ cas data, o' = { o with cas := cas, data := data }) ∨
    n = u8Name tid ∧ TransRecord c s tid key o'
  install n o' := n = leaseKey key ∧ TokenLease c s key .qInc o' ∨
    n = versionKey key ∧ s.MayUpdate tid key ∧ Version o' ∨ n = u8Name tid ∧
    TransRecord c s tid key o'

section Incremental

variable {c : Settings} {P : Perm} {s₀ s : Server}

/-- A change of the pending version of `key` that stays there. -/
def PvUpdate.Within (c : Settings) (key : Bytes) (update : PvUpdate) : Prop :=
  ∀ (P : Perm) (s₀ s : Server) (pvIt : Item), Evolve P s₀ s → pvIt.key = versionKey key →
    (∀ o o', Version o' → P.edit (versionKey key) o o') →
    (∀ o cas data, P.edit (versionKey key) o { o with cas := cas, data := data }) →
    (∀ o', Version o' → P.install (versionKey key) o') →
    wlp (update key pvIt) (fun _ => Evolve P s₀) c s

theorem within_itemAppendPrependIq {append : Bool} (hk : key.length ≤ keyMaxLen) :
    PvUpdate.Within c key (itemAppendPrependIq append data) := by
  intro P s₀ s pvIt hs hpv he _ hi
  have hvk : u8Name pvIt.key = versionKey key := by rw [hpv, u8Name_versionKey hk]
  simp only [itemAppendPrependIq]
  generalize (if append = true then pvIt.data ++ data else data ++ pvIt.data) = newData
  rw [wlp_bind, wlp_itemAlloc]
  intro _
  refine wlp_deref_store ?_ ?_
  · exact .pure (hs.allocate.link_version hvk ⟨rfl, rfl, rfl⟩ he hi)
  · exact .pure hs.allocate

theorem within_itemAddDeltaIq (hk : key.length ≤ keyMaxLen) :
    PvUpdate.Within c key (itemAddDeltaIq incr delta) := by
  intro P s₀ s pvIt hs _ he hw hi
  have hlen : (versionKey key).length < 256 := by
    simp only [versionKey, List.length_cons, keyMaxLen] at hk ⊢
    omega
  rw [itemAddDeltaIq, wlp_bind]
  refine (evolve_itemAddDelta_of hs hlen (fun o o' h => he o o' ⟨h.lease, h.co, h.configNumber⟩) hw
    fun o o' _ h => hi o' ⟨h.lease, h.co, h.configNumber⟩).mono fun r s' hs' => ?_
  cases r <;> exact .pure hs'

section

variable (hu : update.Within c key)

include hu

theorem evolve_itemIqDeltaGrant {it : Option Item} (hk : key.length ≤ keyMaxLen)
    (hm : s₀.MayUpdate tid key) (hs : Evolve (iqDeltaPerm c s₀ tid key) s₀ s)
    (hnone : s.find (leaseKey key) = none) (hit : ∀ o, it = some o → o.key = key) :
    wlp (itemIqDeltaGrant update key tid it (s₀.live tid)) (fun _ =>
        Evolve (iqDeltaPerm c s₀ tid key) s₀) c s := by
  have hlk : u8Name (leaseKey key) = leaseKey key := u8Name_leaseKey hk
  refine wlp_store_lease (fun _ => rfl) (.inl rfl) (by simp) ?_
  have hlink : Evolve (iqDeltaPerm c s₀ tid key) s₀
      (s.draw.allocate.link c (s.freshLease c key .qInc)) := by
    have htok := hs.tokenLease_stamp hs.draw.allocate c key .qInc 0
    have hnone' : s.draw.allocate.find (leaseKey key) = none := by
      rcases s.draw.find_allocate_eq_or (leaseKey key) with heq | ⟨_, _, _, h⟩
      · rw [heq, find_draw, hnone]
      · exact h
    refine hs.draw.allocate.link ?_ fun _ => .inl ⟨hlk, htok⟩
    intro o ho
    rw [freshLease_key, hlk, live_of_find_none hnone'] at ho
    cases ho
  refine .bind ((evolve_itemAssocKeyTid hlink hk rfl ?_ ?_).mono fun _ s₂ hs₂ => ?_)
  · exact fun o it h => .inr ⟨rfl, h⟩
  · exact fun it h => .inr (.inr ⟨rfl, h⟩)
  cases it with
  | none =>
    rw [wlp_bind, itemGetPending, wlp_itemGet]
    exact .pure (hs₂.reap _)
  | some it =>
    have hvk : u8Name (versionKey it.key) = versionKey key := by
      rw [hit it rfl, u8Name_versionKey hk]
    have hversion : ∀ o o', Version o' → (iqDeltaPerm c s₀ tid key).edit (versionKey key) o o' :=
      fun o o' h => .inl ⟨rfl, hm, .inl h⟩
    have hinst : ∀ o', Version o' → (iqDeltaPerm c s₀ tid key).install (versionKey key) o' :=
      fun o' h => .inr (.inl ⟨rfl, hm, h⟩)
    have hupd : ∀ s' pvIt, Evolve (iqDeltaPerm c s₀ tid key) s₀ s' → pvIt.key = versionKey key →
        wlp (update key pvIt) (fun _ => Evolve (iqDeltaPerm c s₀ tid key) s₀) c s' :=
      fun s' pvIt hs' hpv => hu _ _ _ _ hs' hpv hversion
        (fun o cas data => .inl ⟨rfl, hm, .inr ⟨cas, data, rfl⟩⟩) hinst
    dsimp only
    rw [wlp_bind, wlp_itemCreatePendingVersion]
    intro _
    refine wlp_deref_store ?_ ?_
    · rw [wlp_bind]
      have hs₃ : Evolve (iqDeltaPerm c s₀ tid key) s₀
        (s₂.allocate.link c { s₂.freshVersion c it it.data with
            p := it.p, exptime := (s.freshLease c key .qInc).exptime }) :=
        hs₂.allocate.link_version hvk ⟨rfl, rfl, rfl⟩ hversion hinst
      exact (hupd _ _ hs₃ hvk).mono fun _ _ h => .pure h
    · exact .bind ((hupd _ _ hs₂.allocate hvk).mono fun _ _ h => .pure h)

/-- An update for a transaction that lists the key, under a permission to change its pending
version. -/
theorem evolve_itemIqDeltaOwn {leaseIt : Item} (hs : Evolve P s₀ s)
    (he : ∀ t, transIt = some t → t.Has key → ∀ o o', Version o' → P.edit (versionKey key) o o')
    (hw : ∀ t, transIt = some t → t.Has key → ∀ o cas data,
      P.edit (versionKey key) o { o with cas := cas, data := data })
    (hi : ∀ t, transIt = some t → t.Has key → ∀ o', Version o' → P.install (versionKey key) o') :
    wlp (itemIqDeltaOwn update key leaseIt transIt) (fun _ => Evolve P s₀) c s := by
  rw [itemIqDeltaOwn, wlp_bind]
  cases ht : transIt with
  | none =>
    rw [itemCheckEntry, wlp_pure]
    exact .pure hs
  | some transIt =>
    rw [itemCheckEntry, wlp_deref]
    intro own hown
    cases own with
    | false => exact .pure hs
    | true =>
      simp only [Bool.not_true, Bool.false_eq_true, if_false, itemGetPendingVersion]
      rw [wlp_bind, wlp_itemGet]
      split
      · next pvIt hpv =>
        exact .bind ((hu _ _ _ _ (hs.reap _) (key_of_live hpv) (he _ ht hown) (hw _ ht hown)
          (hi _ ht hown)).mono fun _ _ h => .pure h)
      · rw [wlp_bind, itemGetPending, wlp_itemGet]
        exact .pure ((hs.reap _).reap _)

/-- The update of its own pending version by a transaction keeps to the permission. -/
theorem evolve_itemIqDeltaOwn_perm {leaseIt : Item} (hs : Evolve (iqDeltaPerm c s₀ tid key) s₀ s) :
    wlp (itemIqDeltaOwn update key leaseIt (s₀.live tid)) (fun _ =>
        Evolve (iqDeltaPerm c s₀ tid key) s₀) c s := by
  have hm : ∀ t, s₀.live tid = some t → t.Has key → s₀.MayUpdate tid key :=
    fun t ht hhas => .inr ⟨t, ht, hhas⟩
  refine evolve_itemIqDeltaOwn hu hs ?_ ?_ ?_
  · exact fun t ht hhas o o' h => .inl ⟨rfl, hm t ht hhas, .inl h⟩
  · exact fun t ht hhas o cas data => .inl ⟨rfl, hm t ht hhas, .inr ⟨cas, data, rfl⟩⟩
  · exact fun t ht hhas o' h => .inr (.inl ⟨rfl, hm t ht hhas, h⟩)

theorem evolve_itemIqDelta (hk : key.length ≤ keyMaxLen)
    {own : (leaseIt : Item) → (transIt : Option Item) → ServerM IqDeltaResult}
    (hown : ∀ s' leaseIt, Evolve (iqDeltaPerm c s tid key) s s' →
      wlp (own leaseIt (s.live tid)) (fun _ => Evolve (iqDeltaPerm c s tid key) s) c s') :
    wlp (itemIqDelta key tid (itemIqDeltaGrant update key tid) own)
      (fun _ => Evolve (iqDeltaPerm c s tid key) s) c s := by
  have hs := ((Evolve.refl (iqDeltaPerm c s tid key) s).reap key).reap tid
  have hs₁ := hs.voidILease key fun o ho => ⟨rfl, ho⟩
  simp only [itemIqDelta, itemGetLease, wlp_bind, wlp_itemGet, wlp_itemVoidILease,
    live_reap] at hs₁ ⊢
  cases hl : (s.live (leaseKey key)).filter (!·.hasILease) with
  | some leaseIt => exact hown _ leaseIt hs₁
  | none =>
    refine evolve_itemIqDeltaGrant hu hk ?_ hs₁ ?_ fun o ho => key_of_live ho
    · refine .inl fun o ho => ?_
      rw [ho, filter_some] at hl
      simpa using hl
    · cases hlive : s.live (leaseKey key) with
      | none => simp [hlive]
      | some leaseIt =>
        have hI : leaseIt.hasILease = true := by
          rw [hlive, filter_some] at hl
          simpa using hl
        have hlk : leaseIt.key = leaseKey key := key_of_live hlive
        rw [filter_some, if_pos hI, elim_some, find_unlink_of_find]
        · rw [if_pos hlk.symm]
        · rw [hlk, find_reap_self, live_reap, live_reap, hlive]

end

/-- `item_iqappend_iqprepend` keeps to its permission. -/
theorem evolve_itemIqappendIqprepend {append : Bool} (hk : key.length ≤ keyMaxLen) :
    wlp (itemIqappendIqprepend append key data tid) (fun _ =>
        Evolve (iqDeltaPerm c s tid key) s) c s :=
  evolve_itemIqDelta (within_itemAppendPrependIq hk) hk fun _ _ hs' =>
    evolve_itemIqDeltaOwn_perm (within_itemAppendPrependIq hk) hs'

/-- `_item_iqincr_iqdecr` keeps to its permission. -/
theorem evolve_itemIqincrIqdecr (hk : key.length ≤ keyMaxLen) :
    wlp (itemIqincrIqdecr incr key delta tid) (fun _ =>
        Evolve (iqDeltaPerm c s tid key) s) c s := by
  refine evolve_itemIqDelta (within_itemAddDeltaIq hk) hk fun s' leaseIt hs' => ?_
  split
  · exact evolve_itemIqDeltaOwn_perm (within_itemAddDeltaIq hk) hs'
  · exact .pure hs'

end Incremental

end Rejig
