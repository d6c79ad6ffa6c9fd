import Rejig.Quiet
import Rejig.Release

/-!
# Writers with enough memory

What the requests of writers do when the allocator always finds a chunk: `qaread`, `iqappend` and
`iqincr` quarantine a key, `qareg` registers for it, and `dar` and `release` end a transaction.  As
in `Rejig.Quiet` the effect on a key is a function on `KeyState`.  A request that is granted a lease
also files the key in the record of its transaction; `View.Files` says that it does both.
-/

namespace Rejig

open Prog Function

variable {exp now : Nat} {f : Content → Content} {o transIt : Option Item} {x : KeyState}
  {status : Content → IqResult} {update : PvUpdate} {co : CoFlag} {delta token : UInt64}
  {entry : Bytes} {incr : Bool} {lease : Lease} {pv : Item} {v : Content}

/-! ## Lists -/

/-- A list with one more entry: a new record takes the place of the old one, unless the entry is
there. -/
def enlisted (now exp : Nat) (lease : Lease) (co : CoFlag) (entry : Bytes) (o : Option Content) :
    Option Content :=
  if o.any fun x => x.Has entry then o
  else (trigKeylistAddkey (o.elim [] Content.data) (u8Name entry)).bind fun data =>
    (some { data := data, exptime := exp, lease := lease, co := co }).filter (!·.expired now)

/-- What an enlisted record lists. -/
theorem enlisted_encodes {o : Option Content} {ks : List Bytes}
    (henc : ∀ x, o = some x → Encodes x.data ks) (hnone : o = none → ks = [])
    (hentry : entry.length < 256) (hlasts : now < exp) :
    ∃ x ks', enlisted now exp lease co entry o = some x ∧ Encodes x.data ks' ∧ (∀ e, e ∈ ks' ↔
        e = entry ∨ e ∈ ks) ∧
      (o = some x ∨ x.lease = lease ∧ x.co = co ∧ x.exptime = exp) := by
  have hname : u8Name entry = entry := u8Name_of_lt hentry
  have hhas : (o.any fun x => decide (x.Has entry)) = decide (entry ∈ ks) := by
    cases o with
    | none => simp [hnone rfl]
    | some x => simp [Content.Has, hname, (henc x rfl).check]
  rw [enlisted, hhas]
  by_cases hmem : entry ∈ ks
  · cases o with
    | none =>
      rw [hnone rfl] at hmem
      cases hmem
    | some x =>
      refine ⟨x, ks, by simp [hmem], henc x rfl, fun e => ?_, .inl rfl⟩
      constructor
      · exact .inr
      · rintro (rfl | he)
        · exact hmem
        · exact he
  · have hold : Encodes (o.elim [] Content.data) ks := by
      cases o with
      | none => exact hnone rfl ▸ .nil
      | some x => exact henc x rfl
    obtain ⟨data, hadd, hnew⟩ := hold.addkey hentry hmem
    refine ⟨{ data := data, exptime := exp, lease := lease, co := co },
      insertKey entry ks, ?_, hnew, fun e => mem_insertKey, .inr ⟨rfl, rfl, rfl⟩⟩
    rw [if_neg (by simpa using hmem), hname, hadd, Option.bind_some, Option.filter_some]
    simp [Content.expired, hlasts]

/-- From `V` to `V'` the records of a key changed by `g`, the record of a transaction changed by
`f`, and nothing else changed. -/
structure View.Files (k tid : Bytes) (f : Option Content → Option Content) (g : KeyState → KeyState)
    (V V' : View) : Prop where
  key : View.keyState V' k = g (View.keyState V k)
  record : (V' tid).map Item.content = f ((V tid).map Item.content)
  other : ∀ n ∉ recordNames k, n ≠ tid → V' n = V n

section Lists

variable {c : Settings} {s₀ s : Server} {V V₁ V₂ : View} {k tid : Bytes}
  {g g' : KeyState → KeyState} {f : Option Content → Option Content}

theorem View.Step.trans (h : View.Step k g V V₁) (h' : View.Step k g' V₁ V₂) :
    View.Step k (g' ∘ g) V V₂ where
  key := by rw [h'.key, h.key, comp_apply]
  other n hn := by rw [h'.other n hn, h.other n hn]

theorem View.Step.files (h : View.Step k g V V₁) (htid : tid ∉ recordNames k)
    (ho : o.map Item.content = f ((V tid).map Item.content)) :
    View.Files k tid f g V (Function.update V₁ tid o) where
  key := by
    rw [← h.key]
    refine View.keyState_congr fun n hn => ?_
    have hne : n ≠ tid := by
      rintro rfl
      exact htid hn
    rw [update_of_ne hne]
  record := by rw [update_self, ho]
  other n hn hne := by rw [update_of_ne hne, h.other n hn]

theorem View.Files.step (h : View.Files k tid f g V V₁) (h' : View.Step k g' V₁ V₂)
    (htid : tid ∉ recordNames k) : View.Files k tid f (g' ∘ g) V V₂ where
  key := by rw [h'.key, h.key, comp_apply]
  record := by rw [h'.other tid htid, h.record]
  other n hn hne := by rw [h'.other n hn, h.other n hn hne]

/-- Adding an entry to the list of a record. -/
theorem Shows.wlp_itemAddEntry {name : Bytes} (h : Shows s₀ V s) (ho : V name = o)
    (hname : u8Name name = name) :
    wlp (itemAddEntry o name entry lease co) (fun _ s' => ∃ o', o'.map Item.content =
        enlisted s₀.now (s₀.leaseExpiry c) lease co entry (o.map Item.content) ∧
      Shows s₀ (Function.update V name o') s') c s := by
  have hkeep : Shows s₀ (Function.update V name o) s := by
    rwa [← ho, Function.update_eq_self]
  have hadd : (o.map Item.content).any (fun x => decide (x.Has entry)) = false →
      wlp (do
        let data ← deref (trigKeylistAddkey (o.elim [] Item.data) (u8Name entry))
        let newIt ← deref (← itemCreateReservedItem name data)
        let _ ← itemStore { newIt with lease := lease, co := co } .set) (fun _ s' => ∃ o',
          o'.map Item.content =
            enlisted s₀.now (s₀.leaseExpiry c) lease co entry (o.map Item.content) ∧
          Shows s₀ (Function.update V name o') s') c s := by
    intro habsent
    rw [wlp_bind, wlp_deref]
    intro data hdata
    rw [wlp_bind, wlp_itemCreateReservedItem]
    intro _
    rw [wlp_bind, wlp_deref_ite]
    intro _
    have hstorable : Item.storable (s.freshReserved c name data lease co) = true :=
      Item.storable_of_data (trigKeylistAddkey_ne_nil hdata)
    rw [wlp_bind, wlp_itemStore_set (.inl rfl)]
    change if (s.freshReserved c name data lease co).storable = true then _ else _
    rw [if_pos hstorable, wlp_pure]
    obtain ⟨o', ho', hs'⟩ := h.allocate.link_content c (s.freshReserved c name data lease co) hname
    refine ⟨o', ?_, hs'⟩
    have hlist : (o.map Item.content).elim [] Content.data = o.elim [] Item.data := by
      cases o <;> rfl
    rw [ho', enlisted, habsent, if_neg Bool.false_ne_true, hlist, hdata, Option.bind_some,
      ← h.leaseExpiry]
    rfl
  rw [itemAddEntry, wlp_bind]
  cases o with
  | none =>
    rw [itemCheckEntry, wlp_pure, Bool.not_false, when_true]
    exact hadd rfl
  | some it =>
    rw [itemCheckEntry, wlp_deref]
    intro present hpresent
    cases present with
    | true =>
      have hhas : it.content.Has entry := hpresent
      refine .pure ⟨some it, ?_, hkeep⟩
      rw [enlisted, if_pos (by simp [hhas])]
    | false =>
      have hhas : ¬ it.content.Has entry := fun hhas => by cases hpresent.symm.trans hhas
      rw [Bool.not_false, when_true]
      exact hadd (by simp [hhas])

/-- Filing a key in the record of a transaction. -/
theorem Shows.wlp_itemAssocKeyTid (h : Shows s₀ V₁ s) (hstep : View.Step k g V V₁)
    (htrans : V tid = transIt) (htid : tid ∉ recordNames k) (hname : tid.length < 256) :
    wlp (itemAssocKeyTid transIt k tid) (fun _ s' => ∃ V', Shows s₀ V' s' ∧
      View.Files k tid (enlisted s₀.now (s₀.leaseExpiry c) .none .sess k) g V V') c s := by
  have hsame : V₁ tid = transIt := (hstep.other tid htid).trans htrans
  refine (h.wlp_itemAddEntry hsame (u8Name_of_lt hname)).mono fun _ s' ⟨o, ho, hs'⟩ => ⟨_, hs', ?_⟩
  exact hstep.files htid (htrans ▸ ho)

end Lists

/-! ## Quarantine -/

namespace KeyState

/-- The pending version after the value, if there is one, has been copied to it. -/
def copied (now exp : Nat) (x : KeyState) : Option Content :=
  x.value.elim x.version fun v =>
    if v.data = [] then x.version
    else (some { data := v.data, dataflags := v.dataflags, exptime := exp, p := v.p }).filter
      (!·.expired now)

theorem copied_some (h : x.value = some v) : x.copied now exp = if v.data = [] then x.version
      else (some { data := v.data, dataflags := v.dataflags, exptime := exp, p := v.p }).filter
        (!·.expired now) := by
  rw [copied, h, Option.elim_some]

theorem copied_none (h : x.value = none) : x.copied now exp = x.version := by
  rw [copied, h, Option.elim_none]

/-- The records of a key after it was quarantined with a new lease. -/
def quarantine (now exp : Nat) (kind : Lease) (token : UInt64) (x : KeyState) : KeyState :=
  { x with lease := granted now exp kind token 0, version := x.copied now exp }

/-- The records of a key after a change of its pending version. -/
def updated (f : Content → Content) (x : KeyState) : KeyState :=
  { x with version := x.version.map f }

/-- The records of a key after an incremental update that was granted the lease.  A key without a
value has nothing to update. -/
def increment (now exp : Nat) (token : UInt64) (f : Content → Content) (x : KeyState) : KeyState :=
  if x.value.isSome then (x.quarantine now exp .qInc token).updated f
  else x.quarantine now exp .qInc token

theorem increment_some (h : x.value = some v) :
    x.increment now exp token f = (x.quarantine now exp .qInc token).updated f := by
  rw [increment, h, Option.isSome_some, if_pos rfl]

theorem increment_none (h : x.value = none) :
    x.increment now exp token f = x.quarantine now exp .qInc token := by
  rw [increment, h, Option.isSome_none, if_neg Bool.false_ne_true]

end KeyState

/-- What a transaction is told that was granted the lease of `qaread`. -/
structure KeyState.QareadGrants (token : UInt64) (x : KeyState) (r : QareadResult) : Prop where
  newLeaseToken : r.newLeaseToken = token
  pending : r.pending = x.indicator
  it : r.it.map (fun it => (it.data, it.dataflags)) = x.value.map fun v => (v.data, v.dataflags)

/-- What a transaction is told that comes to a key with the Q lease `l`. -/
def KeyState.QareadFinds (leaseToken : UInt64) (l : Content) (x : KeyState)
    (r : QareadResult) : Prop :=
  if (l.lease = .qRef ∨ l.lease = .qInc) ∧ l.leaseValue = leaseToken then
    r.newLeaseToken = leaseToken ∧ r.pending = x.swapBit ∧ r.it.map Item.content = x.version
  else r.newLeaseToken = leaseHotmiss ∧ r.pending = 0 ∧ r.it = none

section Quarantine

variable {c : Settings} {s₀ s : Server} {V : View} {key tid : Bytes}

variable (h : Shows s₀ V s)

include h

/-- Linking a new lease. -/
theorem Shows.link_lease (c : Settings) (kind : Lease) (hlen : key.length ≤ keyMaxLen) :
    ∃ V', Shows s₀ V' (s.draw.allocate.link c (s.freshLease c key kind)) ∧ View.Step key (fun x =>
      { x with lease := KeyState.granted s₀.now (s₀.leaseExpiry c) kind s.token 0 }) V V' := by
  obtain ⟨o, ho, hs'⟩ := h.draw.allocate.link_content c (s.freshLease c key kind)
    (u8Name_leaseKey hlen)
  refine ⟨_, hs', ?_, fun n hn => View.update_of_notMem (by simp [recordNames]) hn⟩
  rw [View.keyState_update_lease, ho, KeyState.granted, ← h.leaseExpiry]
  rfl

/-- Storing a pending version. -/
theorem Shows.wlp_storeVersion {x : Content} (key : Bytes) (hk : pv.key = versionKey key)
    (hplain : Plain pv) (hx : pv.content = x) :
    wlp (itemStore pv .set) (fun _ s' => ∃ V', Shows s₀ V' s' ∧ View.Step key (fun y => { y with
      version := if x.data = [] then y.version else (some x).filter (!·.expired s₀.now)
        }) V V') c s := by
  subst hx
  rw [wlp_itemStore_set (.inl rfl), hplain.storable, Item.nbyte]
  by_cases hnil : pv.data = []
  · rw [if_neg (by simp [hnil])]
    refine ⟨V, h, ?_, fun _ _ => rfl⟩
    simp [hnil]
  · rw [if_pos (by simp [hnil])]
    obtain ⟨o, ho, hs'⟩ := h.link_content c pv hk
    refine ⟨_, hs', ?_, fun n hn => View.update_of_notMem (by simp [recordNames]) hn⟩
    rw [View.keyState_update_version, ho, Item.content_data, if_neg hnil]

/-- Granting a refresh lease. -/
theorem Shows.wlp_itemQareadGrant (htrans : V tid = transIt) (hlen : key.length ≤ keyMaxLen)
    (htid : tid ∉ recordNames key) (hname : tid.length < 256) :
    wlp (itemQareadGrant tid key transIt) (fun r s' =>
        (View.keyState V key).QareadGrants s.token r ∧
      ∃ V', Shows s₀ V' s' ∧ View.Files key tid (enlisted s₀.now (s₀.leaseExpiry c) .none .sess key)
          (KeyState.quarantine s₀.now (s₀.leaseExpiry c) .qRef s.token) V V') c s := by
  refine wlp_store_lease (fun _ => rfl) (.inr rfl) (by simp) ?_
  obtain ⟨V₁, hs₁, hlease⟩ := h.link_lease c .qRef hlen
  have hvalue : (View.keyState V key).value = (V₁ key).map Item.content :=
    (congrArg KeyState.value hlease.key).symm
  rw [wlp_bind, wlp_itemGet, hs₁.read]
  cases hit : V₁ key with
  | some it =>
    rw [hit, Option.map_some] at hvalue
    have hk : it.key = key := hs₁.key_eq hit
    dsimp only
    rw [wlp_bind, wlp_itemCreatePendingVersion]
    intro _
    rw [wlp_bind, wlp_deref_ite]
    intro _
    refine .bind (((hs₁.reap key).allocate.wlp_storeVersion key ?_ ⟨rfl, rfl⟩ rfl).mono ?_)
    · rw [Server.freshVersion_key, hk]
      exact u8Name_versionKey hlen
    rintro _ s₂ ⟨V₂, hs₂, hversion⟩
    refine .bind ((hs₂.wlp_itemAssocKeyTid (hlease.trans hversion) htrans htid hname).mono ?_)
    rintro _ s₃ ⟨V₃, hs₃, hfiles⟩
    refine .pure ⟨⟨rfl, ?_, ?_⟩, V₃, hs₃, ?_, hfiles.record, hfiles.other⟩
    · rw [KeyState.indicator, hvalue]
      rfl
    · rw [hvalue]
      rfl
    · rw [hfiles.key, KeyState.quarantine, KeyState.copied_some hvalue, ← h.leaseExpiry]
      rfl
  | none =>
    rw [hit, Option.map_none] at hvalue
    have hmarker : (V₁ (pendingKey key)).map Item.content = (View.keyState V key).marker :=
      congrArg KeyState.marker hlease.key
    dsimp only
    rw [wlp_bind, itemGetPending, wlp_itemGet, (hs₁.reap key).read, wlp_bind]
    refine (((hs₁.reap key).reap _).wlp_itemAssocKeyTid hlease htrans htid hname).mono ?_
    rintro _ s₃ ⟨V₃, hs₃, hfiles⟩
    refine .pure ⟨⟨rfl, ?_, ?_⟩, V₃, hs₃, ?_, hfiles.record, hfiles.other⟩
    · rw [KeyState.indicator, hvalue, Option.elim_none, ← hmarker, Option.isSome_map]
      rfl
    · rw [hvalue]
      rfl
    · rw [hfiles.key, KeyState.quarantine, KeyState.copied_none hvalue]

/-- `qaread` -/
theorem Shows.wlp_itemQuarantineAndRead {leaseToken : UInt64} (hlen : key.length ≤ keyMaxLen)
    (htid : tid ∉ recordNames key) (hname : tid.length < 256) :
    wlp (itemQuarantineAndRead tid key leaseToken) (fun r s' =>
      match (View.keyState V key).lease.filter Content.hasQLease with
      | some l => (View.keyState V key).QareadFinds leaseToken l r ∧ Shows s₀ V s'
      | none => (View.keyState V key).QareadGrants s.token r ∧ ∃ V', Shows s₀ V' s' ∧
        View.Files key tid (enlisted s₀.now (s₀.leaseExpiry c) .none .sess key)
          (KeyState.quarantine s₀.now (s₀.leaseExpiry c) .qRef s.token) V V') c s := by
  have hs₁ := (h.reap tid).reap (leaseKey key)
  rw [itemQuarantineAndRead, wlp_bind, wlp_itemGet, h.read, wlp_bind, itemGetLease, wlp_itemGet,
    (h.reap tid).read]
  have hgrant := hs₁.wlp_itemQareadGrant (c := c) rfl hlen htid hname
  cases hl : V (leaseKey key) with
  | none =>
    have hlease : (View.keyState V key).lease.filter Content.hasQLease = none := by
      simp [View.keyState, hl]
    rw [hlease]
    exact hgrant
  | some l =>
    dsimp only
    split
    · next hq =>
      have hlease : (View.keyState V key).lease.filter Content.hasQLease = some l.content := by
        simp [View.keyState, hl, Option.filter_some, hq]
      rw [hlease]
      simp only [KeyState.QareadFinds]
      split
      · next hown =>
        have hown' : (l.content.lease = .qRef ∨ l.content.lease = .qInc) ∧
            l.content.leaseValue = leaseToken := by
          simpa [Item.hasQRefLease, Item.hasQIncrLease] using hown
        simp only [if_pos hown']
        have hs₂ := (hs₁.reap (versionKey key)).reap (pendingKey key)
        rw [itemQareadOwn, wlp_bind, itemGetPendingVersion, wlp_itemGet, hs₁.read]
        cases hpv : V (versionKey key) with
        | some pv =>
          refine .pure ⟨⟨rfl, ?_, ?_⟩, hs₁.reap _⟩
          · simp [KeyState.swapBit, View.keyState, hpv]
          · simp [View.keyState, hpv]
        | none =>
          dsimp only
          rw [wlp_bind, itemGetPending, wlp_itemGet, (hs₁.reap _).read]
          refine .pure ⟨⟨rfl, ?_, ?_⟩, hs₂⟩
          · simp [KeyState.swapBit, View.keyState, hpv, pendingBit]
          · simp [View.keyState, hpv]
      · next hown =>
        have hown' : ¬ ((l.content.lease = .qRef ∨ l.content.lease = .qInc) ∧
          l.content.leaseValue = leaseToken) := by
          simpa [Item.hasQRefLease, Item.hasQIncrLease] using hown
        simp only [if_neg hown']
        exact .pure ⟨⟨rfl, rfl, rfl⟩, hs₁⟩
    · next hq =>
      have hlease : (View.keyState V key).lease.filter Content.hasQLease = none := by
        simp [View.keyState, hl, Option.filter_some, hq]
      rw [hlease]
      exact hgrant

end Quarantine

/-! ## Incremental updates -/

/-- The pending version after bytes have been added to it. -/
def Content.concat (append : Bool) (data : Bytes) (x : Content) : Content where
  data := if append then x.data ++ data else data ++ x.data
  dataflags := x.dataflags
  exptime := x.exptime
  p := x.p

/-- `inPlaceData` -/
def Content.inPlaceData (x : Content) (buf : Bytes) : Bytes :=
  if x.ralign then (buf ++ x.data.drop buf.length).drop (x.data.length - buf.length) else buf

/-- The pending version after a number has been added to it, if it is a number. -/
def Content.plus (incr : Bool) (delta : UInt64) (x : Content) : Content :=
  (mcStrtoullLen x.data).elim x fun value =>
    let buf := decimal (addDelta incr value delta)
    if x.data.length < buf.length then
      { data := buf, dataflags := x.dataflags, exptime := x.exptime, p := x.p }
    else { x with data := x.inPlaceData buf }

/-- With enough memory the update turns a pending version `x` into `f x`, and answers `status x`. -/
def PvUpdate.Turns (c : Settings) (update : PvUpdate) (f : Content → Content)
    (status : Content → IqResult) : Prop :=
  ∀ {s₀ s : Server} {V : View} {key : Bytes} {pv pv' : Item}, Shows s₀ V s →
    key.length ≤ keyMaxLen →
    V (versionKey key) = some pv' → pv'.content = pv.content → pv.key = versionKey key → Plain pv →
    pv.data ≠ [] → wlp (update key pv) (fun r s' => r = status pv.content ∧ ∃ V', Shows s₀ V' s' ∧
      View.Step key (KeyState.updated f) V V') c s

section Updates

variable {c : Settings} {s₀ s : Server} {V : View} {key tid : Bytes}

theorem Shows.withCas (h : Shows s₀ V s) (casId : Nat) : Shows s₀ V { s with casId := casId } :=
  ⟨h.heap, h.oldestLive, h.now, h.configurationNumber, h.leaseCurrentToken, h.live⟩

/-- What is shown has not expired. -/
theorem Shows.not_expired {n : Bytes} {it : Item} (h : Shows s₀ V s) (hit : V n = some it) :
    it.content.expired s₀.now = false := by
  have hdead := (Server.live_eq_some.mp ((h.read n).trans hit)).2
  rwa [Server.dead_of_oldestLive h.oldestLive, h.now] at hdead

theorem turns_itemAppendPrependIq (append : Bool) (data : Bytes) :
    (itemAppendPrependIq append data).Turns c (Content.concat append data) fun _ => .lease := by
  intro s₀ s V key pv pv' h hlen hpv' hcontent hk hplain hdata
  have hne : (pv.content.concat append data).data ≠ [] := by
    cases append <;> simp [Content.concat, hdata]
  have hversion : (View.keyState V key).version = some pv.content := by
    simp [View.keyState, hpv', hcontent]
  have halive : (pv.content.concat append data).expired s₀.now = false :=
    hcontent ▸ h.not_expired hpv'
  rw [itemAppendPrependIq, wlp_bind, wlp_itemAlloc]
  intro _
  rw [wlp_bind, wlp_deref_ite]
  intro _
  refine .bind ((h.allocate.wlp_storeVersion key (x := pv.content.concat append data) ?_ ⟨rfl,
    rfl⟩ rfl).mono ?_)
  · exact (u8Name_of_lt pv.key_lt).trans hk
  · rintro _ s' ⟨V', hs', hstep⟩
    refine .pure ⟨rfl, V', hs', ?_, hstep.other⟩
    rw [hstep.key, KeyState.updated, hversion, if_neg hne, Option.filter_some, halive]
    rfl

/-- Adding to the number under the name of a pending version. -/
theorem Shows.wlp_itemAddDelta_version (h : Shows s₀ V s) (hpv : V (versionKey key) = some pv) :
    wlp (itemAddDelta (versionKey key) incr delta) (fun r s' =>
      (if (mcStrtoullLen pv.data).isSome then ∃ buf, r = .ok buf else r = .nonNumeric) ∧
      ∃ V', Shows s₀ V' s' ∧ View.Step key
        (KeyState.updated (Content.plus incr delta)) V V') c s := by
  have hversion : (View.keyState V key).version = some pv.content := by simp [View.keyState, hpv]
  rw [itemAddDelta, wlp_bind, wlp_itemGet, h.read, hpv]
  dsimp only
  cases hnum : mcStrtoullLen pv.data with
  | none =>
    refine .pure ⟨rfl, V, h.reap _, ?_, fun _ _ => rfl⟩
    have hplus : pv.content.plus incr delta = pv.content := by simp [Content.plus, hnum]
    rw [KeyState.updated, hversion, Option.map_some, hplus, ← hversion]
  | some value =>
    have hplus : pv.content.plus incr delta =
        if pv.nbyte < (decimal (addDelta incr value delta)).length then
          { data := decimal (addDelta incr value delta), dataflags := pv.dataflags
            exptime := pv.exptime, p := pv.p }
        else { pv.content with data := inPlaceData pv (decimal (addDelta incr value delta)) } := by
      simp only [Content.plus, Item.content_data, hnum, Option.elim_some]
      rfl
    have halive := h.not_expired hpv
    dsimp only
    split
    · next hlong =>
      rw [wlp_bind, wlp_itemAlloc]
      intro _
      rw [s.reap (versionKey key) |>.room_of_heap_nil (h.reap _).heap, if_pos rfl]
      rw [if_pos hlong] at hplus
      simp only [itemReplace, wlp_bind, wlp_itemUnlink, wlp_itemLink, wlp_pure]
      have hkey : u8Name pv.key = pv.key := u8Name_of_lt pv.key_lt
      rw [Server.link_unlink _ _ hkey.symm]
      obtain ⟨o, ho, hs'⟩ := (h.reap (versionKey key)).allocate.link_content c
        { (s.reap (versionKey key)).fresh pv.key pv.dataflags pv.exptime (-1) with
          data := decimal (addDelta incr value delta), p := pv.p } (hkey.trans (h.key_eq hpv))
      have hnew : Item.content
          { (s.reap (versionKey key)).fresh pv.key pv.dataflags pv.exptime (-1) with
            data := decimal (addDelta incr value delta), p :=
              pv.p } = pv.content.plus incr delta := by
        rw [hplus]
        rfl
      have halive' : (pv.content.plus incr delta).expired s₀.now = false := by
        rw [hplus]
        exact halive
      rw [hnew, Option.filter_some, halive'] at ho
      refine ⟨⟨_, rfl⟩, _, hs', ?_, fun n hn => View.update_of_notMem (by simp [recordNames]) hn⟩
      rw [View.keyState_update_version, ho, KeyState.updated, hversion]
      rfl
    · next hlong =>
      rw [if_neg hlong] at hplus
      rw [wlp_bind, wlp_itemNextCas, wlp_bind, wlp_itemWrite, wlp_pure]
      obtain ⟨o, ho, hs'⟩ := ((h.reap (versionKey key)).withCas
        (if c.useCas then (s.reap (versionKey key)).casId + 1 else
          (s.reap (versionKey key)).casId)).write_content
          (f := fun it => { it with
            cas := if c.useCas then .ofNat ((s.reap (versionKey key)).casId + 1) else 0
            data := inPlaceData it (decimal (addDelta incr value delta)) }) hpv (fun _ => rfl) rfl
      refine ⟨⟨_, rfl⟩, _, hs', ?_, fun n hn => View.update_of_notMem (by simp [recordNames]) hn⟩
      rw [View.keyState_update_version, ho, KeyState.updated, hversion, Option.map_some, hplus]
      rfl

/-- The answer of an increment of a pending version. -/
def Content.plusStatus (x : Content) : IqResult :=
  if (mcStrtoullLen x.data).isSome then .lease else .clientError

theorem turns_itemAddDeltaIq (incr : Bool) (delta : UInt64) :
    (itemAddDeltaIq incr delta).Turns c (Content.plus incr delta) Content.plusStatus := by
  intro s₀ s V key pv pv' h _ hpv' hcontent _ _ _
  have hdata : pv'.data = pv.data := congrArg Content.data hcontent
  rw [itemAddDeltaIq, wlp_bind]
  refine (h.wlp_itemAddDelta_version hpv').mono ?_
  rintro r s' ⟨hr, hstep⟩
  rw [Content.plusStatus, Item.content_data, ← hdata]
  split at hr
  · next hnum =>
    obtain ⟨buf, rfl⟩ := hr
    exact .pure ⟨(if_pos hnum).symm, hstep⟩
  · next hnum =>
    subst hr
    exact .pure ⟨(if_neg hnum).symm, hstep⟩

/-- What a transaction is told that was granted the lease of an incremental update. -/
structure KeyState.IncrementGrants (token : UInt64) (status : Content → IqResult) (x : KeyState)
    (r : IqDeltaResult) : Prop where
  newLeaseToken : r.newLeaseToken = token
  pending : r.pending = x.indicator
  status : ∀ v, x.value = some v → ∃ y, y.data = v.data ∧ r.status = status y
  statusNone : x.value = none → r.status = .leaseNoValue

/-- An incremental update that is granted a lease. -/
theorem Shows.wlp_itemIqDeltaGrant (hu : update.Turns c f status) {it : Option Item}
    (h : Shows s₀ V s) (hit : it.map Item.content = (View.keyState V key).value)
    (hkey : ∀ o, it = some o → o.key = key) (htrans : V tid = transIt)
    (hlen : key.length ≤ keyMaxLen) (htid : tid ∉ recordNames key) (hname : tid.length < 256)
    (hlasts : s₀.now < s₀.leaseExpiry c) (hvalue : ∀ v, (View.keyState V key).value = some v →
      v.data ≠ []) :
    wlp (itemIqDeltaGrant update key tid it transIt) (fun r s' =>
      (View.keyState V key).IncrementGrants s.token status r ∧ ∃ V', Shows s₀ V' s' ∧
        View.Files key tid (enlisted s₀.now (s₀.leaseExpiry c) .none .sess key)
          (KeyState.increment s₀.now (s₀.leaseExpiry c) s.token f) V V') c s := by
  refine wlp_store_lease (fun _ => rfl) (.inl rfl) (by simp) ?_
  obtain ⟨V₁, hs₁, hlease⟩ := h.link_lease c .qInc hlen
  refine .bind ((hs₁.wlp_itemAssocKeyTid hlease htrans htid hname).mono ?_)
  rintro _ s₂ ⟨V₂, hs₂, hfiles⟩
  cases it with
  | some it =>
    have hx : (View.keyState V key).value = some it.content := hit.symm
    dsimp only
    rw [wlp_bind, wlp_itemCreatePendingVersion]
    intro _
    rw [wlp_bind, wlp_deref_ite]
    intro _
    have hne : it.data ≠ [] := hvalue _ hx
    have hexp : (s.freshLease c key .qInc).exptime = s₀.leaseExpiry c := h.leaseExpiry
    -- the copy of the value, with the expiry of the lease
    generalize hpv : ({ s₂.freshVersion c it it.data with
      p := it.p, exptime := (s.freshLease c key .qInc).exptime } : Item) = pv
    have hcontent : pv.content = { data := it.data, dataflags := it.dataflags
                                   exptime := s₀.leaseExpiry c, p := it.p } := by
      rw [← hpv, ← hexp]
      rfl
    have hpk : pv.key = versionKey key := by
      rw [← hpv, ← hkey it rfl]
      exact u8Name_versionKey (hkey it rfl ▸ hlen)
    have hplain : Plain pv := hpv ▸ ⟨rfl, rfl⟩
    have hdata : pv.data ≠ [] := hpv ▸ hne
    refine .bind ((hs₂.allocate.wlp_storeVersion key hpk hplain rfl).mono ?_)
    rintro _ s₃ ⟨V₃, hs₃, hversion⟩
    have halive : pv.content.expired s₀.now = false := by
      simp [Content.expired, hcontent, hlasts]
    have hshown : (View.keyState V₃ key).version = some pv.content := by
      rw [hversion.key, Item.content_data, if_neg hdata, Option.filter_some, halive]
      rfl
    obtain ⟨pv', hpv', hsame⟩ := Option.map_eq_some_iff.mp hshown
    refine .bind ((hu hs₃ hlen hpv' hsame hpk hplain hdata).mono ?_)
    rintro r s₄ ⟨hr, V₄, hs₄, hupdate⟩
    refine .pure ⟨⟨rfl, ?_, ?_, ?_⟩, V₄, hs₄, ?_⟩
    · rw [KeyState.indicator, hx]
      rfl
    · intro v hv
      rw [hx] at hv
      cases hv
      exact ⟨pv.content, by rw [hcontent]; rfl, hr⟩
    · rw [hx]
      simp
    · have hall := (hfiles.step hversion htid).step hupdate htid
      refine ⟨?_, hall.record, hall.other⟩
      have hne' : it.content.data ≠ [] := hne
      rw [hall.key, KeyState.increment_some hx, KeyState.quarantine, KeyState.copied_some hx,
        if_neg hne']
      simp only [comp_apply, hcontent, if_neg hne]
      rfl
  | none =>
    have hx : (View.keyState V key).value = none := hit.symm
    dsimp only
    rw [wlp_bind, itemGetPending, wlp_itemGet, hs₂.read]
    have hmarker : (V₂ (pendingKey key)).map Item.content = (View.keyState V key).marker :=
      congrArg KeyState.marker hfiles.key
    refine .pure ⟨⟨rfl, ?_, ?_, fun _ => rfl⟩, V₂, hs₂.reap _, ?_, hfiles.record, hfiles.other⟩
    · rw [KeyState.indicator, hx, Option.elim_none, ← hmarker, Option.isSome_map]
      rfl
    · rw [hx]
      simp
    · rw [hfiles.key, KeyState.increment_none hx, KeyState.quarantine, KeyState.copied_none hx]

/-- An incremental update of the pending version, or none where there is no value. -/
theorem Shows.wlp_ownVersion (hu : update.Turns c f status) {l : Item} (h : Shows s₀ V s)
    (hlen : key.length ≤ keyMaxLen)
    (hversion : ∀ pv, V (versionKey key) = some pv → Plain pv ∧ pv.data ≠ []) : wlp (do
      match ← itemGetPendingVersion key with
      | some pvIt => return ⟨← update key pvIt, pvIt.p, l.leaseValue⟩
      | none => return ⟨.leaseNoValue, pendingBit (← itemGetPending key), l.leaseValue⟩ :
        ServerM IqDeltaResult) (fun r s' =>
      r.status = (View.keyState V key).version.elim .leaseNoValue status ∧
      r.newLeaseToken = l.leaseValue ∧
      ∃ V', Shows s₀ V' s' ∧ View.Step key (KeyState.updated f) V V') c s := by
  rw [wlp_bind, itemGetPendingVersion, wlp_itemGet, h.read]
  cases hpv : V (versionKey key) with
  | some pv =>
    obtain ⟨hplain, hdata⟩ := hversion pv hpv
    dsimp only
    refine .bind ((hu (h.reap _) hlen hpv rfl (h.key_eq hpv) hplain hdata).mono ?_)
    rintro r s' ⟨hr, hstep⟩
    refine .pure ⟨?_, rfl, hstep⟩
    simpa [View.keyState, hpv] using hr
  | none =>
    dsimp only
    rw [wlp_bind, itemGetPending, wlp_itemGet]
    refine .pure ⟨?_, rfl, V, (h.reap _).reap _, ?_, fun _ _ => rfl⟩
    · simp [View.keyState, hpv]
    · simp [KeyState.updated, View.keyState, hpv]

/-- An incremental update of a key that has a lease. -/
theorem Shows.wlp_itemIqDeltaOwn (hu : update.Turns c f status) {l : Item} (h : Shows s₀ V s)
    (hlen : key.length ≤ keyMaxLen)
    (hversion : ∀ pv, V (versionKey key) = some pv → Plain pv ∧ pv.data ≠ []) :
    wlp (itemIqDeltaOwn update key l transIt) (fun r s' => if transIt.any fun t => t.Has key then
        r.status = (View.keyState V key).version.elim .leaseNoValue status ∧
        r.newLeaseToken = l.leaseValue ∧
        ∃ V', Shows s₀ V' s' ∧ View.Step key (KeyState.updated f) V V' else r.status = .abort ∧
        Shows s₀ V s') c s := by
  rw [itemIqDeltaOwn, wlp_bind]
  cases transIt with
  | none => exact .pure (.pure ⟨rfl, h⟩)
  | some t =>
    rw [itemCheckEntry, wlp_deref]
    intro present hpresent
    cases present with
    | true =>
      have hhas : t.Has key := hpresent
      simp only [Option.any_some, hhas, decide_true, if_true]
      exact h.wlp_ownVersion hu hlen hversion
    | false =>
      have hhas : ¬ t.Has key := fun hhas => by cases hpresent.symm.trans hhas
      simp only [Option.any_some, hhas, decide_false, Bool.false_eq_true, if_false]
      exact .pure ⟨rfl, h⟩

/-- How an incremental update ends. -/
def View.Increments (now exp : Nat) (key tid : Bytes) (token : UInt64) (f : Content → Content)
    (status : Content → IqResult) (V : View) (r : IqDeltaResult) (V' : View) : Prop :=
  match (View.keyState V key).lease.filter (·.lease ≠ .i) with
  | none => (View.keyState V key).IncrementGrants token status r ∧
      View.Files key tid (enlisted now exp .none .sess key)
        (KeyState.increment now exp token f) V V'
  | some l =>
    if (V tid).any fun t => t.Has key then
      r.status = (View.keyState V key).version.elim .leaseNoValue status ∧
      r.newLeaseToken = l.leaseValue ∧ View.Step key (KeyState.updated f) V V'
    else r.status = .abort ∧ V' = V

/-- The frame of the incremental updates. -/
theorem Shows.wlp_itemIqDelta {own : Item → Option Item → ServerM IqDeltaResult}
    (hu : update.Turns c f status) (h : Shows s₀ V s) (hlen : key.length ≤ keyMaxLen)
    (htid : tid ∉ recordNames key) (hname : tid.length < 256) (hlasts : s₀.now < s₀.leaseExpiry c)
    (hvalue : ∀ v, (View.keyState V key).value = some v → v.data ≠ [])
    (hversion : ∀ pv, V (versionKey key) = some pv → Plain pv ∧ pv.data ≠ [])
    (hown : ∀ l, V (leaseKey key) = some l → l.lease ≠ .i →
      own l (V tid) = itemIqDeltaOwn update key l (V tid)) :
    wlp (itemIqDelta key tid (itemIqDeltaGrant update key tid) own) (fun r s' =>
        ∃ V', Shows s₀ V' s' ∧
      View.Increments s₀.now (s₀.leaseExpiry c) key tid s.token f status V r V') c s := by
  have hs₁ := ((h.reap key).reap tid).reap (leaseKey key)
  simp only [itemIqDelta, itemGetLease, wlp_bind, wlp_itemGet, Server.live_reap, h.read]
  simp only [View.Increments]
  cases hl : V (leaseKey key) with
  | none =>
    have hlease : (View.keyState V key).lease.filter (fun l => decide (l.lease ≠ .i)) = none := by
      simp [View.keyState, hl]
    simp only [hlease]
    refine .pure ?_
    refine (hs₁.wlp_itemIqDeltaGrant hu rfl (fun o ho => h.key_eq ho) rfl hlen htid hname hlasts
      hvalue).mono ?_
    rintro r s' ⟨hr, V', hs', hfiles⟩
    exact ⟨V', hs', hr, hfiles⟩
  | some l =>
    by_cases hi : l.lease = .i
    · have hlease : (View.keyState V key).lease.filter (fun l => decide (l.lease ≠ .i)) = none := by
        simp [View.keyState, hl, Option.filter_some, hi]
      simp only [hlease, itemVoidILease, Item.hasILease, hi, decide_true, if_true, wlp_bind,
        wlp_itemUnlink, wlp_pure]
      -- a new lease is as good as the lease that gives way
      have hstep : View.Step key (fun x => { x with lease := none }) V
          (Function.update V (leaseKey key) none) :=
        ⟨View.keyState_update_lease V key none, fun n hn =>
          View.update_of_notMem (by simp [recordNames]) hn⟩
      have htrans : Function.update V (leaseKey key) none tid = V tid := hstep.other tid htid
      have hvalue' : ∀ v, (View.keyState (Function.update V (leaseKey key) none) key).value =
        some v →
          v.data ≠ [] := by
        rw [hstep.key]
        exact hvalue
      have hit : (V key).map Item.content =
          (View.keyState (Function.update V (leaseKey key) none) key).value := by
        rw [hstep.key]
        rfl
      refine ((hs₁.unlink hl).wlp_itemIqDeltaGrant hu hit (fun o ho => h.key_eq ho) htrans
        hlen htid hname hlasts hvalue').mono ?_
      rintro r s' ⟨hr, V', hs', hfiles⟩
      refine ⟨V', hs', ?_, ?_, ?_, fun n hn hne => ?_⟩
      · rw [hstep.key] at hr
        exact ⟨hr.newLeaseToken, hr.pending, hr.status, hr.statusNone⟩
      · rw [hfiles.key, hstep.key]
        rfl
      · rw [hfiles.record, htrans]
      · rw [hfiles.other n hn hne, hstep.other n hn]
    · have hlease : (View.keyState V key).lease.filter (fun l => decide (l.lease ≠ .i)) =
        some l.content := by
        simp [View.keyState, hl, Option.filter_some, hi]
      have hnot : l.hasILease = false := by simp [Item.hasILease, hi]
      simp only [hlease, itemVoidILease, hnot, Bool.false_eq_true, if_false]
      refine .pure ?_
      dsimp only
      rw [hown l hl hi]
      refine (hs₁.wlp_itemIqDeltaOwn hu hlen hversion).mono fun r s' hr => ?_
      split at hr
      · next hhas =>
        obtain ⟨hstatus, htoken, V', hs', hstep⟩ := hr
        exact ⟨V', hs', by rw [if_pos hhas]; exact ⟨hstatus, htoken, hstep⟩⟩
      · next hhas => exact ⟨V, hr.2, by rw [if_neg hhas]; exact ⟨hr.1, rfl⟩⟩

/-- `iqappend` and `iqprepend` -/
theorem Shows.wlp_itemIqappendIqprepend {append : Bool} {data : Bytes} (h : Shows s₀ V s)
    (hlen : key.length ≤ keyMaxLen) (htid : tid ∉ recordNames key) (hname : tid.length < 256)
    (hlasts : s₀.now < s₀.leaseExpiry c) (hvalue : ∀ v, (View.keyState V key).value = some v →
      v.data ≠ []) (hversion : ∀ pv, V (versionKey key) = some pv → Plain pv ∧ pv.data ≠ []) :
    wlp (itemIqappendIqprepend append key data tid) (fun r s' => ∃ V', Shows s₀ V' s' ∧
      View.Increments s₀.now (s₀.leaseExpiry c) key tid s.token (Content.concat append data)
        (fun _ => .lease) V r V') c s :=
  h.wlp_itemIqDelta (turns_itemAppendPrependIq append data) hlen htid hname hlasts hvalue hversion
    fun _ _ _ => rfl

/-- `iqincr` and `iqdecr` -/
theorem Shows.wlp_itemIqincrIqdecr (h : Shows s₀ V s) (hlen : key.length ≤ keyMaxLen)
    (htid : tid ∉ recordNames key) (hname : tid.length < 256) (hlasts : s₀.now < s₀.leaseExpiry c)
    (hvalue : ∀ v, (View.keyState V key).value = some v → v.data ≠ [])
    (hversion : ∀ pv, V (versionKey key) = some pv → Plain pv ∧ pv.data ≠ [])
    (hkind : ∀ l, V (leaseKey key) = some l → l.lease ≠ .i → l.hasQLease = true) :
    wlp (itemIqincrIqdecr incr key delta tid) (fun r s' => ∃ V', Shows s₀ V' s' ∧
      View.Increments s₀.now (s₀.leaseExpiry c) key tid s.token (Content.plus incr delta)
        Content.plusStatus V r V') c s :=
  h.wlp_itemIqDelta (turns_itemAddDeltaIq incr delta) hlen htid hname hlasts hvalue hversion
    fun l hl hi => if_pos (hkind l hl hi)

end Updates

/-! ## Registration -/

namespace KeyState

/-- The records of a key after a transaction has registered for it: the transaction is on the list
of the invalidate lease, and the value expires with the lease. -/
def register (now exp : Nat) (tid : Bytes) (x : KeyState) : KeyState :=
  let lease := enlisted now exp .qInv .none tid (x.lease.filter (·.lease ≠ .i))
  { x with
    value := x.value.bind fun v =>
      lease.elim (some v) fun l => (some { v with exptime := l.exptime }).filter (!·.expired now)
    lease := lease }

/-- The records of a key after `dar` of a transaction that lists it. -/
def invalidate (now exp : Nat) (tid : Bytes) (x : KeyState) : KeyState :=
  { x with value := none, lease := x.lease.bind (droppedLease now exp tid) }

/-- The records of a key after `release` of a transaction that lists it. -/
def release (x : KeyState) : KeyState :=
  if x.lease.any Content.hasQLease then { x with lease := none, version := none } else x

end KeyState

section Registration

variable {c : Settings} {N : Naming} {s₀ s : Server} {V : View} {key tid : Bytes}

theorem Item.map_content_filter (it : Item) (now : Nat) :
    ((some it).filter (!·.expired now)).map Item.content = (some it.content).filter
      (!·.expired now) := by
  have hexp : it.content.expired now = it.expired now := rfl
  rw [Option.filter_some, Option.filter_some, hexp]
  split <;> rfl

/-- An I lease gives way. -/
theorem Shows.wlp_itemVoidILease (h : Shows s₀ V s) (ho : V (leaseKey key) = o) :
    wlp (itemVoidILease o) (fun r s' => r.map Item.content = (o.map Item.content).filter
        (·.lease ≠ .i) ∧
      ∃ V', Shows s₀ V' s' ∧ V' (leaseKey key) = r ∧
        View.Step key (fun x => { x with lease := x.lease.filter (·.lease ≠ .i) }) V V') c s := by
  have hx : (View.keyState V key).lease = o.map Item.content := by rw [View.keyState, ho]
  cases o with
  | none =>
    refine .pure ⟨rfl, V, h, ho, ?_, fun _ _ => rfl⟩
    simp [View.keyState, ho]
  | some l =>
    rw [itemVoidILease]
    by_cases hi : l.lease = .i
    · have hI : l.hasILease = true := decide_eq_true hi
      rw [if_pos hI, wlp_bind, wlp_itemUnlink]
      refine .pure ⟨?_, _, h.unlink ho, update_self .., ?_,
        fun n hn => View.update_of_notMem (by simp [recordNames]) hn⟩
      · simp [Option.filter_some, hi]
      · rw [View.keyState_update_lease, hx]
        simp [Option.filter_some, hi]
    · rw [if_neg (by simpa [Item.hasILease] using hi)]
      refine .pure ⟨?_, V, h, ho, ?_, fun _ _ => rfl⟩
      · simp [Option.filter_some, hi]
      · have hkeep : (View.keyState V key).lease.filter (fun l => decide (l.lease ≠ .i)) =
            (View.keyState V key).lease := by
          rw [hx]
          simp [Option.filter_some, hi]
        rw [hkeep]

/-- `qareg` -/
theorem Shows.wlp_itemQuarantineAndRegister (h : Shows s₀ V s) (hlen : key.length ≤ keyMaxLen)
    (htid : tid ∉ recordNames key) (hname : tid.length < 256) :
    wlp (itemQuarantineAndRegister tid key) (fun _ s' => ∃ V', Shows s₀ V' s' ∧
      View.Files key tid (enlisted s₀.now (s₀.leaseExpiry c) .none .sess key)
        (KeyState.register s₀.now (s₀.leaseExpiry c) tid) V V') c s := by
  rw [itemQuarantineAndRegister, wlp_bind, wlp_itemGet, h.read, wlp_bind, itemGetLease, wlp_itemGet,
    (h.reap tid).read, wlp_bind]
  refine (((h.reap tid).reap (leaseKey key)).wlp_itemVoidILease rfl).mono ?_
  rintro l s₁ ⟨hl, V₁, hs₁, hlV, hvoid⟩
  refine .bind ((hs₁.wlp_itemAddEntry hlV (u8Name_leaseKey hlen)).mono ?_)
  rintro _ s₂ ⟨o, ho, hs₂⟩
  have henlist : View.Step key (fun x => { x with
      lease := enlisted s₀.now (s₀.leaseExpiry c) .qInv .none tid
        (x.lease.filter (·.lease ≠ .i)) }) V
      (Function.update V₁ (leaseKey key) o) := by
    refine ⟨?_, fun n hn => ?_⟩
    · rw [View.keyState_update_lease, hvoid.key, ho, hl]
      rfl
    · rw [View.update_of_notMem (by simp [recordNames]) hn, hvoid.other n hn]
  refine .bind ((hs₂.wlp_itemAssocKeyTid henlist rfl htid hname).mono ?_)
  rintro _ s₃ ⟨V₃, hs₃, hfiles⟩
  simp only [wlp_bind, wlp_itemGet, Server.live_reap, hs₃.read]
  have hs₄ := (hs₃.reap key).reap (leaseKey key)
  have hvalue : (View.keyState V₃ key).value = (View.keyState V key).value := by rw [hfiles.key]
  have hlease : (View.keyState V₃ key).lease =
      enlisted s₀.now (s₀.leaseExpiry c) .qInv .none tid
        ((View.keyState V key).lease.filter (·.lease ≠ .i)) := by rw [hfiles.key]
  cases hit : V₃ key with
  | none =>
    have hnone : (View.keyState V key).value = none := by
      rw [← hvalue, View.keyState, hit, Option.map_none]
    refine .pure ⟨V₃, hs₄, ?_, hfiles.record, hfiles.other⟩
    rw [hfiles.key, KeyState.register, hnone]
    rfl
  | some it =>
    have hsome : (View.keyState V key).value = some it.content := by
      rw [← hvalue, View.keyState, hit, Option.map_some]
    rw [whenSome_some]
    cases hl : V₃ (leaseKey key) with
    | none =>
      have hnone : (View.keyState V₃ key).lease = none := by rw [View.keyState, hl, Option.map_none]
      refine .pure ⟨V₃, hs₄, ?_, hfiles.record, hfiles.other⟩
      rw [hlease] at hnone
      rw [hfiles.key, KeyState.register, hnone, hsome]
      rfl
    | some l =>
      have hsomeL : (View.keyState V₃ key).lease = some l.content := by
        rw [View.keyState, hl, Option.map_some]
      rw [whenSome_some, wlp_itemWrite]
      have hwrite := hs₄.write hit (f := fun it => { it with exptime := l.exptime }) fun _ => rfl
      refine ⟨_, hwrite, ?_, ?_, fun n hn hne => ?_⟩
      · rw [hlease] at hsomeL
        rw [View.keyState_update_value, hfiles.key, KeyState.register, hsomeL, hsome,
          Item.map_content_filter]
        rfl
      · have hne : tid ≠ key := fun heq => htid (heq ▸ by simp [recordNames])
        rw [update_of_ne hne, hfiles.record]
      · rw [View.update_of_notMem (by simp [recordNames]) hn, hfiles.other n hn hne]

/-- One pass of `item_delete_and_release`. -/
theorem Shows.wlp_itemDeleteAndReleaseKey (h : Shows s₀ V s) :
    wlp (itemDeleteAndReleaseKey tid key) (fun _ s' => ∃ V', Shows s₀ V' s' ∧
      View.Step key (KeyState.invalidate s₀.now (s₀.leaseExpiry c) tid) V V') c s := by
  rw [itemDeleteAndReleaseKey, wlp_bind, wlp_itemGet, h.read, wlp_bind]
  refine ((h.reap key).wlp_dropFound rfl).mono fun _ s₁ hs₁ => ?_
  have hl : update V key none (leaseKey key) = V (leaseKey key) :=
    update_of_ne (leaseKey_ne_self key) _ _
  rw [wlp_bind, itemGetLease, wlp_itemGet, hs₁.read, hl]
  cases hlease : V (leaseKey key) with
  | none =>
    refine .pure ⟨_, hs₁.reap _, ?_, fun n hn => View.update_of_notMem (by simp [recordNames]) hn⟩
    rw [View.keyState_update_value]
    simp [KeyState.invalidate, View.keyState, hlease]
  | some l =>
    rw [whenSome_some]
    refine ((hs₁.reap _).wlp_itemDropLease (hl.trans hlease)).mono ?_
    rintro _ s₂ ⟨o, ho, hs₂⟩
    refine ⟨_, hs₂, ?_, fun n hn => ?_⟩
    · rw [View.keyState_update_lease, View.keyState_update_value, ho]
      simp [KeyState.invalidate, View.keyState, hlease]
    · rw [View.update_of_notMem (by simp [recordNames]) hn,
        View.update_of_notMem (by simp [recordNames]) hn]

/-- `item_delete_and_release` -/
theorem ended_itemDeleteAndRelease (hs : s.ListsKeys N) (ht : N.isTid tid) (hheap : s.heap = [])
    (hold : s.oldestLive = 0) :
    wlp (itemDeleteAndRelease tid) (fun r s' => r = (if (s.live tid).isSome then true else false) ∧
      Ended tid (s.listed tid) (KeyState.invalidate s.now (s.leaseExpiry c) tid) s s') c s :=
  wlp_finish_ended hs ht hheap hold fun _ _ _ _ _ _ h => h.wlp_itemDeleteAndReleaseKey

theorem Shows.releaseKey (h : Shows s₀ V s) (key : Bytes) :
    ∃ V', Shows s₀ V' (s.releaseKey key) ∧ View.Step key KeyState.release V V' := by
  have hs₁ := (h.reap (leaseKey key)).reap (versionKey key)
  rw [Server.releaseKey, h.read, h.read]
  cases hl : V (leaseKey key) with
  | none =>
    refine ⟨V, hs₁, ?_, fun _ _ => rfl⟩
    simp [KeyState.release, View.keyState, hl]
  | some l =>
    cases hq : l.hasQLease with
    | false =>
      rw [Option.filter_some, hq]
      refine ⟨V, hs₁, ?_, fun _ _ => rfl⟩
      simp [KeyState.release, View.keyState, hl, hq]
    | true =>
      rw [Option.filter_some, hq, if_pos rfl]
      have hs₂ := hs₁.unlink hl
      have hpv : update V (leaseKey key) none (versionKey key) = V (versionKey key) :=
        update_of_ne leaseKey_ne_versionKey.symm _ _
      have hstep : View.Step key KeyState.release V
          (update (update V (leaseKey key) none) (versionKey key) none) := by
        refine ⟨?_, fun n hn => ?_⟩
        · rw [View.keyState_update_version, View.keyState_update_lease, KeyState.release, if_pos]
          · rfl
          · simp [View.keyState, hl, hq]
        · rw [View.update_of_notMem (by simp [recordNames]) hn,
            View.update_of_notMem (by simp [recordNames]) hn]
      refine ⟨_, ?_, hstep⟩
      cases hv : V (versionKey key) with
      | none =>
        have hsame : update (update V (leaseKey key) none) (versionKey key) none =
            update V (leaseKey key) none :=
          update_eq_self_iff.mpr (hpv.trans hv).symm
        rw [hsame]
        exact hs₂
      | some pv => exact hs₂.unlink (hpv.trans hv)

/-- One pass of `item_release`, for a transaction that does not list itself. -/
theorem Shows.wlp_itemReleaseKey {transIt : Item} (h : Shows s₀ V s)
    (hself : trigCheckKeylist transIt.data transIt.nbyte (u8Name tid) = some false) :
    wlp (itemReleaseKey tid transIt key) (fun _ s' => ∃ V', Shows s₀ V' s' ∧
      View.Step key KeyState.release V V') c s := by
  rw [Rejig.wlp_itemReleaseKey hself]
  exact h.releaseKey key

/-- `item_release` -/
theorem ended_itemRelease (hs : s.ListsKeys N) (ht : N.isTid tid) (hheap : s.heap = [])
    (hold : s.oldestLive = 0) :
    wlp (itemRelease tid) (fun r s' => r = (if (s.live tid).isSome then .ok else .notFound) ∧
      Ended tid (s.listed tid) KeyState.release s s') c s := by
  refine wlp_finish_ended hs ht hheap hold fun transIt htrans _ _ _ _ h => h.wlp_itemReleaseKey ?_
  have hfind := (Server.live_eq_some.mp htrans).1
  obtain ⟨ks, henc, hks⟩ := hs tid transIt (N.tid_unprefixed ht) (fun hk => N.disjoint hk ht) hfind
  have hmem : tid ∉ ks := fun hmem => N.disjoint (hks tid hmem).1 ht
  rw [u8Name_of_lt (Server.length_lt_of_find hfind), Item.nbyte, henc.check, decide_eq_false hmem]

end Registration

/-! ## The keys of a transaction -/

section Listed

variable {c : Settings} {N : Naming} {s s' : Server} {t k k' : Bytes}

/-- What a transaction lists depends on the content of its record. -/
theorem Server.listed_eq_content (s : Server) (t : Bytes) :
    s.listed t = (((s.live t).map Item.content).bind fun x =>
        trigKeylistEntries x.data).getD [] := by
  rw [Server.listed]
  cases s.live t <;> rfl

theorem Server.ListsKeys.encodes_listed {r : Item} (hs : s.ListsKeys N) (hun : Unprefixed t)
    (hfree : ¬ N.isKey t) (hr : s.live t = some r) : Encodes r.data (s.listed t) := by
  obtain ⟨ks, henc, -⟩ := hs t r hun hfree (Server.live_eq_some.mp hr).1
  simpa [Server.listed, hr, henc.entries] using henc

theorem Server.ListsKeys.mem_listed_iff (hs : s.ListsKeys N) (hun : Unprefixed t)
    (hfree : ¬ N.isKey t) (hk : k.length < 256) : k ∈ s.listed t ↔
      (s.live t).any (fun r => decide (r.Has k)) = true := by
  cases hlive : s.live t with
  | none => simp [Server.listed, hlive]
  | some r =>
    have henc := hs.encodes_listed hun hfree hlive
    simp [Item.Has, u8Name_of_lt hk, Item.nbyte, henc.check]

/-- The keys of a transaction after a key has been filed. -/
theorem Server.ListsKeys.mem_listed_enlisted (hs : s.ListsKeys N) (hun : Unprefixed t)
    (hfree : ¬ N.isKey t) (hk : k.length < 256) (hlasts : s.now < s.leaseExpiry c)
    (hrec : (s'.live t).map Item.content =
      enlisted s.now (s.leaseExpiry c) .none .sess k ((s.live t).map Item.content)) :
    k' ∈ s'.listed t ↔ k' = k ∨ k' ∈ s.listed t := by
  have hold : ∀ x, (s.live t).map Item.content = some x → Encodes x.data (s.listed t) := by
    intro x hx
    obtain ⟨r, hlive, rfl⟩ := Option.map_eq_some_iff.mp hx
    exact hs.encodes_listed hun hfree hlive
  have hnone : (s.live t).map Item.content = none → s.listed t = [] := by
    intro hx
    simp [Server.listed, Option.map_eq_none_iff.mp hx]
  obtain ⟨x, ks, hx, henc, hmem, -⟩ := enlisted_encodes hold hnone hk hlasts
  rw [Server.listed_eq_content, hrec, hx, Option.bind_some, henc.entries, Option.getD_some, hmem]

end Listed

end Rejig
