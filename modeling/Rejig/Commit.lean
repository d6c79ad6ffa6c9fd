import Rejig.Quiet
import Rejig.Stored

/-!
# What a commit leaves behind

A client that commits says whether its write is still pending in the data store.  The server is to
report this bit with every answer to `iqget`, until another commit changes it: with the value, which
carries it, or with a lease, and then the bit is in the pending marker of the key.

A commit sets the marker only when it finds no value.  Where it finds one and deletes it, because
the lease is an invalidate lease or because there is no pending version, the pointer that it tests
is still not null, and no marker is set.  So the bit of such a commit is lost.
-/

namespace Rejig

open Prog Option List

variable {p : Pending} {l v : Content} {req : Request} {token : UInt64}
  {cfg exptime frag pending : Int} {conn flags vlen : Nat} {s : Server} {w w' : World} {b : Bool}

/-- The pending indicator in an answer to `iqget`. -/
def Reply.indicator : Reply → Option UInt8
  | value it => some it.p
  | lvalue _ p => some p
  | _ => none

namespace KeyState

variable {now exp : Nat} {leaseToken : UInt64} {tid : Bytes} {cfgId : Int} {x : KeyState}

/-- `iqget` reports the indicator. -/
theorem IqgetAnswers.indicator {r : IqgetResult} {p : UInt8} (h : x.IqgetAnswers token leaseToken r)
    (hp : (ascIqgetReply r).indicator = some p) : p = x.indicator := by
  obtain ⟨status, item, newLeaseToken⟩ := r
  rw [IqgetAnswers] at h
  cases hv : x.value with
  | some v =>
    rw [hv] at h
    dsimp only at h
    split at h
    · cases h
      cases hp
    · obtain ⟨rfl, hitem⟩ := h
      obtain ⟨it, rfl, rfl⟩ := map_eq_some_iff.mp hitem
      cases hp
      simp [KeyState.indicator, hv]
  | none =>
    rw [hv] at h
    cases hl : x.lease with
    | none =>
      rw [hl] at h
      obtain ⟨rfl, -, hitem⟩ := h
      obtain ⟨it, rfl, hit⟩ := map_eq_some_iff.mp hitem
      cases hp
      exact hit
    | some l =>
      rw [hl] at h
      dsimp only at h
      split at h
      · cases h
        cases hp
      · obtain ⟨rfl, -, hitem⟩ := h
        obtain ⟨it, rfl, hit⟩ := map_eq_some_iff.mp hitem
        cases hp
        exact hit

/-- A key with a value has no I lease. -/
def Settled (x : KeyState) : Prop := ∀ l, x.lease = some l → x.value.isSome → l.lease ≠ .i

theorem indicator_iqget : (x.iqget now exp token).indicator = x.indicator := by
  rw [iqget]
  split <;> rfl

theorem Settled.iqget (h : x.Settled) : (x.iqget now exp token).Settled := by
  rw [KeyState.iqget]
  split
  · exact h
  · next hv _ =>
    intro l _ hsome
    simp [hv] at hsome
  · next hv _ =>
    intro l _ hsome
    simp [hv] at hsome

/-- An `iqset` moves the indicator from the marker to the value. -/
theorem Settled.indicator_iqset (h : x.Settled) (hp : v.p = 0) (hexp : v.expired now = false) :
    (x.iqset now leaseToken v).indicator = x.indicator := by
  rw [KeyState.iqset]
  split
  · next htaken =>
    obtain ⟨l, hl, htaken⟩ := (any_eq_true _ _).mp htaken.2
    have hnone : x.value = none := by
      by_contra hne
      refine h l hl (isSome_iff_ne_none.mpr hne) ?_
      simp only [Bool.and_eq_true, decide_eq_true_eq] at htaken
      exact htaken.1
    have halive : Content.expired now { v with p := if x.marker.isSome then 1 else v.p } = false :=
      hexp
    rw [indicator, indicator, hnone, Option.filter_some, halive, Bool.not_false, if_pos rfl, hp]
    rfl
  · rfl

theorem settled_commit (hl : x.lease = some l) (hq : l.hasQLease = true) :
    (x.commit now exp tid pending cfgId).Settled := by
  intro l' hl' _
  rw [commit, hl, filter_some, hq, if_pos rfl, elim_some] at hl'
  change droppedLease now exp tid l = some l' at hl'
  rw [droppedLease] at hl'
  split at hl'
  · cases hl'
  split at hl'
  · rw [delisted] at hl'
    split at hl'
    · cases hl'
    obtain ⟨data, -, hdata⟩ := bind_eq_some_iff.mp hl'
    obtain ⟨hdata, -⟩ := filter_eq_some_iff.mp hdata
    cases hdata
    simp only [Content.listLease]
    split <;> simp
  · next hinv _ =>
    cases hl'
    rw [not_not.mp hinv]
    simp

/-- The indicator that a commit leaves. -/
theorem indicator_commit (hl : x.lease = some l) (hq : l.hasQLease = true)
    (hversion : ∀ pv, x.version = some pv → pv.data ≠ []) :
    (x.commit now exp tid b.toInt cfgId).indicator = b.toUInt8 ↔
      b = false ∨ l.lease ≠ .qInv ∧ x.version.isSome ∨ x.version = none ∧ x.value = none := by
  rw [commit, hl, filter_some, hq, if_pos rfl, elim_some]
  cases hv : x.version with
  | none =>
    -- the value goes, and what is left of the indicator is the marker
    have happlied : x.applied b.toInt cfgId = x.value := by simp [applied, hv]
    simp only [committed, indicator, happlied, hv, Option.isNone_none, Bool.true_or,
      if_true, elim_none]
    cases x.value <;> cases x.marker <;> cases b <;> simp [markedBy, Bool.toUInt8]
  | some pv =>
    -- the pending version becomes the value, unless the lease is an invalidate lease
    have happlied : ∃ v, x.applied b.toInt cfgId = some v ∧ v.p = b.toUInt8 := by
      rw [applied, hv]
      dsimp only
      rw [if_neg (hversion pv hv)]
      exact ⟨_, rfl, by cases b <;> rfl⟩
    obtain ⟨v, happlied, hp⟩ := happlied
    simp only [committed, indicator, happlied, hv]
    by_cases hinv : l.lease = .qInv
    · cases b <;> simp [hinv, markedBy, Bool.toUInt8]
    · simp [hinv, hp]

end KeyState

/-! ## The pending indicator -/

/-- The pending indicator of a key is `b`: so says the next `iqget` that is answered with a value or
a lease, and so it stays through an `iqset` after it. -/
def Reports (c : Settings) (k : Bytes) (b : UInt8) (s : Server) : Prop :=
  (s.keyState k).indicator = b ∧
  ∀ s₁ cfg leaseToken, s₁.heap = [] → s₁.oldestLive = 0 → s₁.keyState k = s.keyState k →
    wlp (ascDispatch (.iqget cfg k leaseToken)) (fun out s₂ =>
      (∀ r p, out = .reply r → r.indicator = some p → p = b) ∧
      ∀ s₃ s₄ req token p body, s₃.heap = [] → s₃.oldestLive = 0 → s₃.keyState k = s₂.keyState k →
        Prepared c s₄ req p → req.fill = some (k, token) → p.item.expired s₃.now = false →
        wlp (ascCompleteNread p body) (fun _ s₅ => (s₅.keyState k).indicator = b) c s₃) c s₁

section Indicator

variable {c : Settings} {N : Naming} {k tid : Bytes} {b : UInt8}

/-- The item of a request has no pending bit. -/
theorem Prepared.p_eq_zero (h : Prepared c s req p) : p.item.p = 0 := by
  obtain ⟨hp, -, -⟩ := h
  cases req with
  | update | sar | swap | iqConcat | oqswap | oqwrite | oqConcat =>
    cases hp
    rfl
  | _ => cases hp

/-- A pending version is not empty. -/
theorem IqRun.version_ne_nil {h : History} {pv : Item} (hr : IqRun c N h w)
    (hpv : w.server.live (versionKey k) = some pv) : pv.data ≠ [] := by
  have hfind := (Server.live_eq_some.mp hpv).1
  have hplain : Plain pv := ⟨(hr.version hfind).lease, (hr.version hfind).co⟩
  have hstored := hr.stored _ _ hfind
  rw [hplain.storable] at hstored
  simpa [Item.nbyte] using hstored

/-- The records of a key after the body of an `iqset`. -/
theorem indicator_ascCompleteNread {s₄ : Server} {body : Bytes} (hheap : s.heap = [])
    (hold : s.oldestLive = 0) (hx : (s.keyState k).Settled) (hp : Prepared c s₄ req p)
    (hfill : req.fill = some (k, token)) (hexp : p.item.expired s.now = false) :
    wlp (ascCompleteNread p body) (fun _ s' =>
        (s'.keyState k).indicator = (s.keyState k).indicator) c s := by
  obtain ⟨hcompletion, hkey⟩ := hp.of_fill hfill
  rw [ascCompleteNread]
  split
  · exact .pure rfl
  rw [hcompletion, ascComplete, wlp_bind]
  refine ((Shows.refl hheap hold).wlp_itemStore_iqset (hp.plain body)).mono ?_
  rintro r s' ⟨_, V', hs', hstep⟩
  refine .pure ?_
  have hkey' : (p.filled body).key = k := hkey
  rw [hkey'] at hstep
  rw [Server.keyState, hs'.live, hstep.key]
  exact hx.indicator_iqset hp.p_eq_zero hexp

theorem reports_of_indicator (hx : (s.keyState k).Settled) :
    Reports c k (s.keyState k).indicator s := by
  refine ⟨rfl, fun s₁ cfg leaseToken hheap hold hsame => ?_⟩
  have hrefused : ∀ r ∈ Reply.refusals, (∀ r' p, Outcome.reply r = .reply r' →
    r'.indicator = some p →
      p = (s.keyState k).indicator) ∧
      ∀ s₃ s₄ req token p body, s₃.heap = [] → s₃.oldestLive = 0 → s₃.keyState k = s₁.keyState k →
        Prepared c s₄ req p → req.fill = some (k, token) → p.item.expired s₃.now = false →
        wlp (ascCompleteNread p body) (fun _ s₅ =>
          (s₅.keyState k).indicator = (s.keyState k).indicator) c s₃ := by
    refine fun r hr => ⟨?_, fun s₃ s₄ req token p body hheap₃ hold₃ hsame₃ hp hfill hexp => ?_⟩
    · rintro r' p ⟨⟩ hp
      simp only [Reply.refusals, List.mem_cons, List.not_mem_nil, or_false] at hr
      rcases hr with rfl | rfl | rfl <;> cases hp
    · rw [← hsame, ← hsame₃]
      exact indicator_ascCompleteNread hheap₃ hold₃ (hsame₃ ▸ hsame ▸ hx) hp hfill hexp
  rw [ascDispatch, ascProcessIqget]
  refine wlp_ascCheckConfig hrefused fun _ => wlp_ascCheckLength hrefused fun hlen => ?_
  refine .bind (((Shows.refl hheap hold).wlp_itemIqget hlen).mono ?_)
  rintro r s₂ ⟨hanswer, _, V', hs₂, hstep⟩
  refine .pure ⟨?_, ?_⟩
  · rintro _ p ⟨⟩ hp
    rw [← hsame]
    exact hanswer.indicator hp
  · intro s₃ s₄ req token p body hheap₃ hold₃ hsame₃ hp hfill hexp
    have hstate : s₃.keyState k = (s.keyState k).iqget s₁.now (s₁.leaseExpiry c) s₁.token := by
      rw [hsame₃, Server.keyState, hs₂.live, hstep.key, ← hsame]
      rfl
    have hsettled : (s₃.keyState k).Settled := hstate ▸ hx.iqget
    refine (indicator_ascCompleteNread hheap₃ hold₃ hsettled hp hfill hexp).mono fun _ s₅ h₅ => ?_
    rw [h₅, hstate, KeyState.indicator_iqget]

/-- The end of a transaction by `commit`. -/
theorem ended_ascProcessCommit (hs : s.ListsKeys N) (ht : N.isTid tid) (hheap : s.heap = [])
    (hold : s.oldestLive = 0) :
    wlp (ascDispatch (.commit cfg frag tid pending)) (fun out s' => out = .reply .ok →
      Ended tid (s.listed tid) (KeyState.commit s.now (s.leaseExpiry c) tid pending
        (fragConfig frag s.configurationNumber)) s s') c s := by
  have hrefused : ∀ r ∈ Reply.refusals, Outcome.reply r = .reply .ok →
      Ended tid (s.listed tid) (KeyState.commit s.now (s.leaseExpiry c) tid pending
        (fragConfig frag s.configurationNumber)) s s := by
    intro r hr heq
    cases heq
    simp [Reply.refusals] at hr
  rw [ascDispatch, ascProcessCommit]
  refine wlp_ascCheckLength hrefused fun _ => wlp_ascCheckConfig hrefused fun _ => ?_
  refine .bind ((ended_itemCommit hs ht hheap hold).mono ?_)
  rintro r s' ⟨_, hend⟩
  cases r <;> exact .pure fun _ => hend

/-- A commit leaves the pending indicator that it was sent, exactly if the bit is 0, or the commit
makes a pending version the value, or there is neither a pending version nor a value. -/
theorem commit_reports_iff {h : History} {w w' : World} {conn : Nat} {cfg frag : Int} {b : Bool}
    {l : Item} (hr : IqRun c N h w) (hheap : w.server.heap = []) (ht : N.isTid tid)
    (hk : k ∈ w.server.listed tid) (hl : w.server.live (leaseKey k) = some l)
    (hq : l.hasQLease = true)
    (hstep : World.Step c w (.line conn (.commit cfg frag tid b.toInt) (.reply .ok)) w') :
    Reports c k b.toUInt8 w'.server ↔
      b = false ∨ l.hasQInvLease = false ∧ (w.server.live (versionKey k)).isSome ∨
        w.server.live (versionKey k) = none ∧ w.server.live k = none := by
  have hend := ended_ascProcessCommit hr.listsKeys ht hheap hr.registers.2 _ _ hstep.of_line rfl
  have hlease : (w.server.keyState k).lease = some l.content := by
    simp [Server.keyState, View.keyState, hl]
  have hversion : ∀ pv, (w.server.keyState k).version = some pv → pv.data ≠ [] := by
    intro x hx
    obtain ⟨pv, hpv, rfl⟩ := map_eq_some_iff.mp hx
    exact hr.version_ne_nil hpv
  have hstate := hend.keyState k hk
  have hiff : (w'.server.keyState k).indicator = b.toUInt8 ↔ b = false ∨
      l.content.lease ≠ .qInv ∧ (w.server.keyState k).version.isSome ∨
      (w.server.keyState k).version = none ∧ (w.server.keyState k).value = none := by
    rw [hstate]
    exact KeyState.indicator_commit hlease hq hversion
  have hcond : (b = false ∨ l.content.lease ≠ .qInv ∧ (w.server.keyState k).version.isSome ∨
      (w.server.keyState k).version = none ∧ (w.server.keyState k).value = none) ↔
      (b = false ∨ l.hasQInvLease = false ∧ (w.server.live (versionKey k)).isSome ∨
        w.server.live (versionKey k) = none ∧ w.server.live k = none) := by
    simp [Server.keyState, View.keyState, Item.hasQInvLease]
  rw [← hcond, ← hiff]
  constructor
  · exact fun h => h.1
  · intro heq
    rw [← heq]
    refine reports_of_indicator ?_
    rw [hstate]
    exact KeyState.settled_commit hlease hq

end Indicator

/-- The naming of the key `k` and the transaction `t`. -/
def commitNaming : Naming := .ofLists [[0x6b]] [[0x74]] (by decide) (by decide) (by decide)

/-- A commit of a registration for a key without a value. -/
theorem commit_reports_iff_missing : ∃ w w' : World,
    World.Step {} w (.line 0 (.commit 0 (-1) [0x74] 1) (.reply .ok)) w' ∧
    Reports {} [0x6b] 1 w'.server := by
  obtain ⟨older, t, w, hr, hlabel, hheap, hlisted, hversion, hvalue, l, hl, hq⟩ :=
    (playable_iq : Playable {} (IqRun {} commitNaming) _).exists_run₁
      [.line 0 (.qareg 0 [0x6b] [0x74]), .line 0 (.commit 0 (-1) [0x74] 1)]
      (P := fun _ t _ => t.label = .line 0 (.commit 0 (-1) [0x74] 1) (.reply .ok) ∧
        t.pre.server.heap = [] ∧
        t.pre.server.listed [0x74] = [[0x6b]] ∧ t.pre.server.live (versionKey [0x6b]) = none ∧
        t.pre.server.live [0x6b] = none ∧ ∃ l, t.pre.server.live (leaseKey [0x6b]) = some l ∧
        l.hasQLease)
      (by decide +kernel)
  obtain ⟨hr, hstep, -, -⟩ := hr.of_cons
  rw [hlabel] at hstep
  refine ⟨t.pre, t.post, hstep, ?_⟩
  have htid : commitNaming.isTid [0x74] := mem_cons_self
  have hk : [0x6b] ∈ t.pre.server.listed [0x74] := hlisted ▸ mem_cons_self
  exact (commit_reports_iff (b := true) hr hheap htid hk hl hq hstep).mpr
    (.inr (.inr ⟨hversion, hvalue⟩))

/-- A commit with the pending bit set deletes a value, and the next `iqget` reports that the bit is
not set. -/
theorem commit_loses_indicator : ∃ (h : History) (w : World) (t t' : Moment) (l : Item),
    IqRun {} commitNaming (t' :: t :: h) w ∧
    t.label = .line 1 (.commit 0 (-1) [0x74] 1) (.reply .ok) ∧
    t.pre.server.listed [0x74] = [[0x6b]] ∧ t.pre.server.live (leaseKey [0x6b]) = some l ∧
    l.hasQLease = true ∧ l.Has [0x74] ∧
    t'.label = .line 2 (.iqget 0 [0x6b] 0) (.reply (.lvalue 5 0)) := by
  obtain ⟨older, t, t', w, hr, hlabel, hlisted, hlabel', l, hl, hq, hhas⟩ :=
    (playable_iq : Playable {} (IqRun {} commitNaming) _).exists_run₂
      [.line 0 (.update .set 0 (-1) [0x6b] 0 0 1), .body 0 [0x76, 0x0d, 0x0a],
        .line 1 (.qareg 0 [0x6b] [0x74]), .line 1 (.commit 0 (-1) [0x74] 1),
        .line 2 (.iqget 0 [0x6b] 0)]
      (P := fun _ t t' _ => t.label = .line 1 (.commit 0 (-1) [0x74] 1) (.reply .ok) ∧
        t.pre.server.listed [0x74] = [[0x6b]] ∧ t'.label = .line 2 (.iqget 0 [0x6b] 0)
          (.reply (.lvalue 5 0)) ∧
        ∃ l, t.pre.server.live (leaseKey [0x6b]) = some l ∧ l.hasQLease ∧ l.Has [0x74])
          (by decide +kernel)
  exact ⟨older, w, t, t', l, hr, hlabel, hlisted, hl, hq, hhas, hlabel'⟩

/-! ## Swap and commit -/

namespace KeyState

variable {now exp : Nat} {leaseToken : UInt64} {tid : Bytes} {cfgId : Int} {x : KeyState}

/-- The value after a swap and a commit. -/
theorem value_commit_swap {now' exp' : Nat} (hl : x.lease = some l)
    (hkind : l.lease = .qRef ∨ l.lease = .qInc) (htoken : l.leaseValue = leaseToken)
    (hlasts : now < exp) :
    ((x.swap now exp leaseToken v).commit now' exp' tid pending cfgId).value =
      if v.data ≠ [] then some { data := v.data, dataflags := v.dataflags
                                 p := .ofNat (pending % 256).toNat, configNumber := cfgId }
      else if x.version.isNone then none else x.applied pending cfgId := by
  have hq : l.hasQLease = true := by
    rcases hkind with h | h <;> simp [Content.hasQLease, h]
  have hninv : l.lease ≠ .qInv := by
    rcases hkind with h | h <;> simp [h]
  by_cases hdata : v.data = []
  · rw [KeyState.swap, if_neg fun hyes => hyes.1 hdata, commit, hl, filter_some, hq, if_pos rfl,
      elim_some, if_neg (not_not.mpr hdata)]
    simp [committed, hninv]
  · have hswap : x.swap now exp leaseToken v = _ := if_pos ⟨hdata, by simp [hl, htoken]⟩
    have hpos : exp ≠ 0 := by omega
    rw [hswap, if_pos hdata]
    simp [commit, hl, hq, filter_some, committed, Content.expired, hlasts, hninv, applied, hdata]

end KeyState

/-- `get` returns the bytes `v` with the given flags, or nothing if there are no bytes. -/
def Returns (c : Settings) (k v : Bytes) (flags : Nat) (s : Server) : Prop :=
  (s.keyState k).value.map (fun x => (x.data, x.dataflags)) = (if v = [] then none else some
    (v, flags)) ∧
  ∀ s₁ cas cfg, s₁.keyState k = s.keyState k →
    wlp (ascDispatch (.get cas cfg [k])) (fun out _ => ∀ its, out = .reply (.values its) →
      its.map (fun it => (it.data, it.dataflags)) = if v = [] then [] else [(v, flags)]) c s₁

theorem returns_of_value {c : Settings} {k v : Bytes}
    (h : (s.keyState k).value.map (fun x => (x.data, x.dataflags)) = if v = [] then none else some
      (v, flags)) : Returns c k v flags s := by
  refine ⟨h, fun s₁ cas cfg hsame => ?_⟩
  have hvalue : (s₁.live k).toList.map (fun it => (it.data, it.dataflags)) =
      if v = [] then [] else [(v, flags)] := by
    have hfound : (s₁.live k).map (fun it => (it.data, it.dataflags)) =
        if v = [] then none else some (v, flags) := by
      rw [← h, ← hsame, Server.keyState, View.keyState, Option.map_map]
      rfl
    rw [← toList_map, hfound]
    split <;> rfl
  rw [ascDispatch, ascProcessRead]
  refine wlp_ascCheckConfig (fun r hr its heq => ?_) fun _ => ?_
  · cases heq
    simp [Reply.refusals] at hr
  rw [ascReadKeys]
  split
  · rw [wlp_bind, wlp_pure]
    refine .pure ?_
    rintro _ ⟨⟩
  · simp only [ascReadKeys, wlp_bind, wlp_itemGet]
    refine wlp.mono (m := whenSome (s₁.live k) itemTouch) (Q := fun _ _ => True) ?_ fun _ s₂ _ => ?_
    · exact fun _ _ _ => trivial
    · simp only [wlp_pure, map_some, append_nil]
      rintro its ⟨⟩
      exact hvalue

section SwapCommit

variable {c : Settings} {N : Naming} {k tid : Bytes}

/-- The body of a swap, when it is not refused. -/
theorem step_ascCompleteNread_swap {body : Bytes} (hheap : s.heap = []) (hold : s.oldestLive = 0)
    (hp : p.completion = .swap token) (hlen : p.item.key.length ≤ keyMaxLen) :
    wlp (ascCompleteNread p body) (fun r s' => r = .stored → ∃ V', Shows s V' s' ∧
      View.Step p.item.key (KeyState.swap s.now (s.leaseExpiry c) token (p.filled body).content)
        s.live V') c s := by
  rw [ascCompleteNread]
  split
  · refine .pure ?_
    rintro ⟨⟩
  rw [hp, ascComplete, wlp_bind]
  have hlen' : (p.filled body).key.length ≤ keyMaxLen := hlen
  refine ((Shows.refl hheap hold).wlp_itemSwap hlen').mono ?_
  rintro r s' ⟨_, hs'⟩
  cases r <;> exact .pure fun _ => hs'

/-- The records of a key after the body of a swap that is answered `STORED`. -/
theorem keyState_of_swap {h : History} {body : Bytes} (hr : IqRun c N h w)
    (hheap : w.server.heap = [])
    (hstep : World.Step c w (.body conn (.swap cfg frag k flags exptime vlen token) p body
      .stored) w') :
    ∃ v : Content, v.data = body.take vlen ∧ v.dataflags = flags ∧ w'.server.keyState k =
      (w.server.keyState k).swap w.server.now (w.server.leaseExpiry c) token v := by
  obtain ⟨hconn, hrun⟩ := hstep.of_body
  obtain ⟨t, -, -, hp⟩ := exists_line_of_waiting hr.run hconn
  have hkey : p.item.key = k := by simpa [Request.keys] using hp.key_mem
  have hlen := hp.short_key
  obtain ⟨hpending, -, -⟩ := hp
  have hcompletion : p.completion = .swap token := by
    cases hpending
    rfl
  have hfilled : (p.filled body).content.data = body.take vlen ∧
      (p.filled body).content.dataflags = flags := by
    cases hpending
    exact ⟨rfl, rfl⟩
  obtain ⟨V', hs', hstep'⟩ :=
    step_ascCompleteNread_swap hheap hr.registers.2 hcompletion hlen _ _ hrun rfl
  refine ⟨(p.filled body).content, hfilled.1, hfilled.2, ?_⟩
  rw [hkey] at hstep'
  rw [Server.keyState, hs'.live, hstep'.key]
  rfl

/-- A swap that is answered `STORED`, and the commit that follows, make the body the value of the
key, exactly if the body is not empty or the key had no pending version before the swap. -/
theorem swap_commit_iff {h h₃ : History} {w₁ w₂ w₃ w₄ : World} {l : Item} {token : UInt64}
    {conn conn' flags vlen : Nat} {cfg frag exptime cfg' frag' pending : Int} {p : Pending}
    {body : Bytes} (hr : IqRun c N h w₁) (hheap : w₁.server.heap = [])
    (hl : w₁.server.live (leaseKey k) = some l)
    (hkind : l.hasQRefLease = true ∨ l.hasQIncrLease = true) (htoken : l.leaseValue = token)
    (hswap : World.Step c w₁ (.body conn (.swap cfg frag k flags exptime vlen token) p body
      .stored) w₂) (hr₃ : IqRun c N h₃ w₃) (hheap₃ : w₃.server.heap = [])
    (hsame : w₃.server.keyState k = w₂.server.keyState k) (ht : N.isTid tid)
    (hk : k ∈ w₃.server.listed tid)
    (hcommit : World.Step c w₃ (.line conn' (.commit cfg' frag' tid pending) (.reply .ok)) w₄) :
    Returns c k (body.take vlen) flags w₄.server ↔
      body.take vlen ≠ [] ∨ w₁.server.live (versionKey k) = none := by
  obtain ⟨v, hdata, hflags, hstate₂⟩ := keyState_of_swap hr hheap hswap
  have hend := ended_ascProcessCommit hr₃.listsKeys ht hheap₃ hr₃.registers.2
    _ _ hcommit.of_line rfl
  have hlease : (w₁.server.keyState k).lease = some l.content := by
    simp [Server.keyState, View.keyState, hl]
  have hkind' : l.content.lease = .qRef ∨ l.content.lease = .qInc := by
    simpa [Item.hasQRefLease, Item.hasQIncrLease] using hkind
  have hvalue := congrArg KeyState.value (hend.keyState k hk)
  rw [hsame, hstate₂, KeyState.value_commit_swap hlease hkind' htoken (hr.now_lt_leaseExpiry hl),
    hdata, hflags] at hvalue
  have hiff : Returns c k (body.take vlen) flags w₄.server ↔
      (w₄.server.keyState k).value.map (fun x => (x.data, x.dataflags)) =
        if body.take vlen = [] then none else some (body.take vlen, flags) :=
    ⟨fun h => h.1, returns_of_value⟩
  rw [hiff, hvalue]
  by_cases hnil : body.take vlen = []
  · cases hpv : w₁.server.live (versionKey k) with
    | none => simp [hnil, Server.keyState, View.keyState, hpv]
    | some pv =>
      have hne := hr.version_ne_nil hpv
      simp [hnil, Server.keyState, View.keyState, KeyState.applied, hpv, hne]
  · simp [hnil]

end SwapCommit

/-- The test that a step completes a swap with the given line and body, and answers `STORED`. -/
def Event.swaps (req : Request) (body : Bytes) : Event → Bool
  | .body conn req' _ body' r => conn = 0 && req' = req && body' = body && r = .stored
  | _ => false

theorem Event.swaps_eq {body : Bytes} {e : Event} (h : e.swaps req body = true) :
    ∃ p, e = .body 0 req p body .stored := by
  cases e with
  | body conn req' p body' r =>
    simp only [Event.swaps, Bool.and_eq_true, decide_eq_true_eq] at h
    obtain ⟨⟨⟨rfl, rfl⟩, rfl⟩, rfl⟩ := h
    exact ⟨p, rfl⟩
  | _ => cases h

/-- A swap of a key without a pending version, and its commit. -/
theorem swap_commit_iff_value : ∃ (w₁ w₂ w₄ : World) (p : Pending),
    World.Step {} w₁ (.body 0 (.swap 0 (-1) [0x6b] 7 0 1 5) p [0x76, 0x0d, 0x0a] .stored) w₂ ∧
    World.Step {} w₂ (.line 0 (.commit 0 (-1) [0x74] 0) (.reply .ok)) w₄ ∧
    Returns {} [0x6b] [0x76] 7 w₄.server := by
  obtain ⟨older, t, t', w, hr, hswap, hheap, hheap', hlisted, hlabel, l, hl, hkind, htoken⟩ :=
    (playable_iq : Playable {} (IqRun {} commitNaming) _).exists_run₂
      [.line 0 (.qaread 0 [0x6b] 1 0 [0x74]), .line 0 (.swap 0 (-1) [0x6b] 7 0 1 5),
        .body 0 [0x76, 0x0d, 0x0a], .line 0 (.commit 0 (-1) [0x74] 0)]
      (P := fun _ t t' _ => t.label.swaps (.swap 0 (-1) [0x6b] 7 0 1 5) [0x76, 0x0d, 0x0a] ∧
        t.pre.server.heap = [] ∧ t'.pre.server.heap = [] ∧ t'.pre.server.listed [0x74] = [[0x6b]] ∧
        t'.label = .line 0 (.commit 0 (-1) [0x74] 0) (.reply .ok) ∧
        ∃ l, t.pre.server.live (leaseKey [0x6b]) = some l ∧ l.hasQRefLease ∧ l.leaseValue = 5)
          (by decide +kernel)
  obtain ⟨p, hswap⟩ := Event.swaps_eq hswap
  obtain ⟨hr', hstep', -, -⟩ := hr.of_cons
  obtain ⟨hr₁, hstep, -, hpost⟩ := hr'.of_cons
  rw [hlabel] at hstep'
  rw [hswap] at hstep
  rw [← hpost] at hstep
  have ht : commitNaming.isTid [0x74] := mem_cons_self
  have hk : [0x6b] ∈ t'.pre.server.listed [0x74] := hlisted ▸ mem_cons_self
  exact ⟨t.pre, t'.pre, t'.post, p, hstep, hstep', (swap_commit_iff hr₁ hheap hl (.inl hkind) htoken
    hstep hr' hheap' rfl ht hk hstep').mpr (.inl (by decide))⟩

/-- A swap with an empty body is answered `STORED`, and the commit that follows leaves the old
value. -/
theorem empty_swap_keeps_value : ∃ (h : History) (w : World) (t₁ t₂ t₃ : Moment) (p : Pending)
      (l it : Item), IqRun {} commitNaming (t₃ :: t₂ :: t₁ :: h) w ∧
    t₁.pre.server.live (leaseKey [0x6b]) = some l ∧ l.hasQRefLease = true ∧ l.leaseValue = 5 ∧
    t₁.pre.server.listed [0x74] = [[0x6b]] ∧
    t₁.label = .body 0 (.swap 0 (-1) [0x6b] 0 0 0 5) p [0x0d, 0x0a] .stored ∧
    t₂.label = .line 0 (.commit 0 (-1) [0x74] 0) (.reply .ok) ∧
    t₃.label = .line 0 (.get false 0 [[0x6b]]) (.reply (.values [it])) ∧ it.data = [0x76] := by
  obtain ⟨older, t₁, t₂, t₃, w, hr, hswap, hlisted, hlabel, ⟨l, hl, hkind, htoken⟩, hvalue⟩ :=
    (playable_iq : Playable {} (IqRun {} commitNaming) _).exists_run₃
      [.line 0 (.update .set 0 (-1) [0x6b] 0 0 1), .body 0 [0x76, 0x0d, 0x0a],
        .line 0 (.qaread 0 [0x6b] 1 0 [0x74]), .line 0 (.swap 0 (-1) [0x6b] 0 0 0 5),
        .body 0 [0x0d, 0x0a], .line 0 (.commit 0 (-1) [0x74] 0), .line 0 (.get false 0 [[0x6b]])]
      (P := fun _ t₁ t₂ t₃ _ => t₁.label.swaps (.swap 0 (-1) [0x6b] 0 0 0 5) [0x0d, 0x0a] ∧
        t₁.pre.server.listed [0x74] = [[0x6b]] ∧ t₂.label = .line 0 (.commit 0 (-1) [0x74] 0)
          (.reply .ok) ∧
        (∃ l, t₁.pre.server.live (leaseKey [0x6b]) = some l ∧ l.hasQRefLease ∧ l.leaseValue = 5) ∧
        (t₃.pre.server.live [0x6b]).any fun it => it.data = [0x76] ∧
          t₃.label = .line 0 (.get false 0 [[0x6b]]) (.reply (.values [it]))) (by decide +kernel)
  obtain ⟨p, hswap⟩ := Event.swaps_eq hswap
  obtain ⟨it, -, hvalue⟩ := (any_eq_true _ _).mp hvalue
  obtain ⟨hdata, hget⟩ := of_decide_eq_true hvalue
  exact ⟨older, w, t₁, t₂, t₃, p, l, it, hr, hl, hkind, htoken, hlisted, hswap, hlabel, hget, hdata⟩

end Rejig
