import Rejig.Turn

/-!
# Giving up a transaction

A transaction that quarantined keys with `qaread` and `iqappend`, and changed their pending versions
with `swap` and `iqappend`, can give up with `release`.  Everything it did was done to leases and
pending versions, which `release` drops, so the values and pending indicators should be what they
were.

`Working` is the invariant of a key while the transaction works.  There is one exception.  A `swap`
on a key without a pending version takes the pending marker of the key, to keep it as the pending
bit of the version that it creates.  `release` drops that version, and the indicator with it.
-/

namespace Rejig

open Prog Option List

variable {t : Bytes} {w w' w₀ w₁ : World} {f : Content → Content} {ms : History} {req : Request}
  {s : Server} {conn : Nat}

/-- What has become of a key while a transaction works: `x₀` are its records before, `x` its records
now, `listed` says whether the transaction lists the key, and `lost` whether a swap has taken its
marker. -/
structure Working (x₀ : KeyState) (lost : Prop) (x : KeyState) (listed : Prop) : Prop where
  value : x.value = x₀.value
  marker : x.marker = x₀.marker ∨ x.marker = none
  kept : x₀.value = none → (x.marker = x₀.marker ↔ ¬ lost)
  absent : lost → x₀.value = none
  held : listed → ∃ l, x.lease = some l ∧ (l.lease = .qRef ∨ l.lease = .qInc)
  lease : ¬ listed → ∀ l, x.lease = some l → l.hasQLease = true →
    ∃ l₀, x₀.lease = some l₀ ∧ l₀.lease = l.lease ∧ l₀.data = l.data
  version : ¬ listed → x.version = none ∨ x.version = x₀.version

namespace Working

variable {x₀ x : KeyState} {lost lost' listed listed' : Prop} {now exp : Nat} {token : UInt64}

theorem refl (x₀ : KeyState) (hlost : ¬ lost) (hlisted : ¬ listed) : Working x₀ lost x₀ listed where
  value := rfl
  marker := .inl rfl
  kept _ := ⟨fun _ => hlost, fun _ => rfl⟩
  absent h := absurd h hlost
  held h := absurd h hlisted
  lease _ l hl _ := ⟨l, hl, rfl, rfl⟩
  version _ := .inr rfl

section

variable (h : Working x₀ lost x listed)

include h

theorem congr (hlost : lost' ↔ lost) (hlisted : listed' ↔ listed) : Working x₀ lost' x listed' := by
  rwa [propext hlost, propext hlisted]

/-- A reader may be handed an I lease, or leave the pending bit in a lease. -/
theorem iqget : Working x₀ lost (x.iqget now exp token) listed := by
  rw [KeyState.iqget]
  split
  · exact h
  · next hlease =>
    refine ⟨h.value, h.marker, h.kept, h.absent, fun hl => ?_, fun hl l hl' hq => ?_, h.version⟩
    · obtain ⟨l, hl, -⟩ := h.held hl
      rw [hlease] at hl
      cases hl
    · have hgranted : KeyState.granted now exp .i token x.indicator = some l := hl'
      obtain ⟨heq, -⟩ := filter_eq_some_iff.mp hgranted
      cases heq
      cases hq
  · next l hvalue hlease =>
    refine ⟨h.value, h.marker, h.kept, h.absent, fun hl => ?_, fun hl l' hl' hq => ?_, h.version⟩
    · obtain ⟨l', hl', hkind⟩ := h.held hl
      rw [hlease] at hl'
      cases hl'
      exact ⟨_, rfl, hkind⟩
    · cases hl'
      exact h.lease hl l hlease hq

/-- The transaction is granted a lease. -/
theorem quarantine {kind : Lease} (hkind : kind = .qRef ∨ kind = .qInc) (hlasts : now < exp)
    (hlisted : listed') :
    Working x₀ lost (x.quarantine now exp kind token) listed' where
  value := h.value
  marker := h.marker
  kept := h.kept
  absent := h.absent
  held _ := ⟨{ data := decimal token, exptime := exp, lease := kind, p := 0 },
    by simp [KeyState.quarantine, KeyState.granted, filter_some, Content.expired, hlasts], hkind⟩
  lease hnot := absurd hlisted hnot
  version hnot := absurd hlisted hnot

/-- The transaction changes its pending version. -/
theorem updated (hlisted : listed) : Working x₀ lost (x.updated f) listed where
  value := h.value
  marker := h.marker
  kept := h.kept
  absent := h.absent
  held := h.held
  lease hnot := absurd hlisted hnot
  version hnot := absurd hlisted hnot

theorem increment (hlasts : now < exp) (hlisted : listed') :
    Working x₀ lost (x.increment now exp token f) listed' := by
  have hq : Working x₀ lost (x.quarantine now exp .qInc token) listed' :=
    h.quarantine (.inr rfl) hlasts hlisted
  rw [KeyState.increment]
  split
  · exact hq.updated hlisted
  · exact hq

/-- The transaction replaces its pending version. -/
theorem swap {v : Content} (hown : (x.lease.any fun l => l.leaseValue = token) = true → listed)
    (hlost : lost' ↔ lost ∨ (v.data ≠ [] ∧ (x.lease.any fun l => l.leaseValue = token) = true) ∧
      x.marker.isSome = true ∧ x.version = none ∧ x.value = none) :
    Working x₀ lost' (x.swap now exp token v) listed := by
  rw [KeyState.swap]
  split
  · next hyes =>
    refine ⟨h.value, ?_, fun hnone => ?_, fun hl => ?_, h.held,
      fun hnot => absurd (hown hyes.2) hnot, fun hnot => absurd (hown hyes.2) hnot⟩
    · dsimp only
      split
      · exact h.marker
      · exact .inr rfl
    · have hiff := h.kept hnone
      have hvalue : x.value = none := h.value.trans hnone
      dsimp only
      cases hversion : x.version with
      | some pv => simpa [hlost, hversion] using hiff
      | none =>
        cases hmarker : x.marker with
        | none => simpa [hlost, hversion, hmarker] using hiff
        | some m =>
          have hm : x₀.marker = some m := by
            rcases h.marker with heq | heq
            · rw [← heq, hmarker]
            · rw [hmarker] at heq
              cases heq
          simp [hlost, hyes, hversion, hmarker, hvalue, hm]
    · rcases hlost.mp hl with hl | ⟨-, -, -, hvalue⟩
      · exact h.absent hl
      · exact h.value.symm.trans hvalue
  · next hno =>
    refine h.congr ?_ Iff.rfl
    simp [hlost, hno]

end

end Working

/-- The value of a key and its indicator are what they were, and it has no new Q lease and no new
pending version. -/
structure KeyState.Restored (x₀ x : KeyState) : Prop where
  value : x.value = x₀.value
  indicator : x.indicator = x₀.indicator
  lease : ∀ l, x.lease = some l → l.hasQLease = true →
    ∃ l₀, x₀.lease = some l₀ ∧ l₀.lease = l.lease ∧ l₀.data = l.data
  version : x.version = none ∨ x.version = x₀.version

/-- What the release of the transaction makes of the key. -/
theorem Working.restored_iff {x₀ x x' : KeyState} {lost listed : Prop}
    (h : Working x₀ lost x listed) (hlisted : listed → x' = x.release) (hnot : ¬ listed → x' = x) :
    x₀.Restored x' ↔ ¬ lost := by
  have hkept : x'.value = x.value ∧ x'.marker = x.marker := by
    by_cases hl : listed
    · rw [hlisted hl, KeyState.release]
      split <;> exact ⟨rfl, rfl⟩
    · rw [hnot hl]
      exact ⟨rfl, rfl⟩
  have hdropped : listed → x'.lease = none ∧ x'.version = none := by
    intro hl
    obtain ⟨l, hlease, hkind⟩ := h.held hl
    have hq : l.hasQLease = true := by
      rcases hkind with hkind | hkind <;> rw [Content.hasQLease, hkind] <;> rfl
    have hany : x.lease.any Content.hasQLease = true := (any_eq_true _ _).mpr ⟨l, hlease, hq⟩
    rw [hlisted hl, KeyState.release, if_pos hany]
    exact ⟨rfl, rfl⟩
  have hvalue : x'.value = x₀.value := hkept.1.trans h.value
  constructor
  · intro hr hlost
    have hnone : x₀.value = none := h.absent hlost
    have hmarker := mt (h.kept hnone).mp (not_not.mpr hlost)
    have hind := hr.indicator
    -- the marker is gone, and there was one
    rw [KeyState.indicator, KeyState.indicator, hvalue, hnone, hkept.2] at hind
    rcases h.marker with heq | heq
    · exact hmarker heq
    · rw [heq] at hmarker hind
      cases hm : x₀.marker with
      | none => exact hmarker hm.symm
      | some m =>
        rw [hm] at hind
        cases hind
  · intro hlost
    refine ⟨hvalue, ?_, fun l hl hq => ?_, ?_⟩
    · cases hv : x₀.value with
      | some v => rw [KeyState.indicator, KeyState.indicator, hvalue, hv, elim_some, elim_some]
      | none =>
        rw [KeyState.indicator, KeyState.indicator, hvalue, hv, hkept.2, (h.kept hv).mpr hlost]
    · by_cases hl' : listed
      · rw [(hdropped hl').1] at hl
        cases hl
      · rw [hnot hl'] at hl
        exact h.lease hl' l hl hq
    · by_cases hl' : listed
      · exact .inl (hdropped hl').2
      · rw [hnot hl']
        exact h.version hl'

/-! ## The sequence -/

/-- The request reads, or it is one of the transaction `t`.  A swap does not name a transaction; it
is one of `t` if the lease whose token it presents is one that `t` lists. -/
def Request.isBy (t : Bytes) (s : Server) : Request → Bool
  | get .. | iqget .. => true
  | qaread _ _ _ _ tid | iqConcat _ _ _ _ tid => tid = t
  | swap _ _ k _ _ _ token =>
    (s.live (leaseKey k)).all fun l => l.leaseValue = token → k ∈ s.listed t
  | _ => false

theorem Request.isTurn_of_isBy (h : req.isBy t s = true) : req.isTurn = true := by
  cases req with
  | get | iqget | qaread | iqConcat | swap => rfl
  | _ => cases h

theorem Request.eq_of_isBy {u : Bytes} (h : req.isBy t s = true) (hu : u ∈ req.filers) : u = t := by
  cases req with
  | qaread | iqConcat => exact (mem_singleton.mp hu).trans (of_decide_eq_true h)
  | get | iqget | swap => cases hu
  | _ => cases h

/-- A step of a sequence in which `t` works and others only read, with enough memory, and in which
nothing expires. -/
structure Works (c : Settings) (t : Bytes) (m : Moment) : Prop extends Steady c m where
  request : ∀ req, m.label.request = some req → req.isBy t m.pre.server = true

/-- The test that a step of a request is one of such a sequence. -/
def works (c : Settings) (t : Bytes) (m : Moment) : Bool :=
  (m.label.request.any fun req => req.isBy t m.pre.server) && m.pre.server.heap = [] &&
    m.pre.server.now < m.pre.server.leaseExpiry c

theorem Works.of_test {c : Settings} {m : Moment} (h : works c t m = true) : Works c t m := by
  simp only [works, Bool.and_eq_true, decide_eq_true_eq] at h
  obtain ⟨⟨hby, hheap⟩, hlasts⟩ := h
  obtain ⟨req, hreq, hby⟩ := (any_eq_true _ _).mp hby
  refine ⟨⟨fun seconds htick => ?_, hheap, hlasts⟩, fun req' hreq' => ?_⟩
  · rw [htick] at hreq
    cases hreq
  · rw [hreq] at hreq'
    cases hreq'
    exact hby

def Event.isLine : Event → Bool
  | .line .. => true
  | _ => false

/-- The step is a swap that takes the pending marker of a key without a value and a pending
version. -/
def TakesMarker (k : Bytes) (m : Moment) : Prop :=
  ∃ conn cfg frag flags exptime vlen token p body,
    m.label = .body conn (.swap cfg frag k flags exptime vlen token) p body .stored ∧
    body.take vlen ≠ [] ∧ m.pre.server.live (pendingKey k) ≠ none ∧
    m.pre.server.live (versionKey k) = none ∧ m.pre.server.live k = none

section Sequence

variable {c : Settings} {N : Naming} {h : History} {k : Bytes} {m : Moment} {x₀ : KeyState}
  {lost : Prop}

theorem not_takesMarker_of_isLine (h : m.label.isLine = true) : ¬ TakesMarker k m := by
  rintro ⟨_, _, _, _, _, _, _, _, _, heq, -⟩
  rw [heq] at h
  cases h

theorem takesMarker_swap_iff {flags vlen : Nat} {cfg frag exptime : Int} {token : UInt64}
    {p : Pending} {body : Bytes} {r : Reply} :
    TakesMarker k ⟨w, .body conn (.swap cfg frag k flags exptime vlen token) p body r, w'⟩ ↔
      r = .stored ∧ body.take vlen ≠ [] ∧ w.server.live (pendingKey k) ≠ none ∧
        w.server.live (versionKey k) = none ∧ w.server.live k = none := by
  constructor
  · rintro ⟨_, _, _, _, _, _, _, _, _, ⟨⟩, hrest⟩
    exact ⟨rfl, hrest⟩
  · rintro ⟨rfl, hrest⟩
    exact ⟨_, _, _, _, _, _, _, _, _, rfl, hrest⟩

/-- One step, seen from one key. -/
theorem Working.step (hr : IqRun c N h m.pre) (hstep : World.Step c m.pre m.label m.post)
    (he : m.label.Iq N) (hw : Works c t m) (ht : N.isTid t) (hlen : t.length ≤ tidMaxLen)
    (hk : N.isKey k) (hI : Working x₀ lost (m.pre.server.keyState k) (k ∈ m.pre.server.listed t)) :
    Working x₀ (lost ∨ TakesMarker k m) (m.post.server.keyState k)
      (k ∈ m.post.server.listed t) := by
  have hkun : Unprefixed k := N.key_unprefixed hk
  have htun : Unprefixed t := N.tid_unprefixed ht
  have hfree : ¬ N.isKey t := fun hkey => N.disjoint hkey ht
  have hs := hr.calm hw.heap hw.lasts
  have htk : ∀ {key}, N.isKey key → t ∉ recordNames key := fun hkey =>
    not_mem_recordNames_of_free hkey htun hfree
  obtain ⟨⟨s, conns⟩, e, ⟨s', conns'⟩⟩ := m
  dsimp only at hr hstep he hw hI ⊢
  have hsame : (∀ n, s'.record n = s.record n) → ¬ TakesMarker k ⟨⟨s, conns⟩, e, ⟨s', conns'⟩⟩ →
      Working x₀ (lost ∨ TakesMarker k ⟨⟨s, conns⟩, e, ⟨s', conns'⟩⟩) (s'.keyState k)
        (k ∈ s'.listed t) := by
    intro hrec hnot
    rw [Server.keyState_congr fun n _ => hrec n, Server.listed_congr (hrec t)]
    exact hI.congr (by simp [hnot]) Iff.rfl
  -- a step on the records of one key
  have hsteps : ∀ {key g}, N.isKey key → s.Steps key g s' →
      (key ≠ k → ¬ TakesMarker k ⟨⟨s, conns⟩, e, ⟨s', conns'⟩⟩) →
      (key = k → Working x₀ (lost ∨ TakesMarker k ⟨⟨s, conns⟩, e, ⟨s', conns'⟩⟩) (g (s.keyState k))
        (k ∈ s.listed t)) →
      Working x₀ (lost ∨ TakesMarker k ⟨⟨s, conns⟩, e, ⟨s', conns'⟩⟩) (s'.keyState k)
        (k ∈ s'.listed t) := by
    intro key g hkey hsteps hnot hown
    rw [hsteps.listed (htk hkey)]
    by_cases hne : key = k
    · subst hne
      rw [hsteps.key]
      exact hown rfl
    · rw [hsteps.keyState_of_ne (N.key_unprefixed hkey) hkun (Ne.symm hne)]
      exact hI.congr (by simp [hnot hne]) Iff.rfl
  -- a step that grants a lease on one key
  have hfiles : ∀ {key g}, N.isKey key → s.Files c key t g s' →
      ¬ TakesMarker k ⟨⟨s, conns⟩, e, ⟨s', conns'⟩⟩ →
      (∀ {listed' : Prop}, key = k → listed' → Working x₀ lost (g (s.keyState k)) listed') →
      Working x₀ (lost ∨ TakesMarker k ⟨⟨s, conns⟩, e, ⟨s', conns'⟩⟩) (s'.keyState k)
        (k ∈ s'.listed t) := by
    intro key g hkey hfiles hnot hgrant
    have hmem : k ∈ s'.listed t ↔ k = key ∨ k ∈ s.listed t :=
      hfiles.mem_listed hs.lists htun hfree hs.lasts
    by_cases hne : key = k
    · subst hne
      rw [hfiles.key]
      exact (hgrant rfl (hmem.mpr (.inl rfl))).congr (by simp [hnot]) Iff.rfl
    · rw [hfiles.keyState_of_ne (N.key_unprefixed hkey) hkun (Ne.symm hne) (htk hk), propext hmem]
      exact hI.congr (by simp [hnot]) (by simp [Ne.symm hne])
  have hturn : ∀ req, e.request = some req → Turn c s e s' := by
    intro req hreq
    have hby := hw.request req hreq
    refine hstep.turn hr he hw.heap hw.lasts hreq (Request.isTurn_of_isBy hby) (fun u hu => ?_) ?_
    · obtain rfl := Request.eq_of_isBy hby hu
      exact ⟨hlen.trans_lt (by decide), htun, hfree⟩
    · rintro _ _ _ _ _ rfl
      cases hby
  have hsilent : e.request = none → ¬ TakesMarker k ⟨⟨s, conns⟩, e, ⟨s', conns'⟩⟩ := by
    rintro hreq ⟨_, _, _, _, _, _, _, _, _, heq, -⟩
    cases heq
    cases hreq
  cases e with
  | tick | memory | hangup => exact hsame (hw.record hstep rfl) (hsilent rfl)
  | line conn req out =>
    have hby : req.isBy t s = true := hw.request req rfl
    have hnot : ¬ TakesMarker k ⟨⟨s, conns⟩, .line conn req out, ⟨s', conns'⟩⟩ :=
      not_takesMarker_of_isLine rfl
    have hkeys := he.keys req rfl
    cases hturn req rfl with
    | refused _ h => exact hsame h.record hnot
    | wait h => exact hsame h.record hnot
    | get _ h => exact hsame h.record hnot
    | qareadFinds _ _ _ h => exact hsame h.record hnot
    | iqget _ h =>
      refine hsteps (hkeys _ (by simp [Request.keys])) h (fun _ => hnot) fun _ => ?_
      exact hI.iqget.congr (by simp [hnot]) Iff.rfl
    | qareadGrants _ _ h =>
      obtain rfl : _ = t := of_decide_eq_true hby
      refine hfiles (hkeys _ (by simp [Request.keys])) h hnot fun _ hlisted => ?_
      exact hI.quarantine (.inl rfl) hs.lasts hlisted
    | _ => cases hby
  | body conn req p body r =>
    have hby : req.isBy t s = true := hw.request req rfl
    have hkeys := he.keys req rfl
    have hnot : (∀ cfg frag flags exptime vlen token, req ≠ .swap cfg frag k flags exptime
      vlen token) →
        ¬ TakesMarker k ⟨⟨s, conns⟩, .body conn req p body r, ⟨s', conns'⟩⟩ := by
      rintro hne ⟨_, _, _, _, _, _, _, _, _, ⟨⟩, -⟩
      exact hne _ _ _ _ _ _ rfl
    cases hturn req rfl with
    | badBody h => exact hsame h.record (by rintro ⟨_, _, _, _, _, _, _, _, _, ⟨⟩, -⟩)
    | @swap _ flags vlen cfg frag exptime key token _ _ v _ _ hdata _ hstored h =>
      have hkey : N.isKey key := hkeys key (by simp [Request.keys])
      refine hsteps hkey h (fun hne => hnot ?_) ?_
      · rintro cfg' frag' flags' exptime' vlen' token' ⟨⟩
        exact hne rfl
      · rintro rfl
        refine hI.swap (fun hany => ?_) (or_congr_right ?_)
        · obtain ⟨x, hx, hvalue⟩ := (any_eq_true _ _).mp hany
          obtain ⟨l, hl, rfl⟩ := map_eq_some_iff.mp hx
          exact of_decide_eq_true ((all_eq_true _ _).mp hby l hl) (of_decide_eq_true hvalue)
        · rw [← hstored, hdata, takesMarker_swap_iff]
          simp [Server.keyState, View.keyState, isSome_iff_ne_none]
          tauto
    | iqConcat h =>
      obtain rfl : _ = t := of_decide_eq_true hby
      have hkey := hkeys _ (mem_singleton_self _)
      have hnot := hnot (by simp)
      cases h with
      | grants _ _ h =>
        exact hfiles hkey h hnot fun _ hlisted => hI.increment hs.lasts hlisted
      | owns _ _ hlisted _ _ h =>
        refine hsteps hkey h (fun _ => hnot) ?_
        rintro rfl
        exact (hI.updated hlisted).congr (by simp [hnot]) Iff.rfl
      | aborts _ _ _ _ h => exact hsame h.record hnot
    | _ => cases hby

/-- A run determines where it ends. -/
theorem IqRun.eq_of_run (hr : IqRun c N h w) (hr' : IqRun c N h w') : w = w' := by
  cases h with
  | nil =>
    obtain ⟨hr, -⟩ := hr
    obtain ⟨hr', -⟩ := hr'
    cases hr with
    | init hw =>
      cases hr' with
      | init hw' => exact hw.trans hw'.symm
  | cons m h =>
    obtain ⟨-, -, -, rfl⟩ := hr.of_cons
    obtain ⟨-, -, -, rfl⟩ := hr'.of_cons
    rfl

/-- A sequence of steps, seen from one key. -/
theorem IqRun.working (hr : IqRun c N h w₀) (hrun : IqRun c N (ms ++ h) w₁)
    (hw : ∀ m ∈ ms, Works c t m) (ht : N.isTid t) (hlen : t.length ≤ tidMaxLen)
    (hfresh : w₀.server.live t = none) (hk : N.isKey k) :
    Working (w₀.server.keyState k) (∃ m ∈ ms, TakesMarker k m) (w₁.server.keyState k)
      (k ∈ w₁.server.listed t) := by
  induction ms generalizing w₁ with
  | nil =>
    obtain rfl := hr.eq_of_run hrun
    exact .refl _ (by simp) (by simp [Server.listed, hfresh])
  | cons m ms ih =>
    obtain ⟨hr', hstep, he, rfl⟩ := hrun.of_cons
    have hbefore := ih hr' fun m' hm' => hw m' (mem_cons_of_mem _ hm')
    refine (Working.step hr' hstep he (hw m mem_cons_self) ht hlen hk hbefore).congr ?_ Iff.rfl
    rw [exists_mem_cons_iff, or_comm]

theorem TakesMarker.isKey (hrun : IqRun c N (ms ++ h) w) (hm : m ∈ ms) (htakes : TakesMarker k m) :
    N.isKey k := by
  obtain ⟨_, _, _, _, _, _, _, _, _, hlabel, -⟩ := htakes
  have he := hrun.iq m (mem_append_left _ hm)
  rw [hlabel] at he
  exact he.keys _ rfl k (by simp [Request.keys])

/-- Every key is what it was, and the transaction is gone. -/
def Restored (N : Naming) (t : Bytes) (s s' : Server) : Prop :=
  s'.live t = none ∧ ∀ k, N.isKey k → (s.keyState k).Restored (s'.keyState k)

/-- A transaction that works and gives up leaves every key as it was, exactly if no swap took a
marker. -/
theorem release_restores_iff {ms : History} {w₀ w₁ w₂ : World} {conn : Nat} {out : Outcome}
    (hr : IqRun c N h w₀) (ht : N.isTid t) (hlen : t.length ≤ tidMaxLen)
    (hfresh : w₀.server.live t = none) (hrun : IqRun c N (ms ++ h) w₁) (hw : ∀ m ∈ ms, Works c t m)
    (hheap : w₁.server.heap = []) (hstep : World.Step c w₁ (.line conn (.release t) out) w₂) :
    Restored N t w₀.server w₂.server ↔ ∀ m ∈ ms, ∀ k, ¬ TakesMarker k m := by
  have hend : Ended t (w₁.server.listed t) KeyState.release w₁.server w₂.server := by
    have hwlp : wlp (ascDispatch (.release t)) (fun _ s' =>
        Ended t (w₁.server.listed t) KeyState.release w₁.server s') c w₁.server := by
      rw [ascDispatch, ascProcessRelease, ascCheckLength, if_neg (Nat.not_lt.mpr hlen), wlp_bind]
      refine (ended_itemRelease hrun.listsKeys ht hheap hrun.registers.2).mono ?_
      rintro r s' ⟨_, h⟩
      cases r <;> exact .pure h
    exact hwlp _ _ hstep.of_line
  have hkeys : ∀ k ∈ w₁.server.listed t, Unprefixed k := fun k hk =>
    N.key_unprefixed (hrun.listsKeys.of_listed ht hk).1
  have hiff : ∀ k, N.isKey k → ((w₀.server.keyState k).Restored (w₂.server.keyState k) ↔
      ¬ ∃ m ∈ ms, TakesMarker k m) := fun k hk =>
    (hr.working hrun hw ht hlen hfresh hk).restored_iff (hend.keyState k) fun hnot =>
      hend.keyState_of_notMem hkeys (N.key_unprefixed hk) hnot
        (not_mem_recordNames_of_free hk (N.tid_unprefixed ht) fun hkey => N.disjoint hkey ht)
  constructor
  · rintro ⟨-, hrestored⟩ m hm k htakes
    have hk := htakes.isKey hrun hm
    exact (hiff k hk).mp (hrestored k hk) ⟨m, hm, htakes⟩
  · intro hnone
    refine ⟨hend.record, fun k hk => (hiff k hk).mpr ?_⟩
    rintro ⟨m, hm, htakes⟩
    exact hnone m hm k htakes

end Sequence

/-- A transaction reads a key, replaces its pending version and gives up. -/
theorem release_restores_iff_swap : ∃ (w₀ w₁ w₂ : World) (b : Moment) (p : Pending),
    (w₀.server.keyState [0x6b]).value.map Content.data = some [0x61] ∧
    b.label = .body 0 (.swap 0 (-1) [0x6b] 0 0 1 5) p [0x76, 0x0d, 0x0a] .stored ∧ b.post = w₁ ∧
    World.Step {} w₁ (.line 0 (.release [0x74]) (.reply .ok)) w₂ ∧
    Restored commitNaming [0x74] w₀.server w₂.server := by
  obtain ⟨_, l, b, r, w, hr, q, hq, hworks, hheap, hlabel, hfresh, hvalue, hswap, hlive,
    hl, hline⟩ :=
    (playable_iq : Playable {} (IqRun {} commitNaming) _).exists_run₃
      [.line 0 (.update .set 0 (-1) [0x6b] 0 0 1), .body 0 [0x61, 0x0d, 0x0a],
        .line 0 (.qaread 0 [0x6b] 1 0 [0x74]), .line 0 (.swap 0 (-1) [0x6b] 0 0 1 5),
        .body 0 [0x76, 0x0d, 0x0a], .line 0 (.release [0x74])]
      (P := fun h l b r _ => ∃ q, h.head? = some q ∧ (∀ m ∈ [b, l, q], works {} [0x74] m) ∧
        r.pre.server.heap = [] ∧
        r.label = .line 0 (.release [0x74]) (.reply .ok) ∧ q.pre.server.live [0x74] = none ∧
        (q.pre.server.keyState [0x6b]).value.map Content.data = some [0x61] ∧
        b.label.swaps (.swap 0 (-1) [0x6b] 0 0 1 5) [0x76, 0x0d, 0x0a] ∧
        b.pre.server.live [0x6b] ≠ none ∧ l.label.isLine ∧ q.label.isLine) (by decide +kernel)
  obtain ⟨older, rfl⟩ := List.head?_eq_some_iff.mp hq
  obtain ⟨p, hswap⟩ := Event.swaps_eq hswap
  obtain ⟨hr₁, hstep, -, -⟩ : IqRun {} commitNaming ([b, l, q] ++ older) r.pre ∧ _ := hr.of_cons
  obtain ⟨hr₂, -, -, hb⟩ := hr₁.of_cons
  obtain ⟨hr₃, -, -, -⟩ := hr₂.of_cons
  obtain ⟨hr₀, -, -, -⟩ := hr₃.of_cons
  rw [hlabel] at hstep
  refine ⟨q.pre, r.pre, r.post, b, p, hvalue, hswap, hb.symm, hstep, ?_⟩
  refine (release_restores_iff hr₀ mem_cons_self (by decide) hfresh hr₁ (fun m hm =>
    .of_test (hworks m hm)) hheap hstep).mpr fun m hm k => ?_
  simp only [mem_cons, not_mem_nil, or_false] at hm
  rcases hm with rfl | rfl | rfl
  · rintro ⟨_, _, _, _, _, _, _, _, _, heq, -, -, -, hnone⟩
    rw [hswap] at heq
    cases heq
    exact hlive hnone
  · exact not_takesMarker_of_isLine hl
  · exact not_takesMarker_of_isLine hline

/-- A commit has left a marker.  A transaction swaps the key and gives up, and the indicator is
gone. -/
theorem release_loses_indicator : ∃ (h : History) (w₀ w₁ w₂ : World) (q l b : Moment) (p : Pending),
    IqRun {} pairNaming h w₀ ∧ w₀.server.live [0x74] = none ∧
    (w₀.server.keyState [0x6b]).indicator = 1 ∧
    IqRun {} pairNaming ([b, l, q] ++ h) w₁ ∧ (∀ m ∈ [b, l, q], Works {} [0x74] m) ∧
    b.label = .body 0 (.swap 0 (-1) [0x6b] 0 0 1 5) p [0x76, 0x0d, 0x0a] .stored ∧
    World.Step {} w₁ (.line 0 (.release [0x74]) (.reply .ok)) w₂ ∧
    (w₂.server.keyState [0x6b]).indicator = 0 := by
  obtain ⟨_, l, b, r, w, hr, q, hq, hworks, hlabel, hfresh, hswap, hone, hzero⟩ :=
    (playable_iq : Playable {} (IqRun {} pairNaming) _).exists_run₃
      [.line 0 (.qareg 0 [0x6b] [0x75]), .line 0 (.commit 0 (-1) [0x75] 1),
        .line 0 (.qaread 0 [0x6b] 1 0 [0x74]), .line 0 (.swap 0 (-1) [0x6b] 0 0 1 5),
        .body 0 [0x76, 0x0d, 0x0a], .line 0 (.release [0x74])]
      (P := fun h l b r _ => ∃ q, h.head? = some q ∧ (∀ m ∈ [b, l, q], works {} [0x74] m) ∧
        r.label = .line 0 (.release [0x74]) (.reply .ok) ∧ q.pre.server.live [0x74] = none ∧
        b.label.swaps (.swap 0 (-1) [0x6b] 0 0 1 5) [0x76, 0x0d, 0x0a] ∧
        (q.pre.server.keyState [0x6b]).indicator = 1 ∧
        (r.post.server.keyState [0x6b]).indicator = 0)
      (by decide +kernel)
  obtain ⟨older, rfl⟩ := List.head?_eq_some_iff.mp hq
  obtain ⟨p, hswap⟩ := Event.swaps_eq hswap
  obtain ⟨hr₁, hstep, -, -⟩ := hr.of_cons
  obtain ⟨hr₂, -, -, -⟩ := hr₁.of_cons
  obtain ⟨hr₃, -, -, -⟩ := hr₂.of_cons
  obtain ⟨hr₀, -, -, -⟩ := hr₃.of_cons
  rw [hlabel] at hstep
  exact ⟨older, q.pre, r.pre, r.post, q, l, b, p, hr₀, hfresh, hone, hr₁,
    fun m hm => .of_test (hworks m hm), hswap, hstep, hzero⟩

end Rejig
