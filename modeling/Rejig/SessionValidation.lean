import Rejig.SessionAbort
import Rejig.SessionLoss

/-!
# What a validation says of the past

A session should pass its validation only if it has held every key it worked on since it first did.
The validation looks at the present: each key in the list of the session is to list the session.  A
key whose lease is gone altogether is passed over, which is how a lease that was lost goes
unnoticed.  And a session that lost a key may take it again.

`since u k h` is what happened from the first time that the session `u` worked on the key `k`, if it
was not told that it has ended.  `Moment.noticed` are the steps in which a loss is noticed.
-/

namespace Rejig

open Prog Session List Function State Finset

variable {key : Bytes} {sids : Finset Bytes}

namespace Session

/-- The key that an operation works on. -/
def Op.on : Op → Option Bytes
  | ciget key _ | oqread key | oqDelta _ key _ | oqConcat _ key _ | oqreg key => some key
  | oqswap it | oqwrite it => some it.key
  | _ => none

theorem Op.on_of_claims {op : Op} (h : op.claims = some key) : op.on = some key := by
  cases op <;> first | exact h | cases h

theorem Op.on_of_updates {op : Op} (h : op.updates = some key) : op.on = some key :=
  on_of_claims (claims_of_updates h)

section Steps

variable {spared : Bytes → Bool} {a a' : State} {c : Cell} {sid u k : Bytes} {op : Op}
  {r : CoResult}

/-! ## Who holds a key -/

theorem Cell.Lists.of_leave (h : (c.leave sids).Lists u) : c.Lists u := by
  obtain ⟨hold, hhold, hu⟩ := h
  obtain ⟨hold', hc, rfl, -⟩ := Cell.hold_leave hhold
  exact ⟨hold', hc, (mem_sdiff.mp hu).1⟩

theorem Cell.Lists.of_expel (h : (c.expel sids).Lists u) : c.Lists u := by
  obtain ⟨hold, hhold, hu⟩ := h
  obtain ⟨hold', hc, rfl⟩ := Cell.hold_expel hhold
  exact ⟨hold', hc, (mem_sdiff.mp hu).1⟩

theorem Cell.Lists.congr {c' : Cell} (h : c'.Lists u) (hc : c'.hold = c.hold) : c.Lists u := by
  obtain ⟨hold, hhold, hu⟩ := h
  exact ⟨hold, hc.symm.trans hhold, hu⟩

theorem Cell.Lists.eq_of_hold {kind : Kind} (h : c.Lists u) (hc : c.hold = some ⟨kind, {sid}⟩) :
    u = sid := by
  obtain ⟨hold, hhold, hu⟩ := h
  rw [hc] at hhold
  cases hhold
  exact Finset.mem_singleton.mp hu

theorem State.lists_of_clean (h : ((a.clean sid).cell k).Lists u) : (a.cell k).Lists u := by
  rw [State.clean] at h
  dsimp only at h
  split at h
  · exact (Cell.Lists.congr (c := (a.cell k).leave {sid}) h rfl).of_leave
  · exact h

theorem State.lists_of_vacate (h : ((a.vacate spared key).cell k).Lists u) (hne : k ≠ key) :
    (a.cell k).Lists u := by
  rw [cell_vacate_of_ne hne] at h
  exact h.of_expel

/-- Who holds a key after one key has changed. -/
theorem State.lists_of_setCell {P : Prop} (h : ((a.setCell key c).cell k).Lists u)
    (hself : k = key → c.Lists u → P) (hother : k ≠ key → (a.cell k).Lists u → P) : P := by
  rcases eq_or_ne k key with rfl | hne
  · rw [cell_setCell_self] at h
    exact hself rfl h
  · rw [cell_setCell_of_ne hne] at h
    exact hother hne h

/-- A session comes to hold a key by its own operation on it, and not while another session may
write it. -/
theorem Step.lists (hstep : Step spared a sid op r a') (h : (a'.cell k).Lists u) :
    (a.cell k).Lists u ∨
    u = sid ∧ op.on = some k ∧ ∀ hold, (a.cell k).hold = some hold → hold.kind = .shared := by
  cases hstep with
  | forget | unknown | ownRead | leased | quarantined | unheld | blocked | valid => exact .inl h
  | foreign | outdated | unlease => exact .inl (lists_of_clean h)
  | @share key leaseToken c' _ hhold _ hc =>
    refine lists_of_setCell h ?_ fun _ hk => .inl hk
    rintro rfl ⟨hold, hhold', hu⟩
    rw [hc] at hhold'
    cases hhold'
    rcases mem_insert.mp hu with rfl | hu
    · exact .inr ⟨rfl, rfl, hhold⟩
    · cases hold : (a.cell k).hold with
      | none =>
        rw [hold] at hu
        cases hu
      | some old =>
        rw [hold] at hu
        exact .inl ⟨old, hold, hu⟩
  | occupied =>
    refine lists_of_setCell h ?_ fun hne hk => .inl (lists_of_vacate hk hne)
    rintro - ⟨_, hnone, -⟩
    cases hnone
  | robbed =>
    refine lists_of_setCell h ?_ fun _ hk => .inl hk
    rintro - ⟨_, hnone, -⟩
    cases hnone
  | grant _ hhold _ hc =>
    refine lists_of_setCell h ?_ fun hne hk => .inl (lists_of_vacate hk hne)
    rintro rfl hself
    exact .inr ⟨hself.eq_of_hold hc, rfl, hhold⟩
  | write _ hhold =>
    refine lists_of_setCell h ?_ fun hne hk => .inl (lists_of_vacate hk hne)
    rintro rfl hself
    exact .inr ⟨hself.eq_of_hold rfl, rfl, hhold⟩
  | update _ hop hhold hc =>
    refine lists_of_setCell h ?_ fun hne hk => .inl (lists_of_vacate hk hne)
    rintro rfl hself
    exact .inr ⟨hself.eq_of_hold hc.hold, Op.on_of_updates hop, hhold⟩
  | register _ hhold =>
    refine lists_of_setCell h ?_ fun hne hk => .inl (lists_of_vacate hk hne)
    rintro rfl hself
    exact .inr ⟨hself.eq_of_hold rfl, rfl, hhold⟩
  | emptied | swap | rewrite | reregister =>
    refine lists_of_setCell h ?_ fun _ hk => .inl hk
    rintro rfl hself
    exact .inl (hself.congr rfl)
  | amend _ _ _ _ _ hc =>
    refine lists_of_setCell h ?_ fun _ hk => .inl hk
    rintro rfl hself
    exact .inl (hself.congr hc.hold)
  | @commit q a' _ _ _ hin hout =>
    by_cases hk : k ∈ q.keys
    · exact .inl (Cell.Lists.of_leave (h.congr (hin k hk).hold))
    · rw [hout k hk] at h
      exact .inl h

/-! ## The lists of sessions -/

/-- How a session may be answered without its list being looked after: it holds the key, or has it
in its list, or presents the token of the I lease. -/
def Op.Answered (op : Op) (a : State) (sid k : Bytes) : Prop :=
  (a.cell k).Lists sid ∨ k ∈ a.keys sid ∨
    ∃ leaseToken l, op = .ciget k leaseToken ∧ (a.cell k).lease = some l ∧ l.hasILease = true ∧
    l.leaseValue = leaseToken

/-- What a step does to the lists of sessions. -/
inductive Step.Lists (spared : Bytes → Bool) (a : State) (sid : Bytes) (op : Op) (r : CoResult)
    (a' : State) : Prop
  | same (hsess : a'.sess = a.sess) (hmarked : r ≠ .abort → a.marked sid = false)
      (hok : r = .ok → ∀ k, op.on = some k → op.Answered a sid k)
  | ended (hsess : a'.sess = (a.drop sid).sess) (hr : r = .abort ∨ op.ends r = true)
      (hmarked : r ≠ .abort → a.marked sid = false)
  | entered {key : Bytes} (hon : op.on = some key) (hmarked : a.marked sid = false)
      (hsess : a'.sess = (a.enter sid key).sess)
  | claimed {key : Bytes} (hon : op.on = some key) (hmarked : a.marked sid = false)
      (hsess : a'.sess = ((a.vacate spared key).enter sid key).sess)
  | refused {key : Bytes} (hsess : a'.sess = (a.vacate spared key).sess) (hr : r = .abort)

theorem State.not_marked {q : Sess} (hsess : a.sess sid = some q) (halive : q.aborted = false) :
    a.marked sid = false := by
  rw [marked, hsess, Option.any_some, halive]

theorem Step.sess_cases (hstep : Step spared a sid op r a') : Step.Lists spared a sid op r a' := by
  cases hstep with
  | forget => exact .ended rfl (.inl rfl) fun h => absurd rfl h
  | unknown hop hsess =>
    refine .same rfl (fun _ => ?_) fun _ k hon => ?_
    · rw [State.marked, hsess]
      rfl
    · cases op with
      | validate | dcommit | coUnlease => cases hon
      | _ => cases hop
  | foreign | outdated => exact .ended rfl (.inl rfl) fun h => absurd rfl h
  | @ownRead _ key hold hmarked hop hhold _ hsid =>
    refine .same rfl (fun _ => hmarked) fun _ k hon => ?_
    obtain rfl : key = k := by
      rcases hop with rfl | ⟨_, rfl⟩ <;> exact Option.some.inj hon
    exact .inl ⟨hold, hhold, hsid⟩
  | leased hmarked _ hlease hi =>
    refine .same rfl (fun _ => hmarked) fun hr k hon => ?_
    cases hon
    split at hr
    · next htoken => exact .inr (.inr ⟨_, _, rfl, hlease, hi, htoken⟩)
    · cases hr
  | quarantined hmarked _ _ _ hr =>
    refine .same rfl (fun _ => hmarked) fun hok k hon => ?_
    cases hon
    rcases hr with rfl | ⟨-, hk⟩
    · cases hok
    · exact .inr (.inl hk)
  | share hmarked => exact .entered rfl hmarked rfl
  | occupied => exact .refused rfl rfl
  | grant hmarked => exact .claimed rfl hmarked rfl
  | unheld hmarked hr =>
    refine .same rfl (fun _ => hmarked) fun hok => ?_
    rcases hr with ⟨-, rfl⟩ | ⟨-, -, rfl⟩ <;> cases hok
  | robbed hmarked => exact .same rfl (fun _ => hmarked) (by simp)
  | emptied hmarked => exact .same rfl (fun _ => hmarked) (by simp)
  | swap hmarked hhold _ hsid =>
    refine .same rfl (fun _ => hmarked) fun _ k hon => ?_
    cases hon
    exact .inl ⟨_, hhold, hsid⟩
  | write hmarked => exact .claimed rfl hmarked rfl
  | blocked hmarked => exact .same rfl (fun _ => hmarked) (by simp)
  | rewrite hmarked => exact .entered rfl hmarked rfl
  | update hmarked hop => exact .claimed (Op.on_of_updates hop) hmarked rfl
  | amend hmarked hop => exact .entered (Op.on_of_updates hop) hmarked rfl
  | register hmarked => exact .claimed rfl hmarked rfl
  | reregister hmarked => exact .entered rfl hmarked rfl
  | valid hsess halive => exact .same rfl (fun _ => not_marked hsess halive) (by rintro _ _ ⟨⟩)
  | commit hsess halive hs => exact .ended hs (.inr rfl) fun _ => not_marked hsess halive
  | unlease hsess halive => exact .ended rfl (.inr rfl) fun _ => not_marked hsess halive

theorem State.not_mem_victims (hself : spared u = true) : u ∉ a.victims spared key := by
  rw [victims]
  cases (a.cell key).hold <;> simp [hself]

/-- A session that is answered otherwise than by an abort has not been aborted. -/
theorem Step.not_marked (hstep : Step spared a sid op r a') (hr : r ≠ .abort) :
    a.marked sid = false := by
  cases hstep.sess_cases with
  | same _ hmarked => exact hmarked hr
  | ended _ _ hmarked => exact hmarked hr
  | entered _ hmarked => exact hmarked
  | claimed _ hmarked => exact hmarked
  | refused _ habort => exact absurd habort hr

/-- A session that goes on keeps its list. -/
theorem Step.works_self (hstep : Step spared a sid op r a') (hself : spared sid = true)
    (hr : r ≠ .abort) (hends : op.ends r = false) (h : a.Works sid k) : a'.Works sid k := by
  cases hstep.sess_cases with
  | same hsess => exact h.congr (congrFun hsess sid)
  | ended _ hend =>
    rcases hend with habort | hend
    · exact absurd habort hr
    · rw [hends] at hend
      cases hend
  | entered _ _ hsess => exact h.enter.congr (congrFun hsess sid)
  | claimed _ _ hsess => exact (h.vacate (not_mem_victims hself)).enter.congr (congrFun hsess sid)
  | refused _ habort => exact absurd habort hr

/-- Readers are marked, or nothing happens to them. -/
theorem State.Works.vacate_or (h : a.Works u k) (key : Bytes) :
    (a.vacate spared key).Works u k ∨ (a.vacate spared key).marked u = true := by
  by_cases hu : u ∈ a.victims spared key
  · right
    obtain ⟨q, hq, -⟩ := h
    have hsess : (a.vacate spared key).sess u = (a.sess u).map fun q =>
      { q with aborted := true } := if_pos hu
    rw [State.marked, hsess, hq]
    rfl
  · exact .inl (h.vacate hu)

theorem State.marked_vacate_of_marked (h : a.marked u = true) (key : Bytes) :
    (a.vacate spared key).marked u = true := by
  by_cases hu : u ∈ a.victims spared key
  · have hsess : (a.vacate spared key).sess u = (a.sess u).map fun q =>
      { q with aborted := true } := if_pos hu
    rw [State.marked] at h ⊢
    obtain ⟨q, hq, -⟩ := (Option.any_eq_true _ _).mp h
    rw [hsess, hq]
    rfl
  · rwa [State.marked, sess_vacate_of_notMem hu]

theorem State.marked_congr (h : a'.sess u = a.sess u) : a'.marked u = a.marked u := by
  rw [marked, marked, h]

section

variable (hstep : Step spared a sid op r a')

include hstep

/-- Another session keeps its list, or is aborted. -/
theorem Step.works_other (hne : u ≠ sid) (h : a.Works u k) : a'.Works u k ∨ a'.marked u = true := by
  cases hstep.sess_cases with
  | same hsess => exact .inl (h.congr (congrFun hsess u))
  | ended hsess => exact .inl ((h.drop hne).congr (congrFun hsess u))
  | entered _ _ hsess => exact .inl (h.enter.congr (congrFun hsess u))
  | claimed _ _ hsess =>
    refine (h.vacate_or _).imp (fun hw => hw.enter.congr (congrFun hsess u)) fun hm => ?_
    rw [marked_congr (congrFun hsess u), ← hm]
    exact marked_congr (update_of_ne hne ..)
  | refused hsess =>
    refine (h.vacate_or _).imp (fun hw => hw.congr (congrFun hsess u)) fun hm => ?_
    rw [marked_congr (congrFun hsess u), ← hm]

/-- Another session that has been aborted stays so. -/
theorem Step.marked_other (hne : u ≠ sid) (h : a.marked u = true) : a'.marked u = true := by
  have hupdate : ∀ {a : State} {q : Option Sess}, (Function.update a.sess sid q) u = a.sess u :=
    Function.update_of_ne hne ..
  cases hstep.sess_cases with
  | same hsess => rwa [State.marked_congr (congrFun hsess u)]
  | ended hsess => rwa [State.marked_congr ((congrFun hsess u).trans hupdate)]
  | entered _ _ hsess => rwa [State.marked_congr ((congrFun hsess u).trans hupdate)]
  | claimed _ _ hsess =>
    rw [State.marked_congr ((congrFun hsess u).trans hupdate)]
    exact State.marked_vacate_of_marked h _
  | refused hsess =>
    rw [State.marked_congr (congrFun hsess u)]
    exact State.marked_vacate_of_marked h _

/-- A session that worked on a key with success has it in its list. -/
theorem Step.works_of_ok (hatt : a.Attended) (hon : op.on = some k) (hr : r = .ok)
    (hends : op.ends r = false) (htoken : ∀ leaseToken l, op = .ciget k leaseToken →
      (a.cell k).lease = some l → l.hasILease = true →
      l.leaseValue = leaseToken → k ∈ a.keys sid) : a'.Works sid k := by
  have hne : r ≠ .abort := by
    rw [hr]
    exact fun h => nomatch h
  cases hstep.sess_cases with
  | same hsess hmarked hok =>
    rcases hok hr k hon with ⟨hold, hhold, hu⟩ | hk | ⟨leaseToken, l, hop, hlease, hi, hvalue⟩
    · exact (hatt k hold hhold sid hu).congr (congrFun hsess sid)
    · exact (State.Works.of_mem (hmarked hne) hk).congr (congrFun hsess sid)
    · exact (State.Works.of_mem (hmarked hne) (htoken leaseToken l hop hlease hi hvalue)).congr
        (congrFun hsess sid)
  | ended _ hend =>
    rcases hend with habort | hend
    · exact absurd habort hne
    · rw [hends] at hend
      cases hend
  | entered hon' _ hsess =>
    obtain rfl := Option.some.inj (hon.symm.trans hon')
    exact State.Works.entered.congr (congrFun hsess sid)
  | claimed hon' _ hsess =>
    obtain rfl := Option.some.inj (hon.symm.trans hon')
    exact State.Works.entered.congr (congrFun hsess sid)
  | refused _ habort => exact absurd habort hne

end

/-- A session that passes its validation is among the holders of its keys, as far as they are
held. -/
theorem Step.mem_holders_of_valid {hold : Hold} (hstep : Step spared a sid .validate .ok a')
    (hk : k ∈ a.keys sid) (hhold : (a.cell k).hold = some hold) : sid ∈ hold.holders := by
  cases hstep with
  | unknown hop => cases hop
  | ownRead _ hop => rcases hop with hop | ⟨_, hop⟩ <;> cases hop
  | update _ hop => cases hop
  | amend _ hop => cases hop
  | valid hsess _ hkeys =>
    rw [State.keys, hsess] at hk
    exact hkeys k hk hold hhold

end Steps

end Session

/-! ## Since a session first worked on a key -/

/-- The losses of a session are noticed in an operation: it does not validate while a key of its
list is not held at all, works again on a key only if it still holds it or another session may write
it, and does not read by a token a key that it has not in its list. -/
def Session.Op.noticed (s : Server) (sid : Bytes) (op : Op) : Bool :=
  (match op with
    | .validate => (s.entries sid).all fun k => (s.live (coLeaseKey k)).isSome
    | .ciget k leaseToken =>
      !(s.lease k).any (fun l => l.hasILease && l.leaseValue = leaseToken) || k ∈ s.entries sid
    | _ => true) &&
  op.on.all fun k => k ∉ s.entries sid || sid ∈ s.holders k || s.exclusive k

namespace Moment

/-- A session is told that it has ended. -/
def ends (u : Bytes) (m : Moment) : Bool := m.label.call.any fun (sid, op, r) =>
      sid = u && (r = .abort || op.ends r)

/-- A session works on a key with success. -/
def worksOn (u k : Bytes) (m : Moment) : Bool := m.label.call.any fun (sid, op, r) =>
      sid = u && op.on = some k && r = .ok

/-- The losses of sessions are noticed in a step. -/
def noticed (m : Moment) : Bool := m.label.call.all fun (sid, op, _) => op.noticed m.pre.server sid

end Moment

/-- What happened since a session, which has not ended, first worked on a key; the latest first. -/
def since (u k : Bytes) : History → Option History
  | [] => none
  | m :: h =>
    if m.ends u then none
    else
      match since u k h with
      | some l => some (m :: l)
      | none => if m.worksOn u k then some [m] else none

/-- A session has held the keys it worked on since it first did. -/
def HeldSince (u : Bytes) (h : History) : Prop :=
  ∀ k l, since u k h = some l → ∀ m ∈ l, u ∈ m.post.server.holders k

section Runs

variable {c : Settings} {N : Naming} {h l : History} {w w' : World} {e : Event} {a a' : State}
  {u k sid : Bytes} {op : Op} {r : CoResult}

theorem Session.Op.Named.on (hop : op.Named N) (h : op.on = some k) : N.Key k := by
  cases op <;> cases h <;> exact hop

/-- A session has held a key all along, or does not hold it now. -/
def Followed (l : History) (u k : Bytes) (s : Server) : Prop :=
  (∀ m ∈ l, u ∈ m.post.server.holders k) ∨ u ∉ s.holders k

/-- It goes on like this as long as the session does not take the key again. -/
theorem Followed.extend (h : Followed l u k w.server)
    (hagain : u ∈ w'.server.holders k → u ∈ w.server.holders k) :
    Followed (⟨w, e, w'⟩ :: l) u k w'.server := by
  by_cases hu : u ∈ w'.server.holders k
  · refine .inl (forall_mem_cons.mpr ⟨hu, ?_⟩)
    exact h.resolve_right (not_not.mpr (hagain hu))
  · exact .inr hu

/-- What is known of a session that worked on a key. -/
structure Follows (N : Naming) (l : History) (u k : Bytes) (s : Server) (a : State) : Prop where
  sid : N.Sid u
  key : N.Key k
  works : a.marked u = true ∨ a.Works u k ∧ Followed l u k s

/-- The session takes no key again in a step in which its losses are noticed. -/
theorem holders_of_step (hs : Serving c N w.server a) (hs' : Serving c N w'.server a')
    (hsid : N.Sid sid) (hstep : Step (w.server.spared sid op.key) a sid op r a')
    (hnot : op.noticed w.server sid = true) (hkey : N.Key k) (hworks : a.Works sid k)
    (hu : sid ∈ w'.server.holders k) : sid ∈ w.server.holders k := by
  rw [hs.mem_holders hkey]
  rcases hstep.lists ((hs'.mem_holders hkey).mp hu) with hlists | ⟨-, hon, hshared⟩
  · exact hlists
  · have hentry : k ∈ w.server.entries sid := (hs.mem_entries hsid).mpr hworks.mem_keys
    have hall := (Bool.and_eq_true _ _ ▸ hnot).2
    rw [hon, Option.all_some] at hall
    simp only [Bool.or_eq_true, decide_eq_true_eq, hentry, not_true_eq_false, false_or] at hall
    rcases hall with hmem | hexclusive
    · exact (hs.mem_holders hkey).mp hmem
    · have hsome : (w.server.live (coLeaseKey k)).isSome = true := by
        obtain ⟨it, hit, -⟩ := (Option.any_eq_true _ _).mp hexclusive
        rw [hit]
        rfl
      obtain ⟨hold, hhold, hkind⟩ := hs.exists_hold hkey hsome
      exact absurd (hshared hold hhold) (hkind hexclusive)

theorem Server.spared_self (s : Server) (sid key : Bytes) : s.spared sid key sid = true := by
  rw [Server.spared, decide_eq_true rfl, Bool.true_or]

/-- One operation, for a session that worked on a key before or does so now. -/
theorem Follows.step (hs : Serving c N w.server a) (hatt : a.Attended)
    (hold : ∀ u k l, since u k h = some l → Follows N l u k w.server a)
    (hs' : Serving c N w'.server a') (hsid : N.Sid sid) (hop : op.Named N)
    (hstep : Step (w.server.spared sid op.key) a sid op r a') (hcall : e.call = some (sid, op, r))
    (hnot : op.noticed w.server sid = true) (hl : since u k (⟨w, e, w'⟩ :: h) = some l) :
    Follows N l u k w'.server a' := by
  have hends : Moment.ends u ⟨w, e, w'⟩ = (decide (sid = u) &&
    (decide (r = .abort) || op.ends r)) := by
    rw [Moment.ends, hcall, Option.any_some]
  have hworks : Moment.worksOn u k ⟨w, e, w'⟩ = (decide (sid = u) && decide (op.on = some k) &&
    decide (r = .ok)) := by
    rw [Moment.worksOn, hcall, Option.any_some]
  rw [since, hends, hworks] at hl
  split at hl
  · cases hl
  next hgoes =>
  rcases eq_or_ne u sid with rfl | hne
  · -- the session itself
    simp only [decide_true, Bool.true_and, Bool.or_eq_true, decide_eq_true_eq, not_or,
      Bool.not_eq_true] at hgoes
    obtain ⟨hr, hopends⟩ := hgoes
    split at hl
    · next l₀ hl₀ =>
      cases hl
      obtain ⟨-, hkey, hworks⟩ := hold u k l₀ hl₀
      rw [hstep.not_marked hr] at hworks
      obtain ⟨hworks, hfollowed⟩ := hworks.resolve_left Bool.false_ne_true
      refine ⟨hsid, hkey, .inr ⟨hstep.works_self (Server.spared_self ..) hr hopends hworks,
        hfollowed.extend fun hu => ?_⟩⟩
      exact holders_of_step hs hs' hsid hstep hnot hkey hworks hu
    · split at hl
      · next hok =>
        cases hl
        simp only [decide_true, Bool.true_and, Bool.and_eq_true, decide_eq_true_eq] at hok
        have hkey := hop.on hok.1
        refine ⟨hsid, hkey, .inr ⟨hstep.works_of_ok hatt hok.1 hok.2 hopends fun leaseToken l hciget
          hlease hi hvalue => ?_, ?_⟩⟩
        · subst hciget
          have htoken := (Bool.and_eq_true _ _ ▸ hnot).1
          dsimp only at htoken
          rw [hs.lease hkey, hlease] at htoken
          simp only [Option.any_some, hi, hvalue, decide_true, Bool.and_self, Bool.not_true,
            Bool.false_or, decide_eq_true_eq] at htoken
          exact (hs.mem_entries hsid).mp htoken
        · by_cases hu : u ∈ w'.server.holders k
          · exact .inl (List.forall_mem_singleton.mpr hu)
          · exact .inr hu
      · cases hl
  · -- another session
    rw [decide_eq_false hne.symm, Bool.false_and, Bool.false_and, if_neg Bool.false_ne_true] at hl
    split at hl
    · next l₀ hl₀ =>
      cases hl
      obtain ⟨hu, hkey, hworks⟩ := hold u k l₀ hl₀
      refine ⟨hu, hkey, ?_⟩
      rcases hworks with hmarked | ⟨hworks, hfollowed⟩
      · exact .inl (hstep.marked_other hne hmarked)
      · rcases hstep.works_other hne hworks with hworks | hmarked
        · refine .inr ⟨hworks, hfollowed.extend fun hu => (hs.mem_holders hkey).mpr ?_⟩
          exact (hstep.lists ((hs'.mem_holders hkey).mp hu)).resolve_right fun hself => hne hself.1
        · exact .inl hmarked
    · cases hl

/-- A step in which keys are lost. -/
theorem Follows.shed (hs : Serving c N w.server a)
    (hold : ∀ u k l, since u k h = some l → Follows N l u k w.server a)
    (hs' : Serving c N w'.server a') (hsheds : a.Sheds a') (hcall : e.call = none)
    (hl : since u k (⟨w, e, w'⟩ :: h) = some l) : Follows N l u k w'.server a' := by
  have hends : Moment.ends u ⟨w, e, w'⟩ = false := by
    rw [Moment.ends, hcall, Option.any_none]
  have hworks : Moment.worksOn u k ⟨w, e, w'⟩ = false := by
    rw [Moment.worksOn, hcall, Option.any_none]
  rw [since, hends, hworks, if_neg Bool.false_ne_true, if_neg Bool.false_ne_true] at hl
  split at hl
  · next l₀ hl₀ =>
    cases hl
    obtain ⟨hu, hkey, hworks⟩ := hold u k l₀ hl₀
    refine ⟨hu, hkey, hworks.imp (fun hmarked => ?_) fun ⟨hworks, hfollowed⟩ => ?_⟩
    · rwa [State.marked_congr (congrFun hsheds.sess u)]
    · refine ⟨hworks.congr (congrFun hsheds.sess u), hfollowed.extend fun hu =>
        (hs.mem_holders hkey).mpr ?_⟩
      obtain ⟨hold, hhold, hmem⟩ := (hs'.mem_holders hkey).mp hu
      rcases hsheds.hold k with hsame | hnone
      · exact ⟨hold, hsame.symm.trans hhold, hmem⟩
      · rw [hnone] at hhold
        cases hhold
  · cases hl

/-- In a run in which losses are noticed and no session expires, whoever worked on a key has held it
all along or does not hold it now. -/
theorem CoDeleteRun.follows (hc : c.Relative) (hr : CoDeleteRun c N h w)
    (hnot : ∀ m ∈ h, m.noticed = true) (hlast : ∀ m ∈ h, Moment.Outlasted N m) :
    ∃ a, Serving c N w.server a ∧ a.Attended ∧ ∀ u k l, since u k h = some l →
    Follows N l u k w.server a := by
  obtain ⟨hrun, hco⟩ := hr
  induction hrun with
  | init hinit =>
    cases hinit
    exact ⟨.empty, serving_start hc, nofun, nofun⟩
  | @step h w w' e hrun hstep ih =>
    obtain ⟨hnot, hnots⟩ := forall_mem_cons.mp hnot
    obtain ⟨hlast, hlasts⟩ := forall_mem_cons.mp hlast
    obtain ⟨hco, hcos⟩ := forall_mem_cons.mp hco
    obtain ⟨a, hs, hatt, hold⟩ := ih hnots hlasts hcos
    have hshed := hs.step_shed hc hrun hstep hco hlast
    cases hcall : e.call with
    | none =>
      rw [hcall] at hshed
      obtain ⟨a', hs', hsheds⟩ := hshed
      exact ⟨a', hs', hatt.sheds hsheds, fun u k l hl => Follows.shed hs hold hs' hsheds hcall hl⟩
    | some call =>
      obtain ⟨sid, op, r⟩ := call
      rw [hcall] at hshed
      obtain ⟨hsid, hop, a', hs', hstep'⟩ := hshed
      have hnotop : op.noticed w.server sid = true := by
        rw [Moment.noticed, hcall] at hnot
        exact hnot
      exact ⟨a', hs', hstep'.attended hatt,
        fun u k l hl => Follows.step hs hatt hold hs' hsid hop hstep' hcall hnotop hl⟩

theorem wlp_ascProcessValidate (s : Server) :
    wlp (ascProcessValidate u) (fun out _ => out = .reply .ok ∨ out = .reply .abort) c s := by
  have hresult : wlp (itemValidate u) (fun r _ => r = .ok ∨ r = .abort) c s := by
    rw [itemValidate, wlp_bind, wlp_itemGet]
    cases s.live u with
    | none => exact .pure (.inr rfl)
    | some sessIt =>
      dsimp only
      split
      · rw [wlp_bind, wlp_itemUnlink, wlp_pure]
        exact .inr rfl
      · rw [wlp_bind, wlp_deref]
        intro keys _
        refine .bind (fun valid s₁ _ => ?_)
        dsimp only
        split
        · exact .pure (.inl rfl)
        · exact .bind (fun _ s₂ _ => .pure (.inr rfl))
  rw [ascProcessValidate, wlp_bind]
  refine hresult.mono fun r s₁ hr => ?_
  rcases hr with rfl | rfl
  · exact .pure (.inl rfl)
  · exact .pure (.inr rfl)

end Runs

end Rejig
