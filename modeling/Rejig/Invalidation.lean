import Rejig.Cells
import Mathlib.Data.Finset.Basic

/-!
# Invalidation

A transaction that invalidates keys registers for each of them with `qareg`, and when it is done a
`dar` or a `commit` deletes the values.  Abstractly each key has a value and a finite set of
transactions that have registered for it and have not finished.  The server keeps the set as a
sorted list inside the lease record of the key, next to a second list, of keys, in the record of
each transaction.

`Invalidation.machine` is the abstract machine, and `Invalidation.simulation` shows that the server
refines it: every run of the requests concerned, with enough memory and with nothing expiring, is
answered by a run of the machine with the same answers to the clients.
-/

namespace Rejig

open Option List Function Finset

variable {conn : Nat} {req : Request} {key tid : Bytes} {l v : Content} {o : Option Content}
  {p : Pending} {s s' : Server} {σ : State}

namespace Invalidation

/-! ## The machine -/

/-- What the machine keeps of a key: the bytes and flags of its value, the transactions that have
registered for it, and the token that a client has to present to fill it. -/
@[ext]
structure Cell where
  value : Option (Bytes × Nat) := none
  invalidators : Finset Bytes := ∅
  filler : Option UInt64 := none

/-- The operations, with what the client is told. -/
inductive Op where
  | qareg (tid key : Bytes)
  /-- `dar` or `commit` -/
  | finish (tid : Bytes) (found : Bool)
  | iqget (key : Bytes) (answer : Answer)
  | iqset (key : Bytes) (token : UInt64) (data : Bytes) (flags : Nat) (stored : Bool)
  | get (keys : List Bytes) (values : List (Bytes × Nat))

abbrev State := Bytes → Cell

/-- Nobody may fill the key: it has a value, or a lease, or a registration. -/
def Cell.Closed (x : Cell) : Prop := x.filler ≠ none ∨ x.invalidators ≠ ∅

/-- The key after a transaction has finished. -/
def Cell.finish (tid : Bytes) (x : Cell) : Cell :=
  if tid ∈ x.invalidators then
    { x with value := none, invalidators := x.invalidators.erase tid } else x

theorem mem_invalidators_finish {x : Cell} {tid' : Bytes} :
    tid ∈ (x.finish tid').invalidators ↔ tid ≠ tid' ∧ tid ∈ x.invalidators := by
  rw [Cell.finish]
  split
  · rw [mem_erase]
  · next hnot =>
    constructor
    · intro hmem
      refine ⟨?_, hmem⟩
      rintro rfl
      exact hnot hmem
    · exact And.right

/-- The steps of the machine. -/
inductive Step (σ : State) : Op → State → Prop
  | qareg (tid key : Bytes) : Step σ (.qareg tid key) (update σ key
      { σ key with invalidators := insert tid (σ key).invalidators, filler := none })
  | finish (tid : Bytes) (found : Bool) : (found = true ↔ ∃ key, tid ∈ (σ key).invalidators) →
      Step σ (.finish tid found) fun key => (σ key).finish tid
  | hit {key data : Bytes} {flags : Nat} : (σ key).value = some (data, flags) →
      Step σ (.iqget key (.value data flags)) σ
  | grant {key : Bytes} (token : UInt64) : (σ key).value = none → ¬ (σ key).Closed →
      Step σ (.iqget key (.lvalue token))
        (update σ key { σ key with filler := some (readBack token) })
  | miss {key : Bytes} : (σ key).value = none → (σ key).Closed →
      Step σ (.iqget key (.lvalue leaseHotmiss)) σ
  | novalue {key : Bytes} : (σ key).value = none → (σ key).Closed → Step σ (.iqget key .novalue) σ
  | fill {key data : Bytes} {token : UInt64} (flags : Nat) :
      (σ key).filler = some token → data ≠ [] →
      Step σ (.iqset key token data flags true)
        (update σ key { σ key with value := some (data, flags), filler := none })
  | reject {key data : Bytes} {token : UInt64} (flags : Nat) :
      ¬ ((σ key).filler = some token ∧ data ≠ []) → Step σ (.iqset key token data flags false) σ
  | get (keys : List Bytes) : Step σ (.get keys (keys.filterMap fun key => (σ key).value)) σ

/-- The machine starts without values and registrations. -/
def machine : System State Op where
  Init σ := σ = fun _ => {}
  Step := Step

/-- A key that may be filled has no registration. -/
theorem invalidators_of_filler (hσ : machine.Reachable σ) (h : (σ key).filler ≠ none) :
    (σ key).invalidators = ∅ := by
  obtain ⟨ops, hr⟩ := hσ
  induction hr generalizing key with
  | init hσ =>
    cases hσ
    rfl
  | @step ops σ σ' op hr hstep ih =>
    have hupdate : ∀ {key' x}, (key = key' → x.filler ≠ none → x.invalidators = ∅) →
        (update σ key' x key).filler ≠ none → (update σ key' x key).invalidators = ∅ := by
      intro key' x hx hne
      by_cases hkey : key = key'
      · subst hkey
        rw [update_self] at hne ⊢
        exact hx rfl hne
      · rw [update_of_ne hkey] at hne ⊢
        exact ih hne
    cases hstep with
    | qareg tid key' => exact hupdate (fun _ hne => absurd rfl hne) h
    | finish tid found _ =>
      have hfiller : ((σ key).finish tid).filler = (σ key).filler := by
        rw [Cell.finish]
        split <;> rfl
      have hempty := ih (hfiller ▸ h)
      show ((σ key).finish tid).invalidators = ∅
      rw [Cell.finish, if_neg (by simp [hempty])]
      exact hempty
    | grant token _ hopen =>
      refine hupdate (fun hkey _ => ?_) h
      subst hkey
      exact not_not.mp fun hne => hopen (.inr hne)
    | fill flags _ _ => exact hupdate (fun _ hne => absurd rfl hne) h
    | hit | miss | novalue | reject | get => exact ih h

/-- The transaction has registered for the key, and has not finished since.  The newest operation
comes first. -/
def registered (tid key : Bytes) : List Op → Prop
  | [] => False
  | .qareg tid' key' :: ops => tid' = tid ∧ key' = key ∨ registered tid key ops
  | .finish tid' _ :: ops => tid' ≠ tid ∧ registered tid key ops
  | .iqget .. :: ops | .iqset .. :: ops | .get .. :: ops => registered tid key ops

/-- The sets of the machine are the registrations. -/
theorem mem_invalidators_iff {ops : List (Transition State Op)} (hr : machine.Run ops σ) :
    tid ∈ (σ key).invalidators ↔ registered tid key (ops.map Transition.label) := by
  induction hr with
  | init hσ =>
    cases hσ
    simp [registered]
  | @step ops σ σ' op hr hstep ih =>
    have hupdate : ∀ {key' x}, x.invalidators = (σ key').invalidators →
        (tid ∈ (update σ key' x key).invalidators ↔ tid ∈ (σ key).invalidators) := by
      intro key' x hx
      by_cases hkey : key = key'
      · subst hkey
        rw [update_self, hx]
      · rw [update_of_ne hkey]
    rw [List.map_cons]
    cases hstep with
    | qareg tid' key' =>
      rw [registered, ← ih]
      by_cases hkey : key = key'
      · subst hkey
        rw [update_self, mem_insert]
        simp [eq_comm]
      · rw [update_of_ne hkey]
        simp [Ne.symm hkey]
    | finish tid' found _ =>
      rw [registered, ← ih]
      show tid ∈ ((σ key).finish tid').invalidators ↔ _
      rw [mem_invalidators_finish]
      simp [ne_comm]
    | grant | fill =>
      rw [registered, ← ih]
      exact hupdate rfl
    | hit | miss | novalue | reject | get =>
      rw [registered]
      exact ih

/-! ## The records of a key -/

/-- What the lease of a key says about the registrations and the token. -/
inductive Cell.Leased (σ : Cell) : Option Content → Prop
  | none : σ.filler = Option.none → σ.invalidators = ∅ → Leased σ Option.none
  | i {l : Content} : l.lease = .i → σ.filler = some l.leaseValue → σ.invalidators = ∅ →
      Leased σ (some l)
  | qInv {l : Content} {tids : List Bytes} : l.lease = .qInv → l.co = .none → Encodes l.data tids →
      tids ≠ [] → σ.filler = Option.none → tids.toFinset = σ.invalidators → Leased σ (some l)

/-- The records of a key are those of a cell. -/
structure Cell.Of (x : KeyState) (σ : Cell) : Prop where
  value : x.value.map (fun v => (v.data, v.dataflags)) = σ.value
  version : x.version = none
  marker : x.marker = none
  lease : σ.Leased x.lease

section Cells

variable {σ : Cell} {x : KeyState} {now exp : Nat} {t : Bytes} {token : UInt64}

theorem Cell.Leased.any_iff (h : σ.Leased o) :
    (o.any fun l => l.lease = .i && l.leaseValue = token) = true ↔ σ.filler = some token := by
  cases h with
  | none hf _ => simp [hf]
  | i hl hf _ => simp [hl, hf]
  | qInv hl _ _ _ hf _ => simp [hl, hf]

theorem Cell.Leased.closed_iff (h : σ.Leased o) : σ.Closed ↔ o ≠ Option.none := by
  cases h with
  | none hf hs => simp [Closed, hf, hs]
  | i _ hf _ => simp [Closed, hf]
  | qInv _ _ _ hne _ hs => simp [Closed, ← hs, hne]

/-- A transaction registers. -/
theorem Cell.Of.register (h : σ.Of x) (hlive : ∀ l, x.lease = some l → l.expired now = false)
    (hlen : t.length < 256) (hlasts : now < exp) :
    Cell.Of (x.register now exp t)
      { σ with invalidators := insert t σ.invalidators, filler := none } := by
  -- the list that is there, if there is one
  obtain ⟨tids, hset, henc, hnone, hold⟩ : ∃ tids, tids.toFinset = σ.invalidators ∧
      (∀ l, x.lease.filter (·.lease ≠ .i) = some l → Encodes l.data tids) ∧
      (x.lease.filter (·.lease ≠ .i) = none → tids = []) ∧
      ∀ l, x.lease.filter (·.lease ≠ .i) = some l → l.lease = .qInv ∧ l.co = .none := by
    have hl := h.lease
    cases hlease : x.lease with
    | none =>
      rw [hlease] at hl
      cases hl with
      | none _ hs => exact ⟨[], by simp [hs], by simp, fun _ => rfl, by simp⟩
    | some l =>
      rw [hlease] at hl
      cases hl with
      | i hi _ hs => exact ⟨[], by simp [hs], by simp [hi], fun _ => rfl, by simp [hi]⟩
      | @qInv _ tids hq hco henc _ _ hs =>
        exact ⟨tids, hs, by simpa [hq], by simp [hq], by simp [hq, hco]⟩
  obtain ⟨l', tids', hl', henc', hmem, hkept⟩ : ∃ l' tids', enlisted now exp .qInv .none t
      (x.lease.filter (·.lease ≠ .i)) = some l' ∧ Encodes l'.data tids' ∧
      (∀ e, e ∈ tids' ↔ e = t ∨ e ∈ tids) ∧ (x.lease.filter (·.lease ≠ .i) = some l' ∨
        l'.lease = .qInv ∧ l'.co = .none ∧ l'.exptime = exp) :=
    enlisted_encodes henc hnone hlen hlasts
  have hkind : l'.lease = .qInv ∧ l'.co = .none ∧ l'.expired now = false := by
    rcases hkept with hkept | ⟨hkind, hco, hexp⟩
    · obtain ⟨hkind, hco⟩ := hold l' hkept
      exact ⟨hkind, hco, hlive l' (filter_eq_some_iff.mp hkept).1⟩
    · exact ⟨hkind, hco, by simp [Content.expired, hexp, hlasts]⟩
  obtain ⟨hkind, hco, hexp⟩ := hkind
  refine ⟨?_, h.version, h.marker, ?_⟩
  · -- the value gets the expiry of the lease, and stays
    rw [← h.value, KeyState.register]
    dsimp only
    rw [hl']
    cases x.value with
    | none => rfl
    | some v =>
      have hv : Content.expired now { v with exptime := l'.exptime } = false := hexp
      rw [bind_some, elim_some, filter_some, hv]
      rfl
  · rw [KeyState.register]
    dsimp only
    rw [hl']
    refine .qInv hkind hco henc' ?_ rfl ?_
    · rintro rfl
      simpa using hmem t
    · ext e
      simp [hmem, ← hset]

/-- A transaction is taken off the list of a lease. -/
theorem Cell.Leased.dropped (h : σ.Leased (some l)) (ht : t ∈ σ.invalidators) (hlasts : now < exp)
    (v : Option (Bytes × Nat)) :
    l.lease = .qInv ∧ Cell.Leased { σ with value := v, invalidators := σ.invalidators.erase t }
      (KeyState.droppedLease now exp t l) := by
  cases h with
  | i _ _ hs =>
    rw [hs] at ht
    cases ht
  | @qInv _ tids hq hco henc hne hf hs =>
    refine ⟨hq, ?_⟩
    have hmem : t ∈ tids := by
      rw [← hs] at ht
      exact List.mem_toFinset.mp ht
    have hset : σ.invalidators.erase t = (tids.erase t).toFinset := by
      ext e
      rw [← hs, mem_erase, List.mem_toFinset, List.mem_toFinset, henc.nodup.mem_erase_iff]
    have hname : u8Name t = t := u8Name_of_lt (henc.short t hmem)
    have hhas : l.Has t := by
      rw [Content.Has, hname, henc.check, decide_eq_true hmem]
    have hlength : l.data.length = t.length + 1 + (encode (tids.erase t)).length := by
      rw [henc.eq_encode]
      exact length_encode_erase hmem
    rw [KeyState.droppedLease, if_neg (not_not.mpr hq), if_pos hhas, KeyState.delisted, hname, hset]
    cases hrest : tids.erase t with
    | nil =>
      rw [hrest, encode_nil, length_nil, Nat.add_zero] at hlength
      rw [if_pos hlength]
      exact .none hf rfl
    | cons e rest =>
      have hpos : 0 < (encode (tids.erase t)).length := by
        rw [hrest]
        exact (Nat.succ_pos rest.length).trans_le (length_le_length_encode (e :: rest))
      obtain ⟨data, hdata, henc'⟩ := henc.rmvkey hmem
      rw [if_neg (by omega), hdata, bind_some, filter_some]
      have hexp : (!Content.expired now
        { data := data, exptime := exp, lease := l.listLease, co := l.listCo }) =
          true := by
        simp [Content.expired, hlasts]
      rw [if_pos hexp]
      refine .qInv ?_ ?_ henc' (by simp [hrest]) hf (by rw [hrest])
      · simp [Content.listLease, Content.hasCoLease, Content.hasQLease, hco, hq]
      · simp [Content.listCo, Content.hasCoLease, hco]

theorem Cell.Of.exists_lease (h : σ.Of x) (ht : t ∈ σ.invalidators) : ∃ l, x.lease = some l := by
  have hl := h.lease
  cases hlease : x.lease with
  | some l => exact ⟨l, rfl⟩
  | none =>
    rw [hlease] at hl
    cases hl with
    | none _ hs =>
      rw [hs] at ht
      cases ht

/-- A transaction that has registered deletes the value. -/
theorem Cell.Of.invalidate (h : σ.Of x) (ht : t ∈ σ.invalidators) (hlasts : now < exp) :
    Cell.Of (x.invalidate now exp t) (σ.finish t) := by
  obtain ⟨l, hl⟩ := h.exists_lease ht
  have hdrop := (hl ▸ h.lease).dropped ht hlasts Option.none
  rw [Cell.finish, if_pos ht]
  refine ⟨rfl, h.version, h.marker, ?_⟩
  rw [KeyState.invalidate, hl]
  exact hdrop.2

/-- A transaction that has registered commits, with nothing pending. -/
theorem Cell.Of.commit {cfgId : Int} (h : σ.Of x) (ht : t ∈ σ.invalidators) (hlasts : now < exp) :
    Cell.Of (x.commit now exp t 0 cfgId) (σ.finish t) := by
  obtain ⟨l, hl⟩ := h.exists_lease ht
  obtain ⟨hq, hdrop⟩ := (hl ▸ h.lease).dropped ht hlasts Option.none
  have hq' : l.hasQLease = true := by
    rw [Content.hasQLease, hq]
    rfl
  rw [Cell.finish, if_pos ht, KeyState.commit, hl, filter_some, hq', if_pos rfl, elim_some]
  refine ⟨?_, rfl, ?_, hdrop⟩
  · rw [KeyState.committed, h.version]
    rfl
  · rw [KeyState.committed, KeyState.markedBy, h.marker]
    simp

/-- A reader of a key without a value and a lease is granted an I lease. -/
theorem Cell.Of.grant (h : σ.Of x) (hv : x.value = none) (hl : x.lease = none)
    (hlasts : now < exp) :
    Cell.Of (x.iqget now exp token) { σ with filler := some (readBack token) } := by
  have hs : σ.invalidators = ∅ := by
    have hl' := h.lease
    rw [hl] at hl'
    cases hl' with
    | none _ hs => exact hs
  have hgranted : KeyState.granted now exp .i token x.indicator =
      some { data := decimal token, exptime := exp, lease := .i, p := x.indicator } := by
    simp [KeyState.granted, filter_some, Content.expired, hlasts]
  have hstate : x.iqget now exp token =
      ⟨x.value, KeyState.granted now exp .i token x.indicator, x.version, x.marker⟩ := by
    rw [KeyState.iqget, hv, hl]
  rw [hstate, hgranted]
  exact ⟨h.value, h.version, h.marker, .i rfl rfl hs⟩

/-- Other readers change nothing that the machine keeps. -/
theorem Cell.Of.iqget (h : σ.Of x) (hx : x.value ≠ none ∨ x.lease ≠ none) :
    Cell.Of (x.iqget now exp token) σ := by
  rw [KeyState.iqget]
  split
  · exact h
  · next hv hl => exact absurd hx (by simp [hv, hl])
  · next l hv hl =>
    refine ⟨h.value, h.version, h.marker, ?_⟩
    have hl' := h.lease
    rw [hl] at hl'
    cases hl' with
    | i hi hf hs => exact .i hi hf hs
    | qInv hq hco henc hne hf hs => exact .qInv hq hco henc hne hf hs

/-- Nobody has a refresh lease. -/
theorem Cell.Leased.ne_qRef (h : σ.Leased (some l)) : l.lease ≠ .qRef := by
  cases h with
  | i hi =>
    rw [hi]
    nofun
  | qInv hq =>
    rw [hq]
    nofun

/-- A client that does not present the token, or sends nothing, changes nothing. -/
theorem Cell.Of.reject (h : σ.Of x) (hno : ¬ (v.data ≠ [] ∧ σ.filler = some token)) :
    Cell.Of (x.iqset now token v) σ := by
  rw [KeyState.iqset, if_neg fun hand => hno ⟨hand.1, h.lease.any_iff.mp hand.2⟩]
  exact h

/-- A client that presents the token fills the key. -/
theorem Cell.Of.fill (h : σ.Of x) (hf : σ.filler = some token) (hne : v.data ≠ [])
    (hexp : v.expired now = false) :
    Cell.Of (x.iqset now token v)
      { σ with value := some (v.data, v.dataflags), filler := none } := by
  have hs : σ.invalidators = ∅ := by
    have hl' := h.lease
    cases hlease : x.lease with
    | none =>
      rw [hlease] at hl'
      cases hl' with
      | none _ hs => exact hs
    | some l =>
      rw [hlease] at hl'
      cases hl' with
      | i _ _ hs => exact hs
      | qInv _ _ _ _ hf' _ =>
        rw [hf] at hf'
        cases hf'
  rw [KeyState.iqset, if_pos ⟨hne, h.lease.any_iff.mpr hf⟩, h.marker]
  refine ⟨?_, h.version, rfl, .none rfl hs⟩
  have hexp' : Content.expired now { v with p := v.p } = false := hexp
  simp [filter_some, hexp]

end Cells

/-! ## The server -/

/-- What the machine sees of a step. -/
def obs : Event → Option Op
  | .line _ (.qareg _ key tid) (.reply .qInvLeasehold) => some (.qareg tid key)
  | .line _ (.dar _ tid) (.reply .deleted) => some (.finish tid true)
  | .line _ (.dar _ tid) (.reply .invalid) => some (.finish tid false)
  | .line _ (.commit _ _ tid _) (.reply .ok) => some (.finish tid true)
  | .line _ (.commit _ _ tid _) (.reply .notFound) => some (.finish tid false)
  | .line _ (.iqget _ key _) (.reply (.value it)) => some (.iqget key (.value it.data it.dataflags))
  | .line _ (.iqget _ key _) (.reply (.lvalue token _)) => some (.iqget key (.lvalue token))
  | .line _ (.iqget _ key _) (.reply .novalue) => some (.iqget key .novalue)
  | .line _ (.get _ _ keys) (.reply (.values its)) =>
    some (.get keys (its.map fun it => (it.data, it.dataflags)))
  | .body _ (.update (.iqset token) _ _ key flags _ vlen) _ body .stored =>
    some (.iqset key token (body.take vlen) flags true)
  | .body _ (.update (.iqset token) _ _ key flags _ vlen) _ body .notStored =>
    some (.iqset key token (body.take vlen) flags false)
  | _ => none

/-- What a cell stands for. -/
def abstraction : Abstraction Cell where
  empty := {}
  Of σ x := σ.Of x
  Lists σ t := t ∈ σ.invalidators
  of_empty := ⟨rfl, rfl, rfl, .none rfl rfl⟩
  not_lists_empty _ := notMem_empty _

/-! ## The simulation -/

/-- The requests of readers, and of transactions that invalidate. -/
def invalidates : Request → Bool
  | .get .. | .iqget .. | .update (.iqset _) .. | .qareg .. | .dar .. => true
  | .commit _ _ _ pending => pending = 0
  | _ => false

/-- A step of such a request, with enough memory and with nothing expiring. -/
structure Invalidating (c : Settings) (N : Naming) (m : Moment) : Prop extends Steady c m where
  iq : m.label.Iq N
  request : ∀ req, m.label.request = some req → invalidates req = true
  alive : ∀ conn req p body r, m.label = .body conn req p body r →
    p.item.content.expired m.pre.server.now = false

section Simulation

variable {c : Settings} {N : Naming} {h : History} {m : Moment}

theorem obs_refused {r : Reply} (hr : r ∈ Reply.refusals) :
    obs (.line conn req (.reply r)) = none := by
  simp only [Reply.refusals, List.mem_cons, List.not_mem_nil, or_false] at hr
  rcases hr with rfl | rfl | rfl <;> cases req <;> rfl

theorem obs_nread : obs (.line conn req (.nread p)) = none := by
  cases req <;> rfl

theorem obs_badBody {body : Bytes} : obs (.body conn req p body .clientError) = none := by
  cases req with
  | update cmd => cases cmd <;> rfl
  | _ => rfl

theorem isTurn_of_invalidates (h : invalidates req = true) :
    req.isTurn = true ∧ req.filers = [] := by
  cases req with
  | update cmd => cases cmd <;> first | exact ⟨rfl, rfl⟩ | cases h
  | get | iqget | qareg | dar | commit => exact ⟨rfl, rfl⟩
  | _ => cases h

/-- A reader asks for a key. -/
theorem iqget_answers {cfg : Int} {k : Bytes} {token : UInt64} {r : IqgetResult}
    (hR : abstraction.Represents N s σ) (hs : s.Calm c N) (hk : N.isKey k)
    (hanswer : (s.keyState k).IqgetAnswers s.token token r)
    (h : s.Steps k (KeyState.iqget s.now (s.leaseExpiry c) s.token) s') :
    ∃ σ', abstraction.Represents N s' σ' ∧
      machine.Answers σ (obs (.line conn (.iqget cfg k token) (.reply (ascIqgetReply r)))) σ' := by
  have hx : (σ k).Of (s.keyState k) := hR.key k hk
  rcases hanswer.split with ⟨it, hreply, hv⟩ | ⟨p, hreply, hv, hl⟩ | ⟨-, l, hl, href, -⟩ |
    ⟨hreply, hv, hl⟩
  · refine ⟨σ, hR.stays hk h (hx.iqget (.inl (by simp [hv]))), ?_⟩
    rw [hreply]
    refine Step.hit ?_
    rw [← hx.value, hv]
    rfl
  · have hvalue : (σ k).value = none := by rw [← hx.value, hv, map_none]
    refine ⟨_, hR.steps hk h (hx.grant hv hl hs.lasts) fun _ => Iff.rfl, ?_⟩
    rw [hreply]
    exact Step.grant s.token hvalue fun hclosed => hx.lease.closed_iff.mp hclosed hl
  · exact absurd href (hl ▸ hx.lease).ne_qRef
  · have hvalue : (σ k).value = none := by rw [← hx.value, hv, map_none]
    have hclosed : (σ k).Closed := hx.lease.closed_iff.mpr hl
    refine ⟨σ, hR.stays hk h (hx.iqget (.inr hl)), ?_⟩
    rcases hreply with hreply | ⟨p, hreply⟩
    · rw [hreply]
      exact Step.novalue hvalue hclosed
    · rw [hreply]
      exact Step.miss hvalue hclosed

/-- A transaction finishes. -/
theorem finish_answers {t : Bytes} {g : KeyState → KeyState} (hR : abstraction.Represents N s σ)
    (hs : s.Calm c N) (ht : N.isTid t) (hend : Ended t (s.listed t) g s s')
    (hg : ∀ σ x, Cell.Of x σ → t ∈ σ.invalidators → (σ.finish t).Of (g x)) :
    abstraction.Represents N s' (fun k => (σ k).finish t) ∧
      Step σ (.finish t (s.live t).isSome) fun k => (σ k).finish t := by
  refine ⟨hR.ended hs ht hend (fun k hk => hg _ _ (hR.key k hk)) (fun _ _ =>
    mem_invalidators_finish) fun x hx => if_neg hx, .finish t _ ?_⟩
  rw [isSome_iff_ne_none]
  exact hR.found t ht

/-- A step of the server is a step of the machine, or the machine does not see it. -/
theorem step_answers (hr : IqRun c N h m.pre) (hstep : World.Step c m.pre m.label m.post)
    (hm : Invalidating c N m) (hR : abstraction.Represents N m.pre.server σ) :
    ∃ σ', abstraction.Represents N m.post.server σ' ∧ machine.Answers σ (obs m.label) σ' := by
  have hs := hr.calm hm.heap hm.lasts
  obtain ⟨⟨s, conns⟩, e, ⟨s', conns'⟩⟩ := m
  dsimp only at hr hstep hs hR ⊢
  have hturn : ∀ req, e.request = some req → Turn c s e s' := by
    intro req hreq
    obtain ⟨hturn, hfilers⟩ := isTurn_of_invalidates (hm.request req hreq)
    refine hstep.turn hr hm.iq hm.heap hm.lasts hreq hturn (by simp [hfilers]) ?_
    rintro _ _ _ _ _ rfl
    cases hfilers
  have hsame : obs e = none → (∀ n, s'.record n = s.record n) →
      ∃ σ', abstraction.Represents N s' σ' ∧ machine.Answers σ (obs e) σ' := by
    intro hobs hrec
    rw [hobs]
    exact ⟨σ, hR.same hrec, rfl⟩
  cases e with
  | tick | memory | hangup => exact hsame rfl (hm.record hstep rfl)
  | line conn req out =>
    have hinv := hm.request req rfl
    have hkeys := hm.iq.keys req rfl
    have hids := hm.iq.ids req rfl
    cases hturn req rfl with
    | refused hmem h => exact hsame (obs_refused hmem) h.record
    | wait h => exact hsame obs_nread h.record
    | @get _ _ _ keys its _ hits h =>
      refine ⟨σ, hR.same h.record, ?_⟩
      show Step σ (.get keys (its.map fun it => (it.data, it.dataflags))) σ
      rw [map_data_of_get hits fun k hk => (hR.key k (hkeys k hk)).value]
      exact .get keys
    | @iqget _ _ k token r _ hanswer h =>
      exact iqget_answers hR hs (hkeys k (by simp [Request.keys])) hanswer h
    | @qareg _ _ k tid _ hlen h =>
      have hk : N.isKey k := hkeys k (by simp [Request.keys])
      have ht : N.isTid tid := hids tid (by simp [Request.ids])
      have hx : (σ k).Of (s.keyState k) := hR.key k hk
      refine ⟨_, hR.files hs hk ht h
        (hx.register (fun l hl => ?_) (hlen.trans_lt (by decide)) hs.lasts) fun _ =>
        mem_insert, .qareg tid k⟩
      obtain ⟨it, hit, rfl⟩ := map_eq_some_iff.mp hl
      exact hs.shows.not_expired hit
    | @commit _ _ _ pending tid r _ hreply hend =>
      obtain rfl : pending = 0 := of_decide_eq_true hinv
      obtain ⟨hR', hfinish⟩ := finish_answers hR hs (hids tid (by simp [Request.ids])) hend
        fun _ _ hx hmem => hx.commit hmem hs.lasts
      refine ⟨_, hR', ?_⟩
      cases hlive : s.live tid <;> rw [hlive] at hreply hfinish <;> subst hreply <;> exact hfinish
    | @dar _ _ tid r _ hreply hend =>
      obtain ⟨hR', hfinish⟩ := finish_answers hR hs (hids tid (by simp [Request.ids])) hend
        fun _ _ hx hmem => hx.invalidate hmem hs.lasts
      refine ⟨_, hR', ?_⟩
      cases hlive : s.live tid <;> rw [hlive] at hreply hfinish <;> subst hreply <;> exact hfinish
    | _ => cases hinv
  | body conn req p body r =>
    have hinv := hm.request req rfl
    have hkeys := hm.iq.keys req rfl
    cases hturn req rfl with
    | badBody h => exact hsame obs_badBody h.record
    | @iqset _ flags vlen _ _ _ k token _ _ v _ _ hdata hflags _ hexp hstored h =>
      have hk : N.isKey k := hkeys k (by simp [Request.keys])
      have hx : (σ k).Of (s.keyState k) := hR.key k hk
      have halive : v.expired s.now = false := by
        rw [Content.expired, hexp]
        exact hm.alive _ _ _ _ _ rfl
      rw [hx.lease.any_iff, hdata] at hstored
      by_cases hfill : body.take vlen ≠ [] ∧ (σ k).filler = some token
      · obtain rfl := hstored.mpr hfill
        refine ⟨_, hR.steps hk h (hx.fill hfill.2 (hdata ▸ hfill.1) halive) fun _ => Iff.rfl, ?_⟩
        rw [hdata, hflags]
        exact .fill flags hfill.2 hfill.1
      · refine ⟨σ, hR.stays hk h (hx.reject (hdata ▸ hfill)), ?_⟩
        cases r with
        | stored => exact absurd (hstored.mp rfl) hfill
        | notStored => exact .reject flags fun hand => hfill hand.symm
        | _ => rfl
    | _ => cases hinv

/-- The server refines the machine. -/
theorem simulation (c : Settings) (N : Naming) :
    System.Simulation ((service c).restrict (Invalidating c N)) machine obs fun w σ =>
      abstraction.Represents N w.server σ := by
  refine .of_answers ?_ ?_
  · rintro w rfl
    exact ⟨_, rfl, .start abstraction N⟩
  · rintro w e w' σ ⟨h, hr⟩ hstep hR
    obtain ⟨hr, hm⟩ := System.run_restrict_iff.mp hr
    have hrun : IqRun c N h w := ⟨hr, fun m hmem => (hm m hmem).iq⟩
    exact step_answers (m := ⟨w, e, w'⟩) hrun hstep.1 hstep.2 hR

/-- Every run of readers and of transactions that invalidate is a run of the machine, with the same
answers. When a `dar` has answered `DELETED` the keys for which the transaction had registered are
misses, and no value is installed for a key while a transaction that has registered for it has not
finished. -/
theorem invalidation_refines {w : World} (hr : (service c).Run h w)
    (hm : ∀ m ∈ h, Invalidating c N m) :
    (∃ ops σ, machine.Run ops σ ∧ abstraction.Represents N w.server σ ∧
      ops.map Transition.label = System.observed obs h) ∧
    ∀ newer m older, h = newer ++ m :: older →
      (∀ conn cfg t, m.label = .line conn (.dar cfg t) (.reply .deleted) →
        ∀ k, registered t k (System.observed obs older) → m.post.server.live k = none) ∧
      (∀ conn token cfg frag k flags exptime vlen p body,
        m.label = .body conn (.update (.iqset token) cfg frag k flags exptime vlen) p body .stored →
        ∀ t, ¬ registered t k (System.observed obs older)) := by
  have sim := simulation c N
  have hrun := System.run_restrict_iff.mpr ⟨hr, hm⟩
  refine ⟨sim.run hrun, ?_⟩
  rintro newer m older rfl
  obtain ⟨ops, σ, σ', hops, hobs, hR₀, hR, hstep⟩ := sim.at_step hrun
  constructor
  · intro conn cfg t hlabel k hreg
    rw [← hobs, ← mem_invalidators_iff hops] at hreg
    rw [hlabel] at hstep
    have hfinish : Step σ (.finish t true) σ' := hstep
    have hvalue := (hR.key k (hR₀.isKey hreg)).value
    cases hfinish with
    | finish =>
      have hnone : ((σ k).finish t).value = none := by rw [Cell.finish, if_pos hreg]
      exact map_eq_none_iff.mp (map_eq_none_iff.mp (hvalue.trans hnone))
  · intro conn token cfg frag k flags exptime vlen p body hlabel t hreg
    rw [← hobs, ← mem_invalidators_iff hops] at hreg
    rw [hlabel] at hstep
    have hfill : Step σ (.iqset k token (body.take vlen) flags true) σ' := hstep
    cases hfill with
    | fill _ hf _ =>
      have hempty : (σ k).invalidators = ∅ := invalidators_of_filler ⟨ops, hops⟩ (by simp [hf])
      rw [hempty] at hreg
      cases hreg

end Simulation

/-- The test that a step is one of an invalidation, for the listed names. -/
def invalidating (c : Settings) (keys tids : List Bytes) (m : Moment) : Bool :=
  m.label.iqNamed keys tids && m.label.request.any invalidates && m.pre.server.heap = [] &&
    m.pre.server.now < m.pre.server.leaseExpiry c &&
    match m.label with
    | .body _ _ p _ _ => !p.item.content.expired m.pre.server.now
    | _ => true

theorem Invalidating.of_test {c : Settings} {keys tids : List Bytes} {hk : ∀ n ∈ keys, Unprefixed n}
    {ht : ∀ n ∈ tids, Unprefixed n} {hd : ∀ n ∈ keys, n ∉ tids} {m : Moment}
    (h : invalidating c keys tids m = true) : Invalidating c (.ofLists keys tids hk ht hd) m := by
  simp only [invalidating, Bool.and_eq_true, decide_eq_true_eq] at h
  obtain ⟨⟨⟨⟨hnamed, hinv⟩, hheap⟩, hlasts⟩, halive⟩ := h
  obtain ⟨req, hreq, hinv⟩ := (any_eq_true _ _).mp hinv
  refine ⟨⟨fun seconds htick => ?_, hheap, hlasts⟩, .of_named hnamed, fun req' hreq' => ?_,
    fun conn req' p body r hlabel => ?_⟩
  · rw [htick] at hreq
    cases hreq
  · rw [hreq] at hreq'
    cases hreq'
    exact hinv
  · rw [hlabel] at halive
    simpa using halive

/-- A key is filled, a transaction registers for it and finishes. -/
theorem invalidation_refines_dar : ∃ (h : History) (w : World) (q m : Moment),
    (service {}).Run (m :: q :: h) w ∧ q.pre.server.live [0x6b] ≠ none ∧
    q.label = .line 0 (.qareg 0 [0x6b] [0x74]) (.reply .qInvLeasehold) ∧
    m.label = .line 0 (.dar 0 [0x74]) (.reply .deleted) ∧ m.post.server.live [0x6b] = none ∧
    ∃ ops σ, machine.Run ops σ ∧ abstraction.Represents commitNaming w.server σ := by
  obtain ⟨older, q, m, w, hr, hsteps, hlive, hq, hlabel⟩ := (playable_run {}).exists_run₂
    [.line 0 (.iqget 0 [0x6b] 0), .line 0 (.update (.iqset 5) 0 (-1) [0x6b] 0 0 1),
      .body 0 [0x76, 0x0d, 0x0a], .line 0 (.qareg 0 [0x6b] [0x74]), .line 0 (.dar 0 [0x74])]
    (P := fun h q m _ => (∀ m' ∈ m :: q :: h, invalidating {} [[0x6b]] [[0x74]] m') ∧
      q.pre.server.live [0x6b] ≠ none ∧ q.label = .line 0 (.qareg 0 [0x6b] [0x74])
        (.reply .qInvLeasehold) ∧
      m.label = .line 0 (.dar 0 [0x74]) (.reply .deleted)) (by decide +kernel)
  have hm : ∀ m' ∈ m :: q :: older, Invalidating {} commitNaming m' := fun m' hm =>
    .of_test (hsteps m' hm)
  obtain ⟨⟨ops, σ, hops, hR, -⟩, hat⟩ := invalidation_refines hr hm
  have hreg : registered [0x74] [0x6b] (System.observed obs (q :: older)) := by
    simp [System.observed, hq, obs, registered]
  exact ⟨older, w, q, m, hr, hlive, hq, hlabel,
    (hat [] m (q :: older) rfl).1 0 0 [0x74] hlabel [0x6b] hreg, ops, σ, hops, hR⟩

end Invalidation

end Rejig
