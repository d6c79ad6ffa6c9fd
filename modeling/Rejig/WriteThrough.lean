import Rejig.Cells

/-!
# Write-through

A transaction that writes keys becomes the owner of each of them with `qaread` or `iqappend`, works
on a pending value with `swap` and `iqappend`, and ends with `commit` or `release`.  Abstractly each
key has a committed value and at most one owner, with a token and a pending value.  The server keeps
the owner of a key in two places: the token is in the lease record, and the key is in the list of
the transaction.

`WriteThrough.machine` is the abstract machine.  The server refines it as long as no `swap` presents
the token of an I lease: `item_swap` compares tokens without looking at the kind of the lease, so
that such a swap leaves a pending version on a key that has no owner, and the next owner finds it.
-/

namespace Rejig

open Option List Function

variable {token : UInt64} {x : Cell} {cfg readValue : Int} {req : Request} {v : Content}
  {p : Pending} {t tid tid' : Bytes} {conn flags vlen : Nat} {f : Content → Content}
  {f' : Bytes × Nat → Bytes × Nat} {kind : Lease} {m : Moment} {r : Reply}

namespace WriteThrough

/-! ## The machine -/

/-- The owner of a key: a transaction, the token that it has to present, and its pending value. -/
structure Owner where
  tid : Bytes
  token : UInt64
  pending : Option (Bytes × Nat)

/-- What the machine keeps of a key: its committed value, its owner, and the token that a client has
to present to fill it. -/
@[ext]
structure Cell where
  value : Option (Bytes × Nat) := none
  owner : Option Owner := none
  filler : Option UInt64 := none

/-- The operations, with what the client is told. -/
inductive Op where
  | qaread (tid key : Bytes) (reads : Bool) (value : Option (Bytes × Nat)) (token : UInt64)
  /-- `iqappend` or `iqprepend` -/
  | concat (append : Bool) (tid key data : Bytes) (found : Bool) (token : UInt64)
  | abort (tid key : Bytes)
  | swap (key : Bytes) (token : UInt64) (data : Bytes) (flags : Nat) (stored : Bool)
  | commit (tid : Bytes) (found : Bool)
  | release (tid : Bytes) (found : Bool)
  | iqget (key : Bytes) (token : UInt64) (answer : Answer)
  | iqset (key : Bytes) (token : UInt64) (data : Bytes) (flags : Nat) (stored : Bool)
  | get (keys : List Bytes) (values : List (Bytes × Nat))

abbrev State := Bytes → Cell

/-- The value with bytes added to it. -/
def extend (append : Bool) (data : Bytes) (v : Bytes × Nat) : Bytes × Nat :=
  (if append then v.1 ++ data else data ++ v.1, v.2)

/-- The transaction owns the key. -/
def Cell.OwnedBy (x : Cell) (tid : Bytes) : Prop := ∃ o, x.owner = some o ∧ o.tid = tid

/-- Somebody has a lease on the key. -/
def Cell.Closed (x : Cell) : Prop := x.owner ≠ none ∨ x.filler ≠ none

/-- The key after a transaction has become its owner. -/
def Cell.take (tid : Bytes) (token : UInt64) (pending : Option (Bytes × Nat)) (x : Cell) : Cell :=
  { x with owner := some ⟨tid, readBack token, pending⟩, filler := none }

/-- The key after its owner has changed the pending value. -/
def Cell.pend (f : Option (Bytes × Nat) → Option (Bytes × Nat)) (x : Cell) : Cell :=
  { x with owner := x.owner.map fun o => { o with pending := f o.pending } }

/-- The key after a transaction has committed: its pending value is the value. -/
def Cell.commit (tid : Bytes) (x : Cell) : Cell :=
  match x.owner with
  | some o => if o.tid = tid then { x with value := o.pending, owner := none } else x
  | none => x

/-- The key after a transaction has given up. -/
def Cell.release (tid : Bytes) (x : Cell) : Cell :=
  match x.owner with
  | some o => if o.tid = tid then { x with owner := none } else x
  | none => x

/-- The steps of the machine. -/
inductive Step (σ : State) : Op → State → Prop
  | qaread {key : Bytes} (tid : Bytes) (reads : Bool) (token : UInt64) : (σ key).owner = none →
      Step σ (.qaread tid key reads (if reads then (σ key).value else none) token)
        (update σ key ((σ key).take tid token (σ key).value))
  | qareadOwn {key : Bytes} {o : Owner} (reads : Bool) : (σ key).owner = some o →
      Step σ (.qaread o.tid key reads (if reads then o.pending else none) o.token) σ
  | qareadRefused {key tid : Bytes} (reads : Bool) : (σ key).owner ≠ none → ¬ (σ key).OwnedBy tid →
      Step σ (.qaread tid key reads none leaseHotmiss) σ
  | concat {key : Bytes} (append : Bool) (tid data : Bytes) (token : UInt64) :
      (σ key).owner = none →
      Step σ (.concat append tid key data (σ key).value.isSome token) (update σ key
        ((σ key).take tid token ((σ key).value.map (extend append data))))
  | concatOwn {key : Bytes} {o : Owner} (append : Bool) (data : Bytes) : (σ key).owner = some o →
      Step σ (.concat append o.tid key data o.pending.isSome o.token)
        (update σ key ((σ key).pend (·.map (extend append data))))
  | abort {key tid : Bytes} : (σ key).owner ≠ none → ¬ (σ key).OwnedBy tid →
      Step σ (.abort tid key) σ
  | swap {key data : Bytes} {o : Owner} (flags : Nat) : (σ key).owner = some o → data ≠ [] →
      Step σ (.swap key o.token data flags true)
        (update σ key ((σ key).pend fun _ => some (data, flags)))
  | swapRefused {key : Bytes} {token : UInt64} (data : Bytes) (flags : Nat) :
      (∀ o, (σ key).owner = some o → o.token ≠ token) → Step σ (.swap key token data flags false) σ
  | commit (tid : Bytes) (found : Bool) : (found = true ↔ ∃ key, (σ key).OwnedBy tid) →
      Step σ (.commit tid found) fun key => (σ key).commit tid
  | release (tid : Bytes) (found : Bool) : (found = true ↔ ∃ key, (σ key).OwnedBy tid) →
      Step σ (.release tid found) fun key => (σ key).release tid
  | hit {key data : Bytes} {flags : Nat} (token : UInt64) : (σ key).value = some (data, flags) →
      Step σ (.iqget key token (.value data flags)) σ
  /-- A reader that presents the token of the owner is told nothing. -/
  | own {key : Bytes} {o : Owner} : (σ key).owner = some o → Step σ (.iqget key o.token .novalue) σ
  | grant {key : Bytes} (token newToken : UInt64) : (σ key).value = none → ¬ (σ key).Closed →
      Step σ (.iqget key token (.lvalue newToken))
        (update σ key { σ key with filler := some (readBack newToken) })
  | miss {key : Bytes} (token : UInt64) : (σ key).value = none → (σ key).Closed →
      Step σ (.iqget key token (.lvalue leaseHotmiss)) σ
  | novalue {key : Bytes} (token : UInt64) : (σ key).value = none → (σ key).Closed →
      Step σ (.iqget key token .novalue) σ
  | fill {key data : Bytes} {token : UInt64} (flags : Nat) :
      (σ key).filler = some token → data ≠ [] →
      Step σ (.iqset key token data flags true)
        (update σ key { σ key with value := some (data, flags), filler := none })
  | reject {key data : Bytes} {token : UInt64} (flags : Nat) :
      ¬ ((σ key).filler = some token ∧ data ≠ []) → Step σ (.iqset key token data flags false) σ
  | get (keys : List Bytes) : Step σ (.get keys (keys.filterMap fun key => (σ key).value)) σ

/-- The machine starts without values and owners. -/
def machine : System State Op where
  Init σ := σ = fun _ => {}
  Step := Step

theorem ownedBy_commit : (x.commit tid').OwnedBy tid ↔ tid ≠ tid' ∧ x.OwnedBy tid := by
  obtain ⟨value, owner, filler⟩ := x
  cases owner with
  | none => simp [Cell.commit, Cell.OwnedBy]
  | some o =>
    by_cases ho : o.tid = tid'
    · simp [Cell.commit, Cell.OwnedBy, ho, eq_comm]
    · simp only [Cell.commit, Cell.OwnedBy, ho, if_false, Option.some.injEq, exists_eq_left']
      constructor
      · rintro rfl
        exact ⟨ho, rfl⟩
      · exact And.right

theorem ownedBy_release : (x.release tid').OwnedBy tid ↔ tid ≠ tid' ∧ x.OwnedBy tid := by
  obtain ⟨value, owner, filler⟩ := x
  cases owner with
  | none => simp [Cell.release, Cell.OwnedBy]
  | some o =>
    by_cases ho : o.tid = tid'
    · simp [Cell.release, Cell.OwnedBy, ho, eq_comm]
    · simp only [Cell.release, Cell.OwnedBy, ho, if_false, Option.some.injEq, exists_eq_left']
      constructor
      · rintro rfl
        exact ⟨ho, rfl⟩
      · exact And.right

theorem commit_of_not_ownedBy (h : ¬ x.OwnedBy tid) : x.commit tid = x := by
  obtain ⟨value, owner, filler⟩ := x
  cases owner with
  | none => rfl
  | some o => exact if_neg fun ho => h ⟨o, rfl, ho⟩

theorem release_of_not_ownedBy (h : ¬ x.OwnedBy tid) : x.release tid = x := by
  obtain ⟨value, owner, filler⟩ := x
  cases owner with
  | none => rfl
  | some o => exact if_neg fun ho => h ⟨o, rfl, ho⟩

/-! ## The records of a key -/

/-- The bytes and flags of a record. -/
def bytesOf (x : Content) : Bytes × Nat := (x.data, x.dataflags)

/-- What the lease and the pending version of a key say about its owner and the token. -/
inductive Cell.Leased (σ : Cell) (version : Option Content) : Option Content → Prop
  | none : σ.owner = Option.none → σ.filler = Option.none → version = Option.none →
      Leased σ version Option.none
  | i {l : Content} : l.lease = .i → σ.owner = Option.none → σ.filler = some l.leaseValue →
      version = Option.none → Leased σ version (some l)
  | q {l : Content} (tid : Bytes) : l.lease = .qRef ∨ l.lease = .qInc →
      σ.owner = some ⟨tid, l.leaseValue, version.map bytesOf⟩ → σ.filler = Option.none →
      Leased σ version (some l)

/-- The records of a key are those of a cell. -/
structure Cell.Of (x : KeyState) (σ : Cell) : Prop where
  value : x.value.map bytesOf = σ.value
  lease : σ.Leased x.version x.lease

section Cells

variable {σ : Cell} {x : KeyState} {now exp : Nat} {version : Option Content} {o : Option Content}

theorem Cell.Leased.any_iff (h : σ.Leased version o) :
    (o.any fun l => l.lease = .i && l.leaseValue = token) = true ↔ σ.filler = some token := by
  cases h with
  | none _ hf _ => simp [hf]
  | i hl _ hf _ => simp [hl, hf]
  | q _ hl _ hf => rcases hl with hl | hl <;> simp [hl, hf]

theorem Cell.Leased.closed_iff (h : σ.Leased version o) : σ.Closed ↔ o ≠ Option.none := by
  cases h with
  | none ho hf _ => simp [Closed, ho, hf]
  | i _ _ hf _ => simp [Closed, hf]
  | q _ _ ho _ => simp [Closed, ho]

/-- A key without a Q lease has no owner and no pending version. -/
theorem Cell.Leased.unowned (h : σ.Leased version o)
    (hq : o.filter Content.hasQLease = Option.none) :
    σ.owner = Option.none ∧ version = Option.none := by
  cases h with
  | none ho _ hv => exact ⟨ho, hv⟩
  | i _ ho _ hv => exact ⟨ho, hv⟩
  | q _ hl =>
    rcases hl with hl | hl <;> simp [Content.hasQLease, hl] at hq

/-- A key with a Q lease has an owner. -/
theorem Cell.Leased.owned {l : Content} (h : σ.Leased version (some l)) (hl : l.lease ≠ .i) :
    (l.lease = .qRef ∨ l.lease = .qInc) ∧ σ.filler = Option.none ∧
      ∃ tid, σ.owner = some ⟨tid, l.leaseValue, version.map bytesOf⟩ := by
  cases h with
  | i hi => exact absurd hi hl
  | q tid hl ho hf => exact ⟨hl, hf, tid, ho⟩

theorem granted_of_lt {p : UInt8} (hlasts : now < exp) : KeyState.granted now exp kind token p =
      some { data := decimal token, exptime := exp, lease := kind, p := p } := by
  simp [KeyState.granted, filter_some, Content.expired, hlasts]

/-- A transaction becomes the owner. -/
theorem Cell.Of.quarantine (h : σ.Of x) (hkind : kind = .qRef ∨ kind = .qInc)
    (hversion : x.version = none) (hne : ∀ v, x.value = some v → v.data ≠ []) (hlasts : now < exp) :
    Cell.Of (x.quarantine now exp kind token) (σ.take t token σ.value) := by
  have hcopied : (x.copied now exp).map bytesOf = σ.value := by
    rw [← h.value]
    cases hv : x.value with
    | none => rw [KeyState.copied_none hv, hversion, map_none]
    | some v =>
      rw [KeyState.copied_some hv, if_neg (hne v hv), filter_some]
      simp [Content.expired, hlasts, bytesOf]
  refine ⟨h.value, ?_⟩
  rw [KeyState.quarantine, granted_of_lt hlasts]
  refine .q t hkind ?_ rfl
  rw [Cell.take, hcopied]
  rfl

/-- The owner changes its pending value. -/
theorem Cell.Of.updated {l : Content} (h : σ.Of x) (hl : x.lease = some l) (hi : l.lease ≠ .i)
    (hf : ∀ y, bytesOf (f y) = f' (bytesOf y)) : Cell.Of (x.updated f) (σ.pend (·.map f')) := by
  obtain ⟨hkind, hfiller, tid, ho⟩ := (hl ▸ h.lease).owned hi
  refine ⟨h.value, ?_⟩
  rw [KeyState.updated, hl]
  refine .q tid hkind ?_ hfiller
  rw [Cell.pend, ho, Option.map_some, Option.map_map, Option.map_map]
  simp [Function.comp_def, hf]

/-- A transaction becomes the owner and changes the pending value. -/
theorem Cell.Of.increment (h : σ.Of x) (hversion : x.version = none)
    (hne : ∀ v, x.value = some v → v.data ≠ []) (hlasts : now < exp)
    (hf : ∀ y, bytesOf (f y) = f' (bytesOf y)) :
    Cell.Of (x.increment now exp token f) (σ.take t token (σ.value.map f')) := by
  have hq : Cell.Of (x.quarantine now exp .qInc token) (σ.take t token σ.value) :=
    h.quarantine (.inr rfl) hversion hne hlasts
  cases hv : x.value with
  | none =>
    have hnone : σ.value = none := by rw [← h.value, hv, map_none]
    rw [KeyState.increment_none hv]
    rw [hnone] at hq ⊢
    exact hq
  | some v =>
    rw [KeyState.increment_some hv]
    have hres : Cell.Of ((x.quarantine now exp .qInc token).updated f)
        ((σ.take t token σ.value).pend (·.map f')) := hq.updated (granted_of_lt hlasts) nofun hf
    exact hres

/-- The lease of an owner. -/
theorem Cell.Leased.of_owner {own : Owner} (h : σ.Leased version o) (ho : σ.owner = some own) :
    ∃ l, o = some l ∧ (l.lease = .qRef ∨ l.lease = .qInc) ∧ own.token = l.leaseValue ∧
      own.pending = version.map bytesOf ∧ σ.filler = Option.none := by
  cases h with
  | none ho' =>
    rw [ho] at ho'
    cases ho'
  | i _ ho' =>
    rw [ho] at ho'
    cases ho'
  | q tid hkind ho' hf =>
    rw [ho] at ho'
    cases ho'
    exact ⟨_, rfl, hkind, rfl, rfl, hf⟩

section

variable (h : σ.Of x)

include h

/-- The owner replaces its pending value. -/
theorem Cell.Of.swap {own : Owner} (ho : σ.owner = some own) (hne : v.data ≠ [])
    (hlasts : now < exp) :
    Cell.Of (x.swap now exp own.token v) (σ.pend fun _ => some (bytesOf v)) := by
  obtain ⟨l, hl, hkind, htoken, -, hf⟩ := h.lease.of_owner ho
  have hany : (x.lease.any fun l => l.leaseValue = own.token) = true := by simp [hl, htoken]
  rw [KeyState.swap, if_pos ⟨hne, hany⟩, hl]
  refine ⟨h.value, .q own.tid hkind ?_ hf⟩
  rw [Cell.pend, ho, filter_some]
  simp [Content.expired, hlasts, bytesOf, htoken]

/-- A swap with a token that is not the one of the lease. -/
theorem Cell.Of.swapRefused (hno : (x.lease.any fun l => l.leaseValue = token) = false) :
    Cell.Of (x.swap now exp token v) σ := by
  rw [KeyState.swap, if_neg (by simp [hno])]
  exact h

/-- The owner commits. -/
theorem Cell.Of.commit {pending cfgId : Int} (ht : σ.OwnedBy t)
    (hne : ∀ pv, x.version = some pv → pv.data ≠ []) :
    Cell.Of (x.commit now exp t pending cfgId) (σ.commit t) := by
  obtain ⟨own, ho, rfl⟩ := ht
  obtain ⟨l, hl, hkind, -, hpending, hf⟩ := h.lease.of_owner ho
  have hq : l.hasQLease = true := by
    rcases hkind with hkind | hkind <;> rw [Content.hasQLease, hkind] <;> rfl
  have hinv : l.lease ≠ .qInv := by
    rcases hkind with hkind | hkind <;> rw [hkind] <;> simp
  have hcell : σ.commit own.tid = { σ with value := own.pending, owner := none } := by
    rw [Cell.commit, ho]
    exact if_pos rfl
  rw [hcell, KeyState.commit, hl, filter_some, hq, if_pos rfl, elim_some, KeyState.committed,
    KeyState.droppedLease, if_pos hinv]
  refine ⟨?_, .none rfl hf rfl⟩
  dsimp only
  rw [hpending, KeyState.applied]
  cases hv : x.version with
  | none => rfl
  | some pv =>
    rw [if_neg (by simp [hinv])]
    dsimp only
    rw [if_neg (hne pv hv)]
    rfl

/-- The owner gives up. -/
theorem Cell.Of.release (ht : σ.OwnedBy t) : Cell.Of x.release (σ.release t) := by
  obtain ⟨own, ho, rfl⟩ := ht
  obtain ⟨l, hl, hkind, -, -, hf⟩ := h.lease.of_owner ho
  have hq : x.lease.any Content.hasQLease = true := by
    rcases hkind with hkind | hkind <;> simp [hl, Content.hasQLease, hkind]
  have hcell : σ.release own.tid = { σ with owner := none } := by
    rw [Cell.release, ho]
    exact if_pos rfl
  rw [hcell, KeyState.release, if_pos hq]
  exact ⟨h.value, .none rfl hf rfl⟩

/-- A reader of a key without a value and a lease is granted an I lease. -/
theorem Cell.Of.grant (hv : x.value = none) (hl : x.lease = none) (hlasts : now < exp) :
    Cell.Of (x.iqget now exp token) { σ with filler := some (readBack token) } := by
  have hleased := h.lease
  rw [hl] at hleased
  have hstate : x.iqget now exp token =
      ⟨x.value, KeyState.granted now exp .i token x.indicator, x.version, x.marker⟩ := by
    rw [KeyState.iqget, hv, hl]
  rw [hstate, granted_of_lt hlasts]
  cases hleased with
  | none ho _ hversion => exact ⟨h.value, .i rfl ho rfl hversion⟩

/-- Other readers change nothing that the machine keeps. -/
theorem Cell.Of.iqget (hx : x.value ≠ none ∨ x.lease ≠ none) :
    Cell.Of (x.iqget now exp token) σ := by
  rw [KeyState.iqget]
  split
  · exact h
  · next hv hl => exact absurd hx (by simp [hv, hl])
  · next l hv hl =>
    refine ⟨h.value, ?_⟩
    have hleased := h.lease
    rw [hl] at hleased
    cases hleased with
    | i hi ho hf hversion => exact .i hi ho hf hversion
    | q tid hkind ho hf => exact .q tid hkind ho hf

/-- A client that does not present the token, or sends nothing, changes nothing. -/
theorem Cell.Of.reject (hno : ¬ (v.data ≠ [] ∧ σ.filler = some token)) :
    Cell.Of (x.iqset now token v) σ := by
  rw [KeyState.iqset, if_neg fun hand => hno ⟨hand.1, h.lease.any_iff.mp hand.2⟩]
  exact h

/-- A client that presents the token fills the key. -/
theorem Cell.Of.fill (hf : σ.filler = some token) (hne : v.data ≠ [])
    (hexp : v.expired now = false) :
    Cell.Of (x.iqset now token v) { σ with value := some (bytesOf v), filler := none } := by
  have hunowned : σ.owner = none ∧ x.version = none := by
    have hleased := h.lease
    cases hlease : x.lease with
    | none =>
      rw [hlease] at hleased
      cases hleased with
      | none ho _ hversion => exact ⟨ho, hversion⟩
    | some l =>
      rw [hlease] at hleased
      cases hleased with
      | i _ ho _ hversion => exact ⟨ho, hversion⟩
      | q _ _ _ hf' =>
        rw [hf] at hf'
        cases hf'
  rw [KeyState.iqset, if_pos ⟨hne, h.lease.any_iff.mpr hf⟩]
  refine ⟨?_, .none hunowned.1 rfl hunowned.2⟩
  have hkept : Content.expired now { v with p := if x.marker.isSome then 1 else v.p } = false :=
    hexp
  rw [filter_some, hkept]
  rfl

end

end Cells

/-! ## The server -/

/-- What the machine sees of a step. -/
def obs : Event → Option Op
  | .line _ (.qaread _ key readValue _ tid) (.reply (.qaread it token _)) =>
    some (.qaread tid key (readValue ≠ 0) (it.map fun it => bytesOf it.content) token)
  | .line _ (.commit _ _ tid _) (.reply .ok) => some (.commit tid true)
  | .line _ (.commit _ _ tid _) (.reply .notFound) => some (.commit tid false)
  | .line _ (.release tid) (.reply .ok) => some (.release tid true)
  | .line _ (.release tid) (.reply .notFound) => some (.release tid false)
  | .line _ (.iqget _ key token) (.reply (.value it)) =>
    some (.iqget key token (.value it.data it.dataflags))
  | .line _ (.iqget _ key token) (.reply (.lvalue newToken _)) =>
    some (.iqget key token (.lvalue newToken))
  | .line _ (.iqget _ key token) (.reply .novalue) => some (.iqget key token .novalue)
  | .line _ (.get _ _ keys) (.reply (.values its)) =>
    some (.get keys (its.map fun it => (it.data, it.dataflags)))
  | .body _ (.update (.iqset token) _ _ key flags _ vlen) _ body .stored =>
    some (.iqset key token (body.take vlen) flags true)
  | .body _ (.update (.iqset token) _ _ key flags _ vlen) _ body .notStored =>
    some (.iqset key token (body.take vlen) flags false)
  | .body _ (.swap _ _ key flags _ vlen token) _ body .stored =>
    some (.swap key token (body.take vlen) flags true)
  | .body _ (.swap _ _ key flags _ vlen token) _ body .abort =>
    some (.swap key token (body.take vlen) flags false)
  | .body _ (.iqConcat append _ key vlen tid) _ body (.okPending _ token) =>
    some (.concat append tid key (body.take vlen) true token)
  | .body _ (.iqConcat append _ key vlen tid) _ body (.okNovaluePending _ token) =>
    some (.concat append tid key (body.take vlen) false token)
  | .body _ (.iqConcat _ _ key _ tid) _ _ .abort => some (.abort tid key)
  | _ => none

/-- What a cell stands for. -/
def abstraction : Abstraction Cell where
  empty := {}
  Of σ x := σ.Of x
  Lists σ t := σ.OwnedBy t
  of_empty := ⟨rfl, .none rfl rfl rfl⟩
  not_lists_empty _ := by
    rintro ⟨o, ho, -⟩
    cases ho

/-! ## The simulation -/

/-- The requests of readers, and of transactions that write through. -/
def writesThrough : Request → Bool
  | .get .. | .iqget .. | .update (.iqset _) .. | .qaread .. | .swap .. | .iqConcat .. | .commit ..
  | .release .. => true
  | _ => false

/-- A step of such a request, with enough memory and with nothing expiring.  An owner presents its
token to `qaread` and nobody else does, and the body of a `swap` is not empty. -/
structure WritingThrough (c : Settings) (N : Naming) (m : Moment) : Prop extends Steady c m where
  iq : m.label.Iq N
  request : ∀ req, m.label.request = some req → writesThrough req = true
  alive : ∀ conn cmd cfg frag key flags exptime vlen p body r,
    m.label = .body conn (.update cmd cfg frag key flags exptime vlen) p body r →
      p.item.content.expired m.pre.server.now = false
  own : ∀ conn cfg key readValue token tid out,
    m.label = .line conn (.qaread cfg key readValue token tid) out →
      ∀ l, m.pre.server.live (leaseKey key) = some l → l.hasQLease = true →
        (l.leaseValue = token ↔ key ∈ m.pre.server.listed tid)
  body : ∀ conn cfg frag key flags exptime vlen token p body r,
    m.label = .body conn (.swap cfg frag key flags exptime vlen token) p body r →
    body.take vlen ≠ []

/-- The condition under which a step keeps to the machine: a `swap` does not present the token of an
I lease, and identifiers are not cut. -/
structure Proper (m : Moment) : Prop where
  swap : ∀ conn cfg frag key flags exptime vlen token p body r,
    m.label = .body conn (.swap cfg frag key flags exptime vlen token) p body r →
      ∀ l, m.pre.server.live (leaseKey key) = some l → l.lease = .i → l.leaseValue ≠ token
  short : ∀ req, m.label.request = some req → ∀ t ∈ req.filers, t.length < 256

section Simulation

variable {c : Settings} {N : Naming} {h : History} {σ : State}

theorem obs_refused (hr : r ∈ Reply.refusals) : obs (.line conn req (.reply r)) = none := by
  simp only [Reply.refusals, List.mem_cons, List.not_mem_nil, or_false] at hr
  rcases hr with rfl | rfl | rfl <;> cases req <;> rfl

theorem obs_nread : obs (.line conn req (.nread p)) = none := by
  cases req <;> rfl

theorem obs_badBody {body : Bytes} : obs (.body conn req p body .clientError) = none := by
  cases req with
  | update cmd => cases cmd <;> rfl
  | _ => rfl

theorem isTurn_of_writesThrough (h : writesThrough req = true) : req.isTurn = true := by
  cases req with
  | update cmd => cases cmd <;> first | rfl | cases h
  | get | iqget | qaread | swap | iqConcat | commit | release => rfl
  | _ => cases h

theorem filers_subset_ids (h : writesThrough req = true) (ht : t ∈ req.filers)
    (hlen : t.length < 256) :
    t ∈ req.ids := by
  cases req with
  | qaread => exact ht
  | iqConcat =>
    obtain rfl := List.mem_singleton.mp ht
    exact List.mem_singleton.mpr (u8Name_of_lt hlen).symm
  | get | iqget | update | swap | commit | release => cases ht
  | _ => cases h

variable {s s' : Server} {k : Bytes}

/-- A reader asks for a key. -/
theorem iqget_answers {r : IqgetResult} (hR : abstraction.Represents N s σ) (hs : s.Calm c N)
    (hk : N.isKey k) (hanswer : (s.keyState k).IqgetAnswers s.token token r)
    (h : s.Steps k (KeyState.iqget s.now (s.leaseExpiry c) s.token) s') :
    ∃ σ', abstraction.Represents N s' σ' ∧
      machine.Answers σ (obs (.line conn (.iqget cfg k token) (.reply (ascIqgetReply r)))) σ' := by
  have hx : (σ k).Of (s.keyState k) := hR.key k hk
  rcases hanswer.split with ⟨it, hreply, hv⟩ | ⟨p, hreply, hv, hl⟩ | ⟨hreply, l, hl, href, htoken⟩ |
    ⟨hreply, hv, hl⟩
  · refine ⟨σ, hR.stays hk h (hx.iqget (.inl (by simp [hv]))), ?_⟩
    rw [hreply]
    refine Step.hit token ?_
    rw [← hx.value, hv]
    rfl
  · have hvalue : (σ k).value = none := by rw [← hx.value, hv, map_none]
    refine ⟨_, hR.steps hk h (hx.grant hv hl hs.lasts) fun _ => Iff.rfl, ?_⟩
    rw [hreply]
    exact Step.grant token s.token hvalue fun hclosed => hx.lease.closed_iff.mp hclosed hl
  · obtain ⟨-, -, tid, ho⟩ := (hl ▸ hx.lease).owned (by rw [href]; nofun)
    refine ⟨σ, hR.stays hk h (hx.iqget (.inr (by simp [hl]))), ?_⟩
    rw [hreply, ← htoken]
    exact Step.own ho
  · have hvalue : (σ k).value = none := by rw [← hx.value, hv, map_none]
    have hclosed : (σ k).Closed := hx.lease.closed_iff.mpr hl
    refine ⟨σ, hR.stays hk h (hx.iqget (.inr hl)), ?_⟩
    rcases hreply with hreply | ⟨p, hreply⟩
    · rw [hreply]
      exact Step.novalue token hvalue hclosed
    · rw [hreply]
      exact Step.miss token hvalue hclosed

theorem ownedBy_take {t' : Bytes} {pending : Option (Bytes × Nat)} (h : x.owner = none) :
    (x.take t token pending).OwnedBy t' ↔ t' = t ∨ x.OwnedBy t' := by
  simp [Cell.OwnedBy, Cell.take, h, eq_comm]

theorem ownedBy_pend {f : Option (Bytes × Nat) → Option (Bytes × Nat)} : (x.pend f).OwnedBy t ↔
      x.OwnedBy t := by
  obtain ⟨value, owner, filler⟩ := x
  cases owner <;> simp [Cell.OwnedBy, Cell.pend]

section

variable (hR : abstraction.Represents N s σ)

include hR

/-- A transaction becomes the owner of a key. -/
theorem qareadGrants_answers {r : QareadResult} (hs : s.Calm c N) (hk : N.isKey k)
    (ht : N.isTid tid) (hnone : (s.keyState k).lease.filter Content.hasQLease = none)
    (hgrants : (s.keyState k).QareadGrants s.token r)
    (h : s.Files c k tid (KeyState.quarantine s.now (s.leaseExpiry c) .qRef s.token) s') :
    ∃ σ', abstraction.Represents N s' σ' ∧ machine.Answers σ
      (obs (.line conn (.qaread cfg k readValue token tid)
      (.reply (.qaread (if readValue = 0 then none else r.it) r.newLeaseToken r.pending)))) σ' := by
  have hx : (σ k).Of (s.keyState k) := hR.key k hk
  obtain ⟨ho, hversion⟩ := hx.lease.unowned hnone
  have hx' : ((σ k).take tid s.token (σ k).value).Of _ :=
    hx.quarantine (.inl rfl) hversion (hs.value_ne_nil (N.key_unprefixed hk)) hs.lasts
  refine ⟨_, hR.files hs hk ht h hx' fun t' => ownedBy_take ho, ?_⟩
  have hit : (if readValue = 0 then none else r.it).map (fun it => bytesOf it.content) =
      if decide (readValue ≠ 0) = true then (σ k).value else none := by
    by_cases hread : readValue = 0
    · simp [hread]
    · rw [if_neg hread, if_pos (by simp [hread]), ← hx.value]
      exact hgrants.it
  show Step σ (.qaread tid k (readValue ≠ 0) _ r.newLeaseToken) _
  rw [hit, hgrants.newLeaseToken]
  exact .qaread tid _ s.token ho

/-- A transaction asks for a key that has an owner. -/
theorem qareadFinds_answers {r : QareadResult} {l : Content} (hk : N.isKey k)
    (ht : N.isTid tid) (hl : (s.keyState k).lease = some l) (hq : l.hasQLease = true)
    (hown : l.leaseValue = token ↔ k ∈ s.listed tid) (hfinds : (s.keyState k).QareadFinds token l r)
    (h : s.Same s') :
    ∃ σ', abstraction.Represents N s' σ' ∧ machine.Answers σ
      (obs (.line conn (.qaread cfg k readValue token tid)
      (.reply (.qaread (if readValue = 0 then none else r.it) r.newLeaseToken r.pending)))) σ' := by
  have hx : (σ k).Of (s.keyState k) := hR.key k hk
  have hi : l.lease ≠ .i := by
    intro hi
    simp [Content.hasQLease, hi] at hq
  obtain ⟨hkind, -, own, ho⟩ := (hl ▸ hx.lease).owned hi
  have hlisted : k ∈ s.listed tid ↔ (σ k).OwnedBy tid := hR.listed k tid hk ht
  refine ⟨σ, hR.same h.record, ?_⟩
  show Step σ (.qaread tid k (readValue ≠ 0) _ r.newLeaseToken) σ
  rw [KeyState.QareadFinds] at hfinds
  by_cases htoken : l.leaseValue = token
  · rw [if_pos ⟨hkind, htoken⟩] at hfinds
    obtain ⟨hnew, -, hit⟩ := hfinds
    obtain ⟨own', ho', rfl⟩ := hlisted.mp (hown.mp htoken)
    rw [ho] at ho'
    cases ho'
    have hread : (if readValue = 0 then none else r.it).map (fun it => bytesOf it.content) =
        if decide (readValue ≠ 0) = true then (s.keyState k).version.map bytesOf else none := by
      by_cases hread : readValue = 0
      · simp [hread]
      · rw [if_neg hread, if_pos (by simp [hread]), ← hit, Option.map_map]
        rfl
    rw [hread, hnew, ← htoken]
    exact .qareadOwn _ ho
  · rw [if_neg fun hand => htoken hand.2] at hfinds
    obtain ⟨hnew, -, hit⟩ := hfinds
    rw [hit, ite_self, map_none, hnew]
    refine .qareadRefused _ (by simp [ho]) fun howned => htoken (hown.mpr (hlisted.mpr howned))

/-- The body of a `swap` arrives. -/
theorem swap_answers {frag exptime : Int} {body : Bytes} (hs : s.Calm c N) (hk : N.isKey k)
    (hne : body.take vlen ≠ []) (hproper : ∀ l, s.live (leaseKey k) = some l → l.lease = .i →
      l.leaseValue ≠ token) (hdata : v.data = body.take vlen) (hflags : v.dataflags = flags)
    (hstored : r = .stored ↔ ((s.keyState k).lease.any fun l => l.leaseValue = token) = true)
    (h : s.Steps k (KeyState.swap s.now (s.leaseExpiry c) token v) s') :
    ∃ σ', abstraction.Represents N s' σ' ∧
      machine.Answers σ (obs (.body conn (.swap cfg frag k flags exptime vlen token) p body r))
      σ' := by
  have hx : (σ k).Of (s.keyState k) := hR.key k hk
  cases hany : (s.keyState k).lease.any fun l => l.leaseValue = token with
  | true =>
    obtain ⟨l, hl, htoken⟩ := (any_eq_true _ _).mp hany
    have hi : l.lease ≠ .i := by
      obtain ⟨it, hit, rfl⟩ := map_eq_some_iff.mp hl
      exact fun hi => hproper it hit hi (of_decide_eq_true htoken)
    obtain ⟨-, -, own, ho⟩ := (hl ▸ hx.lease).owned hi
    obtain rfl : l.leaseValue = token := of_decide_eq_true htoken
    obtain rfl := hstored.mpr hany
    refine ⟨_, hR.steps hk h (hx.swap ho (hdata ▸ hne) hs.lasts) fun _ => ownedBy_pend, ?_⟩
    rw [bytesOf, hdata, hflags]
    exact Step.swap flags ho hne
  | false =>
    refine ⟨σ, hR.stays hk h (hx.swapRefused hany), ?_⟩
    rw [hany] at hstored
    cases r with
    | stored => cases hstored.mp rfl
    | abort =>
      refine Step.swapRefused _ flags fun own ho htoken => ?_
      obtain ⟨l, hl, -, htoken', -⟩ := hx.lease.of_owner ho
      simp [hl, ← htoken', htoken] at hany
    | _ => rfl

/-- The body of an `iqappend` or an `iqprepend` arrives. -/
theorem concat_answers {append : Bool} {body : Bytes} {r : IqDeltaResult} (hs : s.Calm c N)
    (hk : N.isKey k) (ht : N.isTid tid)
    (h : Increments c k tid (Content.concat append (body.take vlen)) (fun _ => .lease) s r s') :
    ∃ σ', abstraction.Represents N s' σ' ∧
      machine.Answers σ (obs (.body conn (.iqConcat append cfg k vlen tid) p body
        (ascIqDeltaReply r))) σ' := by
  have hx : (σ k).Of (s.keyState k) := hR.key k hk
  have hlisted : k ∈ s.listed tid ↔ (σ k).OwnedBy tid := hR.listed k tid hk ht
  have hf : ∀ y, bytesOf (Content.concat append (body.take vlen) y) =
      extend append (body.take vlen) (bytesOf y) := fun y => by
    cases append <;> rfl
  cases h with
  | grants hnone hgrants hfiles =>
    have hunq : (s.keyState k).lease.filter Content.hasQLease = none := by
      cases hlease : (s.keyState k).lease with
      | none => rfl
      | some l =>
        rw [hlease] at hnone
        have hi : l.lease = .i := by simpa [filter_some] using hnone
        simp [filter_some, Content.hasQLease, hi]
    obtain ⟨ho, hversion⟩ := hx.lease.unowned hunq
    have hx' : ((σ k).take tid s.token ((σ k).value.map (extend append (body.take vlen)))).Of _ :=
      hx.increment hversion (hs.value_ne_nil (N.key_unprefixed hk)) hs.lasts hf
    refine ⟨_, hR.files hs hk ht hfiles hx' fun t' => ownedBy_take ho, ?_⟩
    have hstep := Step.concat append tid (body.take vlen) s.token ho
    have hvalue := hx.value
    obtain ⟨status, pending, token⟩ := r
    obtain rfl : token = s.token := hgrants.newLeaseToken
    cases hv : (s.keyState k).value with
    | none =>
      obtain rfl : status = .leaseNoValue := hgrants.statusNone hv
      rw [hv, map_none] at hvalue
      rw [← hvalue] at hstep ⊢
      exact hstep
    | some v =>
      obtain ⟨_, -, hstatus⟩ := hgrants.status v hv
      obtain rfl : status = .lease := hstatus
      rw [hv, map_some] at hvalue
      rw [← hvalue] at hstep ⊢
      exact hstep
  | owns hl hi hmem hstatus htoken hsteps =>
    obtain ⟨own, ho, rfl⟩ := hlisted.mp hmem
    obtain ⟨l', hl', -, hown, hpending, -⟩ := hx.lease.of_owner ho
    rw [hl] at hl'
    cases hl'
    refine ⟨_, hR.steps hk hsteps (hx.updated hl hi hf) fun _ => ownedBy_pend, ?_⟩
    have hstep := Step.concatOwn append (body.take vlen) ho
    obtain ⟨status, pending, token⟩ := r
    obtain rfl : token = own.token := htoken.trans hown.symm
    cases hv : (s.keyState k).version with
    | none =>
      rw [hv] at hstatus hpending
      obtain rfl : status = .leaseNoValue := hstatus
      rw [hpending] at hstep
      exact hstep
    | some pv =>
      rw [hv] at hstatus hpending
      obtain rfl : status = .lease := hstatus
      rw [hpending] at hstep
      exact hstep
  | aborts hl hi hmem hstatus hsame =>
    obtain ⟨-, -, own, ho⟩ := (hl ▸ hx.lease).owned hi
    refine ⟨σ, hR.same hsame.record, ?_⟩
    obtain ⟨status, pending, token⟩ := r
    obtain rfl : status = .abort := hstatus
    exact Step.abort (by simp [ho]) fun howned => hmem (hlisted.mpr howned)

end

/-- A step of the server is a step of the machine, or the machine does not see it. -/
theorem step_answers (hr : IqRun c N h m.pre) (hstep : World.Step c m.pre m.label m.post)
    (hm : WritingThrough c N m) (hp : Proper m) (hR : abstraction.Represents N m.pre.server σ) :
    ∃ σ', abstraction.Represents N m.post.server σ' ∧ machine.Answers σ (obs m.label) σ' := by
  have hs := hr.calm hm.heap hm.lasts
  obtain ⟨⟨s, conns⟩, e, ⟨s', conns'⟩⟩ := m
  dsimp only at hr hstep hs hR ⊢
  have hturn : ∀ req, e.request = some req → Turn c s e s' := by
    intro req hreq
    have hwrites := hm.request req hreq
    refine hstep.turn hr hm.iq hm.heap hm.lasts hreq (isTurn_of_writesThrough hwrites)
      (fun t ht => ?_) ?_
    · have hlen : t.length < 256 := hp.short req hreq t ht
      have htid : N.isTid t := hm.iq.ids req hreq t (filers_subset_ids hwrites ht hlen)
      exact ⟨hlen, N.tid_unprefixed htid, fun hkey => N.disjoint hkey htid⟩
    · rintro _ _ _ _ _ rfl
      cases hwrites
  have hsame : obs e = none → (∀ n, s'.record n = s.record n) →
      ∃ σ', abstraction.Represents N s' σ' ∧ machine.Answers σ (obs e) σ' := by
    intro hobs hrec
    rw [hobs]
    exact ⟨σ, hR.same hrec, rfl⟩
  cases e with
  | tick | memory | hangup => exact hsame rfl (hm.record hstep rfl)
  | line conn req out =>
    have hwrites := hm.request req rfl
    have hkeys := hm.iq.keys req rfl
    have hids := hm.iq.ids req rfl
    cases hturn req rfl with
    | refused hmem h => exact hsame (obs_refused hmem) h.record
    | wait h => exact hsame obs_nread h.record
    | @get _ _ _ keys its _ hits h =>
      refine ⟨σ, hR.same h.record, ?_⟩
      show Step σ (.get keys (its.map fun it => (it.data, it.dataflags))) σ
      rw [map_data_of_get hits fun k hk => (hR.key k (hkeys k hk)).value]
      exact .get keys
    | @iqget _ _ k token r _ hanswer h =>
      exact iqget_answers hR hs (hkeys k (by simp [Request.keys])) hanswer h
    | @qareadFinds _ _ _ k tid token l r _ hl hq hfinds h =>
      refine qareadFinds_answers hR (hkeys k (by simp [Request.keys]))
        (hids tid (by simp [Request.ids])) hl
        hq ?_ hfinds h
      obtain ⟨it, hit, rfl⟩ := map_eq_some_iff.mp hl
      exact hm.own _ _ _ _ _ _ _ rfl it hit hq
    | @qareadGrants _ _ _ k tid token r _ hnone hgrants h =>
      exact qareadGrants_answers hR hs (hkeys k (by simp [Request.keys]))
        (hids tid (by simp [Request.ids]))
        hnone hgrants h
    | @commit _ _ _ pending tid r _ hreply hend =>
      have ht : N.isTid tid := hids tid (by simp [Request.ids])
      refine ⟨_, hR.ended hs ht hend (fun k hk howned => (hR.key k hk).commit howned ?_)
        (fun _ _ => ownedBy_commit) fun _ => commit_of_not_ownedBy, ?_⟩
      · intro pv hpv
        obtain ⟨it, hit, rfl⟩ := map_eq_some_iff.mp hpv
        exact (hs.version k it hit).2
      · have hfound : s.live tid ≠ none ↔ ∃ key, (σ key).OwnedBy tid := hR.found tid ht
        cases hlive : s.live tid <;> rw [hlive] at hreply hfound <;> subst hreply
        · exact .commit tid false (by simpa using hfound)
        · exact .commit tid true (by simpa using hfound)
    | @release _ tid r _ hreply hend =>
      have ht : N.isTid tid := hids tid (by simp [Request.ids])
      refine ⟨_, hR.ended hs ht hend (fun k hk howned => (hR.key k hk).release howned)
        (fun _ _ => ownedBy_release) fun _ => release_of_not_ownedBy, ?_⟩
      have hfound : s.live tid ≠ none ↔ ∃ key, (σ key).OwnedBy tid := hR.found tid ht
      cases hlive : s.live tid <;> rw [hlive] at hreply hfound <;> subst hreply
      · exact .release tid false (by simpa using hfound)
      · exact .release tid true (by simpa using hfound)
    | _ => cases hwrites
  | body conn req p body r =>
    have hwrites := hm.request req rfl
    have hkeys := hm.iq.keys req rfl
    have hids := hm.iq.ids req rfl
    cases hturn req rfl with
    | badBody h => exact hsame obs_badBody h.record
    | @iqset _ flags vlen _ _ _ k token _ _ v _ _ hdata hflags _ hexp hstored h =>
      have hk : N.isKey k := hkeys k (by simp [Request.keys])
      have hx : (σ k).Of (s.keyState k) := hR.key k hk
      have halive : v.expired s.now = false := by
        rw [Content.expired, hexp]
        exact hm.alive _ _ _ _ _ _ _ _ _ _ _ rfl
      rw [hx.lease.any_iff, hdata] at hstored
      by_cases hfill : body.take vlen ≠ [] ∧ (σ k).filler = some token
      · obtain rfl := hstored.mpr hfill
        refine ⟨_, hR.steps hk h (hx.fill hfill.2 (hdata ▸ hfill.1) halive) fun _ => Iff.rfl, ?_⟩
        rw [bytesOf, hdata, hflags]
        exact .fill flags hfill.2 hfill.1
      · refine ⟨σ, hR.stays hk h (hx.reject (hdata ▸ hfill)), ?_⟩
        cases r with
        | stored => exact absurd (hstored.mp rfl) hfill
        | notStored => exact .reject flags fun hand => hfill hand.symm
        | _ => rfl
    | @swap _ flags vlen _ _ _ k token _ _ v _ _ hdata hflags hstored h =>
      exact swap_answers hR hs (hkeys k (by simp [Request.keys]))
        (hm.body _ _ _ _ _ _ _ _ _ _ _ rfl)
        (hp.swap _ _ _ _ _ _ _ _ _ _ _ rfl) hdata hflags hstored h
    | @iqConcat _ vlen _ _ k tid _ _ _ _ h =>
      have hlen : tid.length < 256 := hp.short _ rfl tid (by simp [Request.filers])
      exact concat_answers hR hs (hkeys k (by simp [Request.keys]))
        (hids tid (by simp [Request.ids, u8Name_of_lt hlen])) h

theorem simulation (c : Settings) (N : Naming) :
    System.Simulation ((service c).restrict fun m => WritingThrough c N m ∧ Proper m) machine obs
      fun w σ => abstraction.Represents N w.server σ := by
  refine .of_answers ?_ ?_
  · rintro w rfl
    exact ⟨_, rfl, .start abstraction N⟩
  · rintro w e w' σ ⟨h, hr⟩ hstep hR
    obtain ⟨hr, hm⟩ := System.run_restrict_iff.mp hr
    have hrun : IqRun c N h w := ⟨hr, fun m hmem => (hm m hmem).1.iq⟩
    exact step_answers (m := ⟨w, e, w'⟩) hrun hstep.1 hstep.2.1 hstep.2.2 hR

/-- Every run of readers and of transactions that write through, in which no `swap` presents the
token of an I lease and no identifier is cut, is a run of the machine, with the same answers. -/
theorem writeThrough_refines {w : World} (hr : (service c).Run h w)
    (hm : ∀ m ∈ h, WritingThrough c N m) (hp : ∀ m ∈ h, Proper m) :
    ∃ ops σ, machine.Run ops σ ∧ abstraction.Represents N w.server σ ∧
      ops.map Transition.label = System.observed obs h :=
  (simulation c N).run (System.run_restrict_iff.mpr ⟨hr, fun m hmem => ⟨hm m hmem, hp m hmem⟩⟩)

end Simulation

/-- The test that a step is one of a transaction that writes through, for the listed names. -/
def writingThrough (c : Settings) (keys tids : List Bytes) (m : Moment) : Bool :=
  m.label.iqNamed keys tids && m.label.request.any writesThrough && m.pre.server.heap = [] &&
    m.pre.server.now < m.pre.server.leaseExpiry c &&
    match m.label with
    | .line _ (.qaread _ key _ token tid) _ => match m.pre.server.live (leaseKey key) with
      | some l => !l.hasQLease || decide (l.leaseValue = token ↔ key ∈ m.pre.server.listed tid)
      | none => true
    | .body _ (.update ..) p _ _ => !p.item.content.expired m.pre.server.now
    | .body _ (.swap _ _ _ _ _ vlen _) _ body _ => !(body.take vlen).isEmpty
    | _ => true

theorem WritingThrough.of_test {c : Settings} {keys tids : List Bytes}
    {hk : ∀ n ∈ keys, Unprefixed n} {ht : ∀ n ∈ tids, Unprefixed n} {hd : ∀ n ∈ keys, n ∉ tids}
    (h : writingThrough c keys tids m = true) :
    WritingThrough c (.ofLists keys tids hk ht hd) m := by
  simp only [writingThrough, Bool.and_eq_true, decide_eq_true_eq] at h
  obtain ⟨⟨⟨⟨hnamed, hwrites⟩, hheap⟩, hlasts⟩, hcase⟩ := h
  obtain ⟨req, hreq, hwrites⟩ := (Option.any_eq_true _ _).mp hwrites
  refine ⟨⟨fun seconds htick => ?_, hheap, hlasts⟩, .of_named hnamed, fun req' hreq' => ?_,
    fun _ _ _ _ _ _ _ _ _ _ _ hlabel => ?_, fun _ _ _ _ _ _ _ hlabel l hl hq => ?_,
    fun _ _ _ _ _ _ _ _ _ _ _ hlabel => ?_⟩
  · rw [htick] at hreq
    cases hreq
  · rw [hreq] at hreq'
    cases hreq'
    exact hwrites
  · rw [hlabel] at hcase
    simpa using hcase
  · rw [hlabel] at hcase
    simp only [hl, hq, Bool.not_true, Bool.false_or, decide_eq_true_eq] at hcase
    exact hcase
  · rw [hlabel] at hcase
    simpa using hcase

/-- The test that no token of an I lease is presented to `swap`, and that no identifier is cut. -/
def proper (m : Moment) : Bool :=
  (m.label.request.all fun req => req.filers.all (·.length < 256)) &&
    match m.label with
    | .body _ (.swap _ _ key _ _ _ token) _ _ _ =>
      (m.pre.server.live (leaseKey key)).all fun l => l.lease ≠ .i || l.leaseValue ≠ token
    | _ => true

theorem Proper.of_test (h : proper m = true) : Proper m := by
  rw [proper, Bool.and_eq_true] at h
  obtain ⟨hshort, hcase⟩ := h
  constructor
  · intro _ _ _ _ _ _ _ _ _ _ _ hlabel l hl hi
    rw [hlabel] at hcase
    simpa [hl, hi] using hcase
  · intro req hreq t ht
    simp only [hreq, Option.all_some, List.all_eq_true, decide_eq_true_eq] at hshort
    exact hshort t ht

/-- A transaction reads a key, replaces its pending value and commits. -/
theorem writeThrough_refines_commit : ∃ (h : History) (w : World),
    (service {}).Run h w ∧ (w.server.keyState [0x6b]).value.map bytesOf = some ([0x76], 0) ∧
    ∃ ops σ, machine.Run ops σ ∧ abstraction.Represents commitNaming w.server σ ∧
      ops.map Transition.label = System.observed obs h := by
  obtain ⟨h, w, hr, hsteps, hvalue⟩ := (playable_run {}).exists_run
    [.line 0 (.qaread 0 [0x6b] 1 0 [0x74]), .line 0 (.swap 0 (-1) [0x6b] 0 0 1 5),
      .body 0 [0x76, 0x0d, 0x0a], .line 0 (.commit 0 (-1) [0x74] 0),
      .line 0 (.get false 0 [[0x6b]])]
    (P := fun h w => (∀ m ∈ h, writingThrough {} [[0x6b]] [[0x74]] m ∧ proper m) ∧
      (w.server.keyState [0x6b]).value.map bytesOf = some ([0x76], 0)) (by decide +kernel)
  exact ⟨h, w, hr, hvalue,
    writeThrough_refines hr (fun m hm => .of_test (hsteps m hm).1) fun m hm =>
      .of_test (hsteps m hm).2⟩

/-- A run of the machine that begins with a read does not go on with a pending value: there is no
owner. -/
theorem not_swap_of_iqget {ops : List (Transition State Op)} {σ : State} {key key' data : Bytes}
    {token' : UInt64} {answer : Answer} {newer : List Op} (hr : machine.Run ops σ) :
    ops.map Transition.label ≠ newer ++
      [.swap key token data flags true, .iqget key' token' answer] := by
  intro hops
  obtain ⟨ops₁, ops₂, rfl, -, hlast⟩ := map_eq_append_iff.mp hops
  obtain ⟨m, ops₃, rfl, hm, hlast⟩ := map_eq_cons_iff.mp hlast
  obtain ⟨m', ops₄, rfl, hm', hlast⟩ := map_eq_cons_iff.mp hlast
  obtain rfl := map_eq_nil_iff.mp hlast
  obtain ⟨hfirst, hswap⟩ := hr.of_suffix
  obtain ⟨σ₁, e, σ₂⟩ := m
  obtain ⟨σ₀, e', σ₁'⟩ := m'
  dsimp only at hfirst hswap hm hm'
  subst hm hm'
  have hnone : (σ₁ key).owner = none := by
    cases hfirst with
    | step hinit hread =>
      cases hinit with
      | init hinit =>
        obtain rfl : σ₀ = _ := hinit
        have hread : Step _ _ σ₁ := hread
        cases hread with
        | grant => by_cases hk : key = key' <;> simp [hk]
        | _ => rfl
  have hswap : Step σ₁ _ σ₂ := hswap
  cases hswap with
  | swap _ ho =>
    rw [hnone] at ho
    cases ho

/-- The test that a reader is told to fill a key and swaps instead. -/
def swapsAfterRead : History → Bool
  | [_, _, b, l, g] => g.label = .line 0 (.iqget 0 [0x6b] 0) (.reply (.lvalue 5 0)) &&
    (obs l.label).isNone && b.label.swaps (.swap 0 (-1) [0x6b] 0 0 1 5) [0x76, 0x0d, 0x0a]
  | _ => false

/-- A reader is told to fill a key and swaps instead.  The transaction that reads the key and
commits has written nothing, and the bytes of the reader are the value. -/
theorem swap_without_owner_not_refined : ∃ (h : History) (w : World),
    (service {}).Run h w ∧ (∀ m ∈ h, WritingThrough {} commitNaming m) ∧
    (w.server.keyState [0x6b]).value.map bytesOf = some ([0x76], 0) ∧
    ¬ ∃ ops σ, machine.Run ops σ ∧ ops.map Transition.label = System.observed obs h := by
  obtain ⟨h, w, hplay, htest⟩ := exists_play {}
    [.line 0 (.iqget 0 [0x6b] 0), .line 0 (.swap 0 (-1) [0x6b] 0 0 1 5), .body 0 [0x76, 0x0d, 0x0a],
      .line 1 (.qaread 0 [0x6b] 1 0 [0x74]), .line 1 (.commit 0 (-1) [0x74] 0)] .start
    (fun h w => h.all (writingThrough {} [[0x6b]] [[0x74]]) &&
      (w.server.keyState [0x6b]).value.map bytesOf = some ([0x76], 0) && swapsAfterRead h)
        (by decide +kernel)
  simp only [Bool.and_eq_true, List.all_eq_true, decide_eq_true_eq] at htest
  obtain ⟨⟨hsteps, hvalue⟩, htest⟩ := htest
  have hr : (service {}).Run h w := run_of_play (.init rfl) hplay
  refine ⟨h, w, hr, fun m hm => .of_test (hsteps m hm), hvalue, ?_⟩
  rintro ⟨ops, σ, hops, hobs⟩
  unfold swapsAfterRead at htest
  split at htest
  · next m₂ m₁ b l g =>
    simp only [Bool.and_eq_true, decide_eq_true_eq, Option.isNone_iff_eq_none] at htest
    obtain ⟨⟨hg, hl⟩, hb⟩ := htest
    obtain ⟨p, hb⟩ := Event.swaps_eq hb
    have hswap : obs b.label = some (.swap [0x6b] 5 [0x76] 0 true) := by rw [hb]; rfl
    have hread : obs g.label = some (.iqget [0x6b] 0 (.lvalue 5)) := by rw [hg]; rfl
    have hfirst : System.observed obs [b, l, g] =
        [.swap [0x6b] 5 [0x76] 0 true, .iqget [0x6b] 0 (.lvalue 5)] := by
      simp [System.observed, hswap, hl, hread]
    have hall : System.observed obs [m₂, m₁, b, l, g] = System.observed obs [m₂, m₁] ++
        [.swap [0x6b] 5 [0x76] 0 true, .iqget [0x6b] 0 (.lvalue 5)] := by
      rw [← hfirst]
      exact List.filterMap_append (l := [m₂, m₁])
    exact not_swap_of_iqget hops (hobs.trans hall)
  · cases htest

end WriteThrough

end Rejig
