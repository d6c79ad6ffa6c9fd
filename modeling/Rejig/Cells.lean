import Rejig.Turn

/-!
# Machines with one cell for each key

An abstract machine of the IQ protocol keeps a cell for each key.  What a cell stands for is an
`Abstraction`: the records that the key may have, and the transactions that have the key in their
lists. `Abstraction.Represents` says that a server is in a state of the machine, and the lemmas show
how the forms of a `Turn` keep it: a step on one key, a step that files a key for a transaction, and
the end of a transaction.  For a particular machine there remain the facts about one key.
-/

namespace Rejig

open Server Option Function

/-- What the cells of a machine stand for. -/
structure Abstraction (X : Type) where
  /-- The cell of a key that has never been used. -/
  empty : X
  /-- The records that a key with this cell may have. -/
  Of : X → KeyState → Prop
  /-- The transactions that list a key with this cell. -/
  Lists : X → Bytes → Prop
  of_empty : Of empty ⟨none, none, none, none⟩
  not_lists_empty : ∀ t, ¬ Lists empty t

namespace Abstraction

variable {X : Type}

/-- The server is in a state of the machine. -/
structure Represents (A : Abstraction X) (N : Naming) (s : Server) (σ : Bytes → X) : Prop where
  key : ∀ k, N.isKey k → A.Of (σ k) (s.keyState k)
  other : ∀ k, ¬ N.isKey k → σ k = A.empty
  listed : ∀ k t, N.isKey k → N.isTid t → (k ∈ s.listed t ↔ A.Lists (σ k) t)
  found : ∀ t, N.isTid t → (s.live t ≠ none ↔ ∃ k, A.Lists (σ k) t)

variable {A : Abstraction X} {c : Settings} {N : Naming} {s s' : Server} {σ : Bytes → X}
  {k t : Bytes} {x : X} {g : KeyState → KeyState}

namespace Represents

theorem start (A : Abstraction X) (N : Naming) : A.Represents N .start fun _ => A.empty where
  key _ _ := A.of_empty
  other _ _ := rfl
  listed _ t _ _ := by
    simp [Server.listed, Server.live, Server.find, Server.start, A.not_lists_empty t]
  found t _ := by simp [Server.live, Server.find, Server.start, A.not_lists_empty t]

section

variable (h : A.Represents N s σ)

include h

/-- Only keys are listed. -/
theorem isKey (hl : A.Lists (σ k) t) : N.isKey k := by
  by_contra hno
  rw [h.other k hno] at hl
  exact A.not_lists_empty t hl

/-- A step that changes no record. -/
theorem same (hs : ∀ n, s'.record n = s.record n) : A.Represents N s' σ where
  key k hk := by
    rw [keyState_congr fun n _ => hs n]
    exact h.key k hk
  other := h.other
  listed k t hk ht := by
    rw [listed_congr (hs t)]
    exact h.listed k t hk ht
  found t ht := by
    rw [← h.found t ht, Ne, Ne, live_eq_none_iff, hs t, ← live_eq_none_iff]

/-- A step on the records of one key, which stays in the same lists. -/
theorem steps (hk : N.isKey k) (hs : s.Steps k g s')
    (hx : A.Of x (g (s.keyState k))) (hlists : ∀ t, A.Lists x t ↔ A.Lists (σ k) t) :
    A.Represents N s' (update σ k x) := by
  have hupdate : ∀ k' t, A.Lists (update σ k x k') t ↔ A.Lists (σ k') t := by
    intro k' t
    by_cases hne : k' = k
    · subst hne
      rw [update_self, hlists]
    · rw [update_of_ne hne]
  have htid : ∀ t, N.isTid t → t ∉ recordNames k := fun t ht => N.tid_not_mem_recordNames ht hk
  refine ⟨fun k' hk' => ?_, fun k' hk' => ?_, fun k' t hk' ht => ?_, fun t ht => ?_⟩
  · by_cases hne : k' = k
    · subst hne
      rw [update_self, hs.key]
      exact hx
    · rw [update_of_ne hne, hs.keyState_of_ne (N.key_unprefixed hk) (N.key_unprefixed hk') hne]
      exact h.key k' hk'
  · have hne : k' ≠ k := by
      rintro rfl
      exact hk' hk
    rw [update_of_ne hne]
    exact h.other k' hk'
  · rw [hs.listed (htid t ht), hupdate]
    exact h.listed k' t hk' ht
  · simp only [hupdate]
    rw [← h.found t ht, Ne, Ne, live_eq_none_iff, hs.other t (htid t ht), ← live_eq_none_iff]

/-- A step on the records of one key that the machine does not see. -/
theorem stays (hk : N.isKey k) (hs : s.Steps k g s') (hx : A.Of (σ k) (g (s.keyState k))) :
    A.Represents N s' σ := by
  have h' := h.steps hk hs hx fun _ => Iff.rfl
  rwa [update_eq_self] at h'

/-- A step that files a key for a transaction. -/
theorem files (hs : s.Calm c N) (hk : N.isKey k) (ht : N.isTid t)
    (hfiles : s.Files c k t g s') (hx : A.Of x (g (s.keyState k)))
    (hlists : ∀ t', A.Lists x t' ↔ t' = t ∨ A.Lists (σ k) t') :
    A.Represents N s' (update σ k x) := by
  have hun : Unprefixed t := N.tid_unprefixed ht
  have hfree : ¬ N.isKey t := fun hkey => N.disjoint hkey ht
  have hupdate : ∀ k' t', A.Lists (update σ k x k') t' ↔
      k' = k ∧ t' = t ∨ A.Lists (σ k') t' := by
    intro k' t'
    by_cases hne : k' = k
    · subst hne
      rw [update_self, hlists]
      simp
    · rw [update_of_ne hne]
      simp [hne]
  refine ⟨fun k' hk' => ?_, fun k' hk' => ?_, fun k' t' hk' ht' => ?_, fun t' ht' => ?_⟩
  · by_cases hne : k' = k
    · subst hne
      rw [update_self, hfiles.key]
      exact hx
    · rw [update_of_ne hne, hfiles.keyState_of_ne (N.key_unprefixed hk) (N.key_unprefixed hk') hne
        (N.tid_not_mem_recordNames ht hk')]
      exact h.key k' hk'
  · have hne : k' ≠ k := by
      rintro rfl
      exact hk' hk
    rw [update_of_ne hne]
    exact h.other k' hk'
  · rw [hupdate]
    by_cases hne : t' = t
    · subst hne
      rw [hfiles.mem_listed hs.lists hun hfree hs.lasts, h.listed k' t' hk' ht']
      simp
    · rw [hfiles.listed_of_ne (N.tid_not_mem_recordNames ht' hk) hne, h.listed k' t' hk' ht']
      simp [hne]
  · simp only [hupdate]
    by_cases hne : t' = t
    · subst hne
      have hmem : k ∈ s'.listed t' := (hfiles.mem_listed hs.lists hun hfree hs.lasts).mpr (.inl rfl)
      constructor
      · exact fun _ => ⟨k, .inl ⟨rfl, rfl⟩⟩
      · intro _ hnone
        simp [Server.listed, hnone] at hmem
    · rw [Ne, live_eq_none_iff, hfiles.other t' (N.tid_not_mem_recordNames ht' hk) hne,
        ← live_eq_none_iff, ← Ne, h.found t' ht']
      simp [hne]

/-- The end of a transaction. -/
theorem ended {f : X → X} (hs : s.Calm c N) (ht : N.isTid t) (hend : Ended t (s.listed t) g s s')
    (hf : ∀ k, N.isKey k → A.Lists (σ k) t → A.Of (f (σ k)) (g (s.keyState k)))
    (hlists : ∀ x t', A.Lists (f x) t' ↔ t' ≠ t ∧ A.Lists x t')
    (hstays : ∀ x, ¬ A.Lists x t → f x = x) :
    A.Represents N s' fun k => f (σ k) := by
  have hkeys : ∀ k ∈ s.listed t, N.isKey k := fun k hk => (hs.lists.of_listed ht hk).1
  refine ⟨fun k hk => ?_, fun k hk => ?_, fun k t' hk ht' => ?_, fun t' ht' => ?_⟩
  · by_cases hmem : A.Lists (σ k) t
    · rw [hend.keyState k ((h.listed k t hk ht).mpr hmem)]
      exact hf k hk hmem
    · rw [hend.keyState_of_notMem (fun k hk => N.key_unprefixed (hkeys k hk)) (N.key_unprefixed hk)
        (mt (h.listed k t hk ht).mp hmem) (N.tid_not_mem_recordNames ht hk), hstays _ hmem]
      exact h.key k hk
  · rw [h.other k hk, hstays _ (A.not_lists_empty t)]
  · rw [hlists]
    by_cases hne : t' = t
    · subst hne
      simp [hend.listed_self]
    · rw [hend.listed_of_ne (fun k hk => N.tid_not_mem_recordNames ht' (hkeys k hk)) hne,
        h.listed k t' hk ht']
      simp [hne]
  · simp only [hlists]
    by_cases hne : t' = t
    · subst hne
      simp [hend.record]
    · rw [hend.other t' hne fun k hk => N.tid_not_mem_recordNames ht' (hkeys k hk), h.found t' ht']
      simp [hne]

end

end Represents

end Abstraction

/-! ## Readers -/

/-- What a reader is told. -/
inductive Answer where
  | value (data : Bytes) (flags : Nat)
  | lvalue (token : UInt64)
  | novalue

/-- The token that has to be presented for a lease that was granted with `token`. -/
def readBack (token : UInt64) : UInt64 := (mcStrtoullLen (decimal token)).getD (.ofNat uint64Max)

/-- What a reader is told, and what it found. -/
theorem KeyState.IqgetAnswers.split {x : KeyState} {next token : UInt64} {r : IqgetResult}
    (ha : x.IqgetAnswers next token r) :
    (∃ it, ascIqgetReply r = .value it ∧ x.value = some it.content) ∨
      (∃ p, ascIqgetReply r = .lvalue next p ∧ x.value = none ∧ x.lease = none) ∨
      (ascIqgetReply r = .novalue ∧ ∃ l, x.lease = some l ∧ l.lease = .qRef ∧
        l.leaseValue = token) ∨
      (ascIqgetReply r = .novalue ∨ ∃ p, ascIqgetReply r = .lvalue leaseHotmiss p) ∧
      x.value = none ∧
        x.lease ≠ none := by
  obtain ⟨status, item, newLeaseToken⟩ := r
  obtain ⟨value, lease, version, marker⟩ := x
  rw [KeyState.IqgetAnswers] at ha
  cases value with
  | some v =>
    dsimp only at ha
    split at ha
    · next hany =>
      obtain ⟨l, hl, hown⟩ := (any_eq_true _ _).mp hany
      rw [Bool.and_eq_true, decide_eq_true_eq, decide_eq_true_eq] at hown
      obtain rfl := ha
      exact .inr (.inr (.inl ⟨by cases item <;> rfl, l, hl, hown⟩))
    · obtain ⟨rfl, hitem⟩ := ha
      obtain ⟨it, rfl, hit⟩ := map_eq_some_iff.mp hitem
      exact .inl ⟨it, rfl, congrArg some hit.symm⟩
  | none =>
    cases lease with
    | none =>
      obtain ⟨rfl, rfl, hitem⟩ := ha
      obtain ⟨it, rfl, -⟩ := map_eq_some_iff.mp hitem
      exact .inr (.inl ⟨it.p, rfl, rfl, rfl⟩)
    | some l =>
      refine .inr (.inr (.inr ⟨?_, rfl, some_ne_none l⟩))
      dsimp only at ha
      split at ha
      · obtain rfl := ha
        cases item <;> exact .inl rfl
      · obtain ⟨rfl, rfl, hitem⟩ := ha
        obtain ⟨it, rfl, -⟩ := map_eq_some_iff.mp hitem
        exact .inr ⟨it.p, rfl⟩

/-- The values that `get` reads, as bytes and flags. -/
theorem map_data_of_get {s : Server} {keys : List Bytes} {its : List Item}
    {value : Bytes → Option (Bytes × Nat)} (h : its.map Item.content = keys.filterMap s.record)
    (hvalue : ∀ k ∈ keys, (s.record k).map (fun v => (v.data, v.dataflags)) = value k) :
    its.map (fun it => (it.data, it.dataflags)) = keys.filterMap value := calc
  its.map (fun it => (it.data, it.dataflags))
    = (its.map Item.content).map (fun v => (v.data, v.dataflags)) := by
      rw [List.map_map]
      rfl
  _ = keys.filterMap fun k => (s.record k).map (fun v => (v.data, v.dataflags)) := by
      rw [h, List.map_filterMap]
  _ = keys.filterMap value := List.filterMap_congr hvalue

end Rejig
