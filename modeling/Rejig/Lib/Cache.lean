import Mathlib.Data.Option.Basic
import Mathlib.Logic.Function.Basic

/-!
# A cache with tokens and deadlines

What a client may assume of a remote cache: every call is one atomic step, every entry that is
stored gets a token no entry had before, and an entry is gone once its deadline has passed.

An expired entry stays in `entries` until it is overwritten; `Cache.find` does not see it.  The two
facts that protocols over such a cache rest on are that an entry with a known token is the entry
that was read with it (`Cache.Fresh`, `Cache.Agrees`), and that only a call on its own key changes
what is found there (`find_store_ne`).
-/

/-- An entry of a cache. -/
structure Cache.Entry (V : Type) where
  value : V
  /-- The number the entry got when it was stored. -/
  token : Nat
  /-- When the entry runs out; `none` is never. -/
  deadline : Option Nat

/-- A cache with keys in `K` and values in `V`. -/
structure Cache (K V : Type) where
  now : Nat := 0
  /-- The token of the next entry. -/
  nextToken : Nat := 0
  entries : K → Option (Cache.Entry V) := fun _ => none

/-- The answers to a conditional store. -/
inductive Cache.Response where
  | success
  | invalidToken
  | notFound
deriving DecidableEq, Repr

namespace Cache

variable {K V : Type}

/-- Whether a deadline is still ahead. -/
def ahead (now : Nat) (deadline : Option Nat) : Bool := deadline.all (now < ·)

/-- The entry under a key, unless it has run out. -/
def find (c : Cache K V) (k : K) : Option (Entry V) := (c.entries k).filter fun e =>
      ahead c.now e.deadline

/-- Let time pass. -/
def wait (c : Cache K V) (time : Nat) : Cache K V := { c with now := c.now + time }

variable [DecidableEq K]

/-- Store an entry under a token of its own. -/
def store (c : Cache K V) (k : K) (v : V) (deadline : Option Nat) : Cache K V where
  now := c.now
  nextToken := c.nextToken + 1
  entries := Function.update c.entries k (some ⟨v, c.nextToken, deadline⟩)

/-- Store an entry if there is none. -/
def add (c : Cache K V) (k : K) (v : V) (deadline : Option Nat) : Bool × Cache K V :=
  if (c.find k).isNone then (true, c.store k v deadline) else (false, c)

/-- Store an entry if the one that is there has the token. -/
def cas (c : Cache K V) (k : K) (v : V) (deadline : Option Nat) (token : Nat) :
    Response × Cache K V :=
  match c.find k with
  | none => (.notFound, c)
  | some e => if e.token = token then (.success, c.store k v deadline) else (.invalidToken, c)

/-- Remove the entry under a key. -/
def delete (c : Cache K V) (k : K) : Cache K V :=
  { c with entries := Function.update c.entries k none }

/-! ## What is found -/

section Find

variable {c : Cache K V} {k k' : K} {v : V} {d : Option Nat} {e : Entry V}

theorem entries_store_self : (c.store k v d).entries k = some ⟨v, c.nextToken, d⟩ :=
  Function.update_self ..

theorem entries_store_ne (h : k' ≠ k) : (c.store k v d).entries k' = c.entries k' :=
  Function.update_of_ne h ..

omit [DecidableEq K] in
theorem find_eq_some_iff : c.find k = some e ↔
      c.entries k = some e ∧ ahead c.now e.deadline = true := by
  rw [find, Option.filter_eq_some_iff]

omit [DecidableEq K] in
/-- A deadline that is ahead later is ahead now. -/
theorem ahead_of_wait {time : Nat} (h : ahead (c.wait time).now d = true) :
    ahead c.now d = true := by
  cases d with
  | none => rfl
  | some d => exact decide_eq_true (Nat.lt_of_le_of_lt (Nat.le_add_right _ _) (of_decide_eq_true h))

theorem find_store_ne (h : k' ≠ k) : (c.store k v d).find k' = c.find k' := by
  rw [find, find, entries_store_ne h]
  rfl

theorem add_of_find_none (h : c.find k = none) : c.add k v d = (true, c.store k v d) := by
  rw [add, h]
  rfl

theorem add_of_find (h : c.find k = some e) : c.add k v d = (false, c) := by
  rw [add, h]
  rfl

theorem cas_of_token (h : c.find k = some e) : c.cas k v d e.token = (.success, c.store k v d) := by
  rw [cas, h]
  exact if_pos rfl

/-- A conditional store that is refused changes nothing. -/
theorem cas_refused {token : Nat} (h : ∀ e, c.find k = some e → e.token ≠ token) :
    (c.cas k v d token).1 ≠ .success ∧ (c.cas k v d token).2 = c := by
  rw [cas]
  split
  · exact ⟨nofun, rfl⟩
  · rename_i e he
    rw [if_neg (h e he)]
    exact ⟨nofun, rfl⟩

end Find

/-! ## Tokens -/

/-- The tokens in use are below the next one. -/
def Fresh (c : Cache K V) : Prop := ∀ k e, c.entries k = some e → e.token < c.nextToken

/-- The entry under `k`, if it still has the token, has the value. -/
def Agrees (c : Cache K V) (k : K) (v : V) (token : Nat) : Prop :=
  token < c.nextToken ∧ ∀ e, c.entries k = some e → e.token = token → e.value = v

section Tokens

variable {c : Cache K V} {k k' : K} {v v' : V} {d : Option Nat} {e : Entry V} {token : Nat}

theorem Fresh.store (h : c.Fresh) : (c.store k v d).Fresh := by
  intro k' e he
  rcases eq_or_ne k' k with rfl | hne
  · rw [entries_store_self] at he
    cases he
    exact Nat.lt_succ_self _
  · rw [entries_store_ne hne] at he
    exact Nat.lt_succ_of_lt (h k' e he)

omit [DecidableEq K] in
/-- What a read returns agrees with the cache. -/
theorem Fresh.agrees (h : c.Fresh) (he : c.find k = some e) : c.Agrees k e.value e.token := by
  obtain ⟨he, -⟩ := find_eq_some_iff.mp he
  refine ⟨h k e he, fun e' he' _ => ?_⟩
  rw [he] at he'
  cases he'
  rfl

theorem Agrees.store (h : c.Agrees k v token) : (c.store k' v' d).Agrees k v token := by
  refine ⟨Nat.lt_succ_of_lt h.1, fun e he htoken => ?_⟩
  rcases eq_or_ne k k' with rfl | hne
  · rw [entries_store_self] at he
    cases he
    -- the token of the new entry is larger than every token that was read
    exact absurd htoken (Nat.ne_of_gt h.1)
  · rw [entries_store_ne hne] at he
    exact h.2 e he htoken

end Tokens

end Cache
