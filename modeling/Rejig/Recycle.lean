import Rejig.Item

/-!
# Choosing an item to recycle

`item_get_from_lruq` walks the oldest items of a slab class and looks for one that nobody refers to,
an expired one if there is one.  Its loop stops at the first such item, expired or not, so it finds
what its comment promises only when no unexpired item stands in the way.
-/

namespace Rejig

open Option

/-- `ITEM_LRUQ_MAX_TRIES` -/
def itemLruqMaxTries : Nat := 50

/-- `item_expired`.  Unlike the test of a lookup, it spares an item in the second in which it
expires. -/
def itemExpired (now : Nat) (it : Item) : Bool :=
  decide (0 < it.exptime) && decide (it.exptime < now)

/-- What the scan reads of a queued item. -/
structure LruqEntry where
  item : Item
  refcount : Nat

namespace LruqEntry

/-- Nobody refers to the item. -/
def free (e : LruqEntry) : Bool := e.refcount == 0

/-- Nobody refers to the item, and it is expired. -/
def freeExpired (now : Nat) (e : LruqEntry) : Bool := e.free && itemExpired now e.item

/-- Nobody refers to the item, and it is not expired. -/
def freeUnexpired (now : Nat) (e : LruqEntry) : Bool := e.free && !itemExpired now e.item

end LruqEntry

open LruqEntry

/-- The loop of `item_get_from_lruq`, with the unexpired item `uit` met so far. -/
def lruqScan (now : Nat) : Nat → Option LruqEntry → List LruqEntry → Option LruqEntry
  | 0, uit, _ => uit
  | _ + 1, uit, [] => uit
  | tries + 1, uit, e :: lruq =>
    if e.refcount ≠ 0 then lruqScan now tries uit lruq
    else if itemExpired now e.item then some e
    else match uit with
      -- the loop is left with the item found
      | none => some e
      | some _ => lruqScan now tries uit lruq

/-- `item_get_from_lruq` on the queue of a slab class, the oldest item first. -/
def itemGetFromLruq (useLruq : Bool) (now : Nat) (lruq : List LruqEntry) : Option LruqEntry :=
  if !useLruq then none else lruqScan now itemLruqMaxTries none lruq

/-- The scan stops at the first free item. -/
theorem lruqScan_none (now tries : Nat) (lruq : List LruqEntry) :
    lruqScan now tries none lruq = (lruq.take tries).find? free := by
  induction tries generalizing lruq with
  | zero => rfl
  | succ tries ih =>
    cases lruq with
    | nil => rfl
    | cons e lruq =>
      rw [lruqScan, List.take_succ_cons, List.find?_cons, LruqEntry.free]
      by_cases he : e.refcount = 0
      · simp [he]
      · simp [beq_eq_false_iff_ne.mpr he, he, ih]

/-- The items the search is bounded to. -/
def oldest (lruq : List LruqEntry) : List LruqEntry := lruq.take itemLruqMaxTries

theorem itemGetFromLruq_eq (useLruq : Bool) (now : Nat) (lruq : List LruqEntry) :
    itemGetFromLruq useLruq now lruq = if useLruq then (oldest lruq).find? free else none := by
  cases useLruq with
  | false => rfl
  | true => exact lruqScan_none now itemLruqMaxTries lruq

/-- The choice the comment of `item_get_from_lruq` describes: the oldest expired item that is free,
otherwise the oldest unexpired one. -/
def toRecycle (now : Nat) (lruq : List LruqEntry) : Option LruqEntry :=
  ((oldest lruq).find? (freeExpired now)).or ((oldest lruq).find? (freeUnexpired now))

/-- If a free item of a queue is expired, then so is the oldest free one. -/
def ExpiredFirst (now : Nat) (lruq : List LruqEntry) : Prop :=
  (∃ e ∈ lruq, e.freeExpired now = true) → ∃ e, lruq.find? free = some e ∧
    itemExpired now e.item = true

/-- Past the items in use, the choice falls on the first free one exactly if it is expired or no
other is. -/
theorem find?_free_eq_iff (now : Nat) (lruq : List LruqEntry) :
    lruq.find? free = (lruq.find? (freeExpired now)).or (lruq.find? (freeUnexpired now)) ↔
    ExpiredFirst now lruq := by
  induction lruq with
  | nil => simp [ExpiredFirst]
  | cons e lruq ih =>
    cases hfree : e.free with
    | false => simpa [ExpiredFirst, List.find?_cons, freeExpired, freeUnexpired, hfree] using ih
    | true =>
      cases hexp : itemExpired now e.item with
      | true => simp [ExpiredFirst, List.find?_cons, freeExpired, hfree, hexp]
      | false =>
        cases hfind : lruq.find? (freeExpired now) with
        | none =>
          have hnone := List.find?_eq_none.mp hfind
          simpa [ExpiredFirst, List.find?_cons, freeExpired, freeUnexpired, hfree, hexp,
            hfind] using hnone
        | some e' =>
          -- the walk stops at an unexpired item although an expired one follows
          have he' : e'.freeExpired now = true := List.find?_some hfind
          have hne : e ≠ e' := by
            rintro rfl
            simp [freeExpired, hexp] at he'
          have hmem := List.mem_of_find?_eq_some hfind
          simp only [ExpiredFirst, List.find?_cons, freeExpired, freeUnexpired, hfree, hexp,
            Bool.and_false] at he' ⊢
          constructor
          · intro h
            exact absurd (some.inj (h.trans (by rw [show lruq.find? _ = some e' from hfind]; rfl)))
              hne
          · intro h
            obtain ⟨e'', heq, hexp''⟩ := h ⟨e', List.mem_cons_of_mem _ hmem, he'⟩
            cases heq
            rw [hexp] at hexp''
            cases hexp''

/-- The item recycled is the one to recycle exactly if the oldest free item is expired whenever some
free one is, and nothing is free when the queues are not used. -/
theorem itemGetFromLruq_eq_toRecycle_iff (useLruq : Bool) (now : Nat) (lruq : List LruqEntry) :
    itemGetFromLruq useLruq now lruq = toRecycle now lruq ↔
      ExpiredFirst now (oldest lruq) ∧ (useLruq = true ∨ ∀ e ∈ oldest lruq, e.free = false) := by
  rw [itemGetFromLruq_eq, toRecycle]
  cases useLruq with
  | true => simpa using find?_free_eq_iff now (oldest lruq)
  | false =>
    have hnone : none = ((oldest lruq).find? (freeExpired now)).or
      ((oldest lruq).find? (freeUnexpired now)) ↔
        ∀ e ∈ oldest lruq, e.free = false := by
      rw [eq_comm, or_eq_none_iff, List.find?_eq_none, List.find?_eq_none]
      constructor
      · rintro ⟨hexp, hunexp⟩ e he
        have h₁ := hexp e he
        have h₂ := hunexp e he
        cases hfree : e.free with
        | false => rfl
        | true => simp_all [freeExpired, freeUnexpired]
      · intro h
        constructor <;> intro e he <;> simp [freeExpired, freeUnexpired, h e he]
    simp only [Bool.false_eq_true, if_false, false_or]
    rw [hnone]
    refine ⟨fun h => ⟨?_, h⟩, And.right⟩
    rintro ⟨e, he, hexp⟩
    simp [freeExpired, h e he] at hexp

/-- An expired item behind an unexpired one is not seen. -/
theorem itemGetFromLruq_passes_expired : ∃ lruq : List LruqEntry,
    ∃ e ∈ lruq, e.freeExpired 10 = true ∧
    itemGetFromLruq true 10 lruq ≠ toRecycle 10 lruq ∧
      ∃ e, itemGetFromLruq true 10 lruq = some e ∧ itemExpired 10 e.item = false := by
  let a : LruqEntry := ⟨{ addr := 0, key := [97] }, 0⟩
  let b : LruqEntry := ⟨{ addr := 1, key := [98], exptime := 5 }, 0⟩
  have hb : b.freeExpired 10 = true := by decide
  have hget : itemGetFromLruq true 10 [a, b] = some a := by rfl
  have hchosen : toRecycle 10 [a, b] = some b := by rfl
  refine ⟨[a, b], b, by simp, hb, ?_, a, hget, by decide⟩
  rw [hget, hchosen]
  intro h
  have hkey : a.item.key = b.item.key := congrArg (·.item.key) (some.inj h)
  exact absurd hkey (by decide)

end Rejig
