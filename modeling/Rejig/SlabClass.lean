import Mathlib.Order.Nat

/-!
# The size classes

`item_slabid` asks `_slab_id` for the smallest class whose chunks are large enough.  The classes are
numbered from 1 on, with chunks of increasing size, and their numbers are of 8 bits.  `_slab_id` is
a binary search that also looks at the class before the one in the middle.

The search is modelled with what becomes of a number that does not fit as a parameter: the code cuts
it to 8 bits, and to say that this never happens the cut is replaced by a fault.
-/

namespace Rejig

open Option

/-- `SLABCLASS_MIN_ID` -/
def slabclassMinId : Nat := 1

/-- `SLABCLASS_MAX_ID` -/
def slabclassMaxId : Nat := 254

/-- `SLABCLASS_INVALID_ID` -/
def slabclassInvalidId : Nat := 255

/-- A number that is stored in 8 bits. -/
def cut8 (n : Nat) : Option Nat := some (n % 256)

/-- A number that is stored in 8 bits, where it is a fault that it does not fit. -/
def fit8 (n : Nat) : Option Nat := if n < 256 then some n else none

/-- The loop of `_slab_id`, on classes with the given chunk sizes. -/
def slabIdFrom (store : Nat → Option Nat) (size : Nat) (chunk : Nat → Nat) :
    (fuel imin imax : Nat) → Option Nat
  | 0, _, _ => none
  | fuel + 1, imin, imax =>
    if imin ≤ imax then do
      let id ← store ((imin + imax) / 2)
      if chunk id < size then
        slabIdFrom store size chunk fuel (← store (id + 1)) imax
      else if slabclassMinId < id ∧ size ≤ chunk (id - 1) then
        slabIdFrom store size chunk fuel imin (← store (id - 1))
      else some id
    else some slabclassInvalidId

/-- `_slab_id` -/
def slabId (store : Nat → Option Nat) (size : Nat) (chunk : Nat → Nat) (maxId : Nat) : Option Nat :=
  slabIdFrom store size chunk slabclassInvalidId slabclassMinId maxId

/-- The answer that `_slab_id` is to give: the smallest class that is large enough, and the invalid
number if there is none. -/
structure SmallestClass (size : Nat) (chunk : Nat → Nat) (maxId id : Nat) : Prop where
  invalid_iff : id = slabclassInvalidId ↔ ∀ i, slabclassMinId ≤ i → i ≤ maxId → chunk i < size
  min_le : id ≠ slabclassInvalidId → slabclassMinId ≤ id
  le_max : id ≠ slabclassInvalidId → id ≤ maxId
  le_chunk : id ≠ slabclassInvalidId → size ≤ chunk id
  smallest : id ≠ slabclassInvalidId → ∀ i, slabclassMinId ≤ i → i ≤ maxId → size ≤ chunk i → id ≤ i

/-- What is known while the search goes on.  The class `imax` is large enough unless it is the last
one. -/
structure Searching (size : Nat) (chunk : Nat → Nat) (maxId imin imax : Nat) : Prop where
  min_le : slabclassMinId ≤ imin
  le_max : imax ≤ maxId
  below : ∀ i, slabclassMinId ≤ i → i < imin → chunk i < size
  last : imax = maxId ∨ slabclassMinId ≤ imax ∧ size ≤ chunk imax

section Search

variable {store : Nat → Option Nat} {size maxId imin imax id fuel : Nat} {chunk : Nat → Nat}

/-- The search ends at a class that is large enough when the one before is not. -/
theorem SmallestClass.of_found (hmax : maxId ≤ slabclassMaxId)
    (hmono : ∀ i j, slabclassMinId ≤ i → i < j → j ≤ maxId → chunk i < chunk j)
    (hmin : slabclassMinId ≤ id) (hle : id ≤ maxId) (hid : size ≤ chunk id)
    (hbefore : slabclassMinId < id → chunk (id - 1) < size) :
    SmallestClass size chunk maxId id := by
  have hne : id ≠ slabclassInvalidId := (hle.trans hmax).trans_lt (Nat.lt_succ_self 254) |>.ne
  refine ⟨⟨fun heq => absurd heq hne, fun hall => absurd (hall id hmin hle) (Nat.not_lt_of_le hid)⟩,
    fun _ => hmin, fun _ => hle, fun _ => hid, fun _ i hi himax hsize => ?_⟩
  by_contra hlt
  -- a smaller class is not beyond the one before
  have hlt : i < id := Nat.lt_of_not_le hlt
  have hprev : chunk i ≤ chunk (id - 1) := by
    rcases Nat.eq_or_lt_of_le (Nat.le_sub_one_of_lt hlt) with heq | hlt'
    · rw [heq]
    · exact (hmono i (id - 1) hi hlt' ((Nat.sub_le _ _).trans hle)).le
  exact absurd (hbefore (hi.trans_lt hlt)) (Nat.not_lt_of_le (hsize.trans hprev))

/-- The search ends with nothing left only if every class is too small. -/
theorem Searching.exhausted (h : Searching size chunk maxId imin imax) (hlt : imax < imin) :
    SmallestClass size chunk maxId slabclassInvalidId := by
  have hall : ∀ i, slabclassMinId ≤ i → i ≤ maxId → chunk i < size := by
    intro i hi himax
    rcases h.last with heq | ⟨hmin, hsize⟩
    · exact h.below i hi (himax.trans_lt (heq ▸ hlt))
    · exact absurd (h.below imax hmin hlt) (Nat.not_lt_of_le hsize)
  exact ⟨iff_of_true rfl hall, fun h => absurd rfl h, fun h => absurd rfl h, fun h => absurd rfl h,
    fun h => absurd rfl h⟩

/-- The loop returns, whatever becomes of numbers that do not fit: there are none. -/
theorem slabIdFrom_eq (hstore : ∀ n < 256, store n = some n) (hmax : maxId ≤ slabclassMaxId)
    (hmono : ∀ i j, slabclassMinId ≤ i → i < j → j ≤ maxId → chunk i < chunk j)
    (h : Searching size chunk maxId imin imax) (hfuel : imax + 1 - imin < fuel) :
    ∃ id, slabIdFrom store size chunk fuel imin imax = some id ∧
    SmallestClass size chunk maxId id := by
  induction fuel generalizing imin imax with
  | zero => exact absurd hfuel (Nat.not_lt_zero _)
  | succ fuel ih =>
    rw [slabIdFrom]
    split
    · next hle =>
      obtain ⟨id, hid⟩ : ∃ id, id = (imin + imax) / 2 := ⟨_, rfl⟩
      have hlo : imin ≤ id := by omega
      have hhi : id ≤ imax := by omega
      have hid254 : id ≤ 254 := (hhi.trans h.le_max).trans hmax
      have hmin := h.min_le
      rw [← hid, hstore id (by omega)]
      simp only [bind_eq_bind, bind_some]
      split
      · next hsmall =>
        -- the class in the middle is too small, and so are those before it
        rw [hstore (id + 1) (by omega), bind_some]
        refine ih ⟨hmin.trans (hlo.trans (Nat.le_succ _)), h.le_max, fun i hi hlt => ?_,
          h.last⟩ (by omega)
        rcases Nat.eq_or_lt_of_le (Nat.le_of_lt_succ hlt) with rfl | hlt
        · exact hsmall
        · exact (hmono i id hi hlt (hhi.trans h.le_max)).trans hsmall
      next hbig =>
      split
      · next hprev =>
        rw [hstore (id - 1) (by omega), bind_some]
        have hle' : id - 1 ≤ maxId := (Nat.sub_le _ _).trans (hhi.trans h.le_max)
        exact ih ⟨hmin, hle', h.below, .inr ⟨Nat.le_sub_one_of_lt hprev.1, hprev.2⟩⟩ (by omega)
      · next hprev =>
        refine ⟨id, rfl, .of_found hmax hmono (hmin.trans hlo) (hhi.trans h.le_max)
          (Nat.le_of_not_lt hbig) fun hlt => ?_⟩
        exact Nat.lt_of_not_le fun hsize => hprev ⟨hlt, hsize⟩
    · next hlt => exact ⟨_, rfl, h.exhausted (Nat.lt_of_not_le hlt)⟩

end Search

/-- `_slab_id` returns the smallest class that is large enough, and no number is ever cut. -/
theorem slabId_smallest {size maxId : Nat} {chunk : Nat → Nat} (hmax : maxId ≤ slabclassMaxId)
    (hmono : ∀ i j, slabclassMinId ≤ i → i < j → j ≤ maxId → chunk i < chunk j) :
    ∃ id, slabId cut8 size chunk maxId = some id ∧ slabId fit8 size chunk maxId = some id ∧
      SmallestClass size chunk maxId id := by
  have hstart : Searching size chunk maxId slabclassMinId maxId :=
    ⟨le_rfl, le_rfl, fun i hi hlt => absurd hlt (Nat.not_lt_of_le hi), .inl rfl⟩
  have hfuel : maxId + 1 - slabclassMinId < slabclassInvalidId := by
    rw [slabclassMaxId] at hmax
    rw [slabclassMinId, slabclassInvalidId]
    omega
  obtain ⟨id, hcut, hid⟩ := slabIdFrom_eq (fun n hn => congrArg some (Nat.mod_eq_of_lt hn)) hmax
    hmono hstart hfuel
  obtain ⟨id', hfit, hid'⟩ := slabIdFrom_eq (fun n hn => if_pos hn) hmax hmono hstart hfuel
  refine ⟨id, hcut, ?_, hid⟩
  -- there is only one smallest class
  have heq : id' = id := by
    by_cases h : id = slabclassInvalidId
    · exact (hid'.invalid_iff.mpr (hid.invalid_iff.mp h)).trans h.symm
    · have h' : id' ≠ slabclassInvalidId := fun h' =>
        h (hid.invalid_iff.mpr (hid'.invalid_iff.mp h'))
      exact Nat.le_antisymm (hid'.smallest h' id (hid.min_le h) (hid.le_max h) (hid.le_chunk h))
        (hid.smallest h id' (hid'.min_le h') (hid'.le_max h') (hid'.le_chunk h'))
  exact heq ▸ hfit

/-- Three classes, of 10, 20 and 30 bytes. -/
theorem slabId_smallest_three : ∃ id, slabId cut8 15 (10 * ·) 3 = some id ∧
      slabId fit8 15 (10 * ·) 3 = some id ∧
    SmallestClass 15 (10 * ·) 3 id :=
  slabId_smallest (by decide) fun _ _ _ hlt _ => Nat.mul_lt_mul_of_pos_left hlt (by decide)

end Rejig
