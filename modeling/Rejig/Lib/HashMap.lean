import Mathlib.Algebra.Group.Nat.Defs
import Mathlib.Data.List.Sort
import Mathlib.Data.List.Nodup

/-!
# Hash maps that are walked over

A hash map as a program that walks over it sees it: the entries in the order in which their keys
were first put, at most one per key.  The order of a walk is not the order of the entries.  It is
what a `Scan` makes of the keys, and `Scan.table` is the scan of a table of bins: bins in increasing
order, and the keys of one bin in the order in which they were put.

Many maps hold lists.  `placements` flattens such a map to pairs of an element and the key it is
kept under, and adding elements under a key adds to the placements (`placements_add`), so what a
program that moves elements between keys conserves is read off the placements.
-/

/-- A map with at most one entry per key, in the order in which the keys were put. -/
structure HashMap (κ ν : Type) where
  /-- The entries. -/
  entries : List (κ × ν)
  /-- No key has two entries. -/
  nodup : (entries.map Prod.fst).Nodup

/-- The order in which the keys of a map are visited. -/
structure Scan (κ : Type) where
  /-- The keys as they are visited. -/
  order : List κ → List κ
  /-- Every key is visited once. -/
  perm : ∀ ks, (order ks).Perm ks

namespace HashMap

variable {κ ν : Type}

/-- The map without entries. -/
def empty : HashMap κ ν := ⟨[], by simp⟩

/-- The keys of a map. -/
def keys (m : HashMap κ ν) : List κ := m.entries.map Prod.fst

@[simp] theorem keys_empty : (empty : HashMap κ ν).keys = [] := rfl

/-- The key of an entry is a key of the map. -/
theorem fst_mem_keys {m : HashMap κ ν} {e : κ × ν} (h : e ∈ m.entries) : e.1 ∈ m.keys :=
  List.mem_map_of_mem h

/-- A key has one value. -/
theorem eq_of_mem {m : HashMap κ ν} {k : κ} {v v' : ν} (h : (k, v) ∈ m.entries)
    (h' : (k, v') ∈ m.entries) : v = v' := by
  have heq := List.inj_on_of_nodup_map m.nodup h h' rfl
  exact congrArg Prod.snd heq

variable [DecidableEq κ]

/-- The value under a key. -/
def get (m : HashMap κ ν) (k : κ) : Option ν := (m.entries.find? (·.1 = k)).map Prod.snd

theorem get_eq_some_iff {m : HashMap κ ν} {k : κ} {v : ν} : m.get k = some v ↔
      (k, v) ∈ m.entries := by
  constructor
  · intro h
    obtain ⟨⟨k', v'⟩, hfind, rfl⟩ := Option.map_eq_some_iff.mp h
    obtain rfl : k' = k := by simpa using List.find?_some hfind
    exact List.mem_of_find?_eq_some hfind
  · intro h
    cases hfind : m.entries.find? (·.1 = k) with
    | none => simpa using List.find?_eq_none.mp hfind _ h
    | some e =>
      obtain ⟨k', v'⟩ := e
      obtain rfl : k' = k := by simpa using List.find?_some hfind
      have hv := eq_of_mem h (List.mem_of_find?_eq_some hfind)
      simp [get, hfind, hv]

theorem get_eq_none_iff {m : HashMap κ ν} {k : κ} : m.get k = none ↔ k ∉ m.keys := by
  simp only [get, keys, Option.map_eq_none_iff, List.find?_eq_none, decide_eq_true_eq, List.mem_map,
    not_exists, not_and]

theorem exists_get_iff {m : HashMap κ ν} {k : κ} : (∃ v, m.get k = some v) ↔ k ∈ m.keys := by
  rw [← not_iff_not, ← get_eq_none_iff, Option.eq_none_iff_forall_ne_some, not_exists]

/-- Put a value under a key, in the place of the one that was there. -/
def put (m : HashMap κ ν) (k : κ) (v : ν) : HashMap κ ν :=
  if h : k ∈ m.keys then
    ⟨m.entries.map fun e => if e.1 = k then (k, v) else e, by
      have hfst : Prod.fst ∘ (fun e : κ × ν => if e.1 = k then (k, v) else e) = Prod.fst := by
        funext e
        simp only [Function.comp_apply]
        split <;> simp_all
      rw [List.map_map, hfst]
      exact m.nodup⟩
  else
    ⟨m.entries ++ [(k, v)], by
      rw [List.map_append]
      refine List.nodup_append.mpr ⟨m.nodup, by simp, ?_⟩
      rintro k' hk' _ hk rfl
      obtain rfl : k' = k := List.mem_singleton.mp hk
      exact h hk'⟩

theorem entries_put_of_notMem {m : HashMap κ ν} {k : κ} {v : ν} (h : k ∉ m.keys) :
    (m.put k v).entries = m.entries ++ [(k, v)] := by
  rw [put, dif_neg h]

theorem entries_put_of_mem {m : HashMap κ ν} {k : κ} {v : ν} (h : k ∈ m.keys) :
    (m.put k v).entries = m.entries.map fun e => if e.1 = k then (k, v) else e := by
  rw [put, dif_pos h]

/-- Putting a value under a key of the map replaces that entry and keeps the others. -/
theorem exists_perm_put {m : HashMap κ ν} {k : κ} {v : ν} (h : m.get k = some v) :
    ∃ rest, m.entries.Perm ((k, v) :: rest) ∧ ∀ v', (m.put k v').entries.Perm
      ((k, v') :: rest) := by
  have hmem := get_eq_some_iff.mp h
  obtain ⟨front, back, hsplit⟩ := List.append_of_mem hmem
  refine ⟨front ++ back, hsplit ▸ List.perm_middle, fun v' => ?_⟩
  have hnodup := m.nodup
  rw [hsplit, List.map_append, List.map_cons, List.nodup_middle] at hnodup
  have hother : ∀ e ∈ front ++ back, (if e.1 = k then (k, v') else e) = id e := by
    rintro e he
    refine if_neg ?_
    rintro rfl
    rw [← List.map_append] at hnodup
    exact (List.nodup_cons.mp hnodup).1 (List.mem_map.mpr ⟨e, he, rfl⟩)
  rw [entries_put_of_mem (fst_mem_keys hmem), hsplit]
  refine (List.Perm.map _ List.perm_middle).trans ?_
  rw [List.map_cons, List.map_congr_left hother, List.map_id]
  simp

theorem keys_put_of_mem {m : HashMap κ ν} {k : κ} {v : ν} (h : k ∈ m.keys) :
    (m.put k v).keys = m.keys := by
  rw [keys, entries_put_of_mem h, List.map_map]
  refine List.map_congr_left fun e _ => ?_
  simp only [Function.comp_apply]
  split <;> simp_all

theorem mem_keys_put {m : HashMap κ ν} {k k' : κ} {v : ν} : k' ∈ (m.put k v).keys ↔
      k' = k ∨ k' ∈ m.keys := by
  by_cases h : k ∈ m.keys
  · rw [keys_put_of_mem h]
    constructor
    · exact Or.inr
    · rintro (rfl | h')
      · exact h
      · exact h'
  · rw [keys, entries_put_of_notMem h]
    simp [keys, or_comm]

theorem mem_entries_put {m : HashMap κ ν} {k : κ} {v : ν} {e : κ × ν} :
    e ∈ (m.put k v).entries ↔ e = (k, v) ∨ e.1 ≠ k ∧ e ∈ m.entries := by
  by_cases h : k ∈ m.keys
  · obtain ⟨w, hw⟩ := exists_get_iff.mpr h
    obtain ⟨rest, hperm, hput⟩ := exists_perm_put hw
    have hnodup := (hperm.map Prod.fst).nodup_iff.mp m.nodup
    rw [List.map_cons, List.nodup_cons] at hnodup
    rw [(hput v).mem_iff, hperm.mem_iff]
    simp only [List.mem_cons]
    constructor
    · rintro (rfl | he)
      · exact Or.inl rfl
      · exact Or.inr ⟨fun heq => hnodup.1 (List.mem_map.mpr ⟨e, he, heq⟩), Or.inr he⟩
    · rintro (rfl | ⟨hne, rfl | he⟩)
      · exact Or.inl rfl
      · exact absurd rfl hne
      · exact Or.inr he
  · rw [entries_put_of_notMem h]
    have hne : e ∈ m.entries → e.1 ≠ k := fun he heq => h (heq ▸ fst_mem_keys he)
    simp only [List.mem_append, List.mem_singleton]
    tauto

@[simp] theorem get_put_self (m : HashMap κ ν) (k : κ) (v : ν) : (m.put k v).get k = some v :=
  get_eq_some_iff.mpr (mem_entries_put.mpr (Or.inl rfl))

theorem get_put_of_ne (m : HashMap κ ν) {k k' : κ} (v : ν) (h : k' ≠ k) :
    (m.put k v).get k' = m.get k' := by
  ext w
  rw [get_eq_some_iff, get_eq_some_iff, mem_entries_put]
  simp [h]

/-- Putting entries with distinct new keys appends them. -/
theorem entries_foldl_put (es : List (κ × ν)) (m : HashMap κ ν)
    (h : ((m.entries ++ es).map Prod.fst).Nodup) :
    (es.foldl (fun m e => m.put e.1 e.2) m).entries = m.entries ++ es := by
  induction es generalizing m with
  | nil => simp
  | cons e es ih =>
    have hnew : e.1 ∉ m.keys := by
      rw [List.map_append, List.map_cons, List.nodup_append] at h
      exact fun hmem => h.2.2 _ hmem _ (by simp) rfl
    have hput : (m.put e.1 e.2).entries = m.entries ++ [e] := entries_put_of_notMem hnew
    rw [List.foldl_cons, ih _ (by rw [hput]; simpa using h), hput, List.append_assoc,
      List.singleton_append]

end HashMap

/-! ## Walks -/

namespace Scan

variable {κ ν : Type}

/-- The walk in the order of insertion. -/
def insertion : Scan κ := ⟨id, .refl⟩

theorem mem_order (scan : Scan κ) {ks : List κ} {k : κ} : k ∈ scan.order ks ↔ k ∈ ks :=
  (scan.perm ks).mem_iff

variable [DecidableEq κ]

/-- The entries of a map as a walk visits them. -/
def entries (scan : Scan κ) (m : HashMap κ ν) : List (κ × ν) :=
  (scan.order m.keys).filterMap fun k => (m.get k).map (k, ·)

theorem filterMap_keys (m : HashMap κ ν) :
    (m.keys.filterMap fun k => (m.get k).map (k, ·)) = m.entries := by
  rw [HashMap.keys, List.filterMap_map]
  have hself : ∀ e ∈ m.entries, ((fun k => (m.get k).map (k, ·)) ∘ Prod.fst) e = some e := by
    rintro ⟨k, v⟩ he
    simp [HashMap.get_eq_some_iff.mpr he]
  rw [List.filterMap_congr hself, List.filterMap_some]

/-- A walk visits every entry once. -/
theorem perm_entries (scan : Scan κ) (m : HashMap κ ν) : (scan.entries m).Perm m.entries := by
  have h := (scan.perm m.keys).filterMap fun k => (m.get k).map (k, ·)
  rwa [filterMap_keys] at h

/-- The keys of a walk. -/
theorem map_fst_entries (scan : Scan κ) (m : HashMap κ ν) :
    (scan.entries m).map Prod.fst = scan.order m.keys := by
  rw [entries, List.map_filterMap]
  have hself : ∀ k ∈ scan.order m.keys, ((m.get k).map (k, ·)).map Prod.fst = some k := by
    intro k hk
    obtain ⟨v, hv⟩ := HashMap.exists_get_iff.mpr (scan.mem_order.mp hk)
    simp [hv]
  rw [List.filterMap_congr hself, List.filterMap_some]

/-- The table of a map: `size` keys need that many bins, a power of two that is doubled when three
quarters of it are in use, and not beyond `2 ^ 30`. -/
def capacity (size : Nat) : Nat := grow 26 16
where
  grow : Nat → Nat → Nat
    | 0, bins => bins
    | fuel + 1, bins => if 3 * bins < 4 * size then grow fuel (2 * bins) else bins

/-- The scan of a table in which a key is kept in the bin of its hash. -/
def table (hash : κ → Nat) : Scan κ where
  order ks := ks.insertionSort fun k k' =>
    hash k % capacity ks.length ≤ hash k' % capacity ks.length
  perm ks := List.perm_insertionSort _ ks

omit [DecidableEq κ] in
/-- The keys of a table are visited bin by bin. -/
theorem pairwise_order_table (hash : κ → Nat) (ks : List κ) : ((table hash).order ks).Pairwise
      fun k k' => hash k % capacity ks.length ≤ hash k' % capacity ks.length := by
  have htotal : Std.Total fun k k' => hash k % capacity ks.length ≤ hash k' % capacity ks.length :=
    ⟨fun _ _ => Nat.le_total _ _⟩
  have htrans : IsTrans κ fun k k' => hash k % capacity ks.length ≤ hash k' % capacity ks.length :=
    ⟨fun _ _ _ => Nat.le_trans⟩
  exact List.pairwise_insertionSort _ ks

/-- A table that could still be doubled has a bin for every key, and for the next third of their
number. -/
theorem le_capacity (size : Nat) : 4 * size ≤ 3 * capacity size ∨ capacity size = 2 ^ 30 := by
  have hgrow : ∀ fuel bins, 4 * size ≤ 3 * capacity.grow size fuel bins ∨
      capacity.grow size fuel bins = bins * 2 ^ fuel := by
    intro fuel
    induction fuel with
    | zero => exact fun bins => Or.inr (by simp [capacity.grow])
    | succ fuel ih =>
      intro bins
      rw [capacity.grow]
      split
      · rw [Nat.pow_succ', ← Nat.mul_assoc, Nat.mul_comm bins 2]
        exact ih _
      · exact Or.inl (by omega)
  exact hgrow 26 16

end Scan

/-! ## Maps of lists -/

namespace HashMap

variable {κ α : Type}

/-- The elements of a map of lists, each with the key it is kept under. -/
def placements (m : HashMap κ (List α)) : List (α × κ) :=
  m.entries.flatMap fun e => e.2.map (·, e.1)

theorem mem_placements {m : HashMap κ (List α)} {x : α} {k : κ} :
    (x, k) ∈ m.placements ↔ ∃ xs, (k, xs) ∈ m.entries ∧ x ∈ xs := by
  simp only [placements, List.mem_flatMap, List.mem_map, Prod.mk.injEq]
  constructor
  · rintro ⟨⟨k', xs⟩, he, x', hx, rfl, rfl⟩
    exact ⟨xs, he, hx⟩
  · rintro ⟨xs, he, hx⟩
    exact ⟨(k, xs), he, x, hx, rfl, rfl⟩

variable [DecidableEq κ]

/-- Add elements to the list under a key, which is made if there is none. -/
def add (m : HashMap κ (List α)) (k : κ) (xs : List α) : HashMap κ (List α) :=
  m.put k ((m.get k).getD [] ++ xs)

theorem mem_keys_add {m : HashMap κ (List α)} {k k' : κ} {xs : List α} :
    k' ∈ (m.add k xs).keys ↔ k' = k ∨ k' ∈ m.keys := mem_keys_put

theorem mem_entries_add {m : HashMap κ (List α)} {k : κ} {xs : List α} {e : κ × List α} :
    e ∈ (m.add k xs).entries ↔ e = (k, (m.get k).getD [] ++ xs) ∨ e.1 ≠ k ∧ e ∈ m.entries :=
  mem_entries_put

/-- The list under a key, empty if there is none, has what the empty list and all lists of the map
have. -/
theorem forall_getD {P : List α → Prop} {m : HashMap κ (List α)} (hnil : P [])
    (h : ∀ e ∈ m.entries, P e.2) (k : κ) : P ((m.get k).getD []) := by
  cases hget : m.get k with
  | none => exact hnil
  | some xs => exact h _ (get_eq_some_iff.mp hget)

/-- Adding elements under a key places them there, and moves nothing else. -/
theorem placements_add (m : HashMap κ (List α)) (k : κ) (xs : List α) :
    (m.add k xs).placements.Perm (m.placements ++ xs.map (·, k)) := by
  cases hget : m.get k with
  | none =>
    rw [placements, add, hget, entries_put_of_notMem (get_eq_none_iff.mp hget)]
    simp [placements]
  | some ys =>
    obtain ⟨rest, hperm, hput⟩ := exists_perm_put hget
    have hrest := hperm.flatMap_right fun e : κ × List α => e.2.map (·, e.1)
    have hnew := (hput (ys ++ xs)).flatMap_right fun e : κ × List α => e.2.map (·, e.1)
    rw [List.flatMap_cons] at hrest hnew
    rw [add, hget, Option.getD_some]
    refine hnew.trans (.trans ?_ (hrest.append_right _).symm)
    rw [List.map_append, List.append_assoc, List.append_assoc]
    exact List.Perm.append_left _ List.perm_append_comm

/-- The elements placed under a key are those of its list. -/
theorem countP_placements (m : HashMap κ (List α)) (k : κ) :
    m.placements.countP (·.2 = k) = ((m.get k).getD []).length := by
  have hlist : ∀ e : κ × List α, (e.2.map (·, e.1)).countP (·.2 = k) =
      if e.1 = k then e.2.length else 0 := by
    intro e
    by_cases h : e.1 = k <;> simp [List.countP_map, Function.comp_def, h]
  have hother : ∀ es : List (κ × List α), (∀ e ∈ es, e.1 ≠ k) →
      (es.flatMap fun e => e.2.map (·, e.1)).countP (·.2 = k) = 0 := by
    intro es hes
    refine List.countP_eq_zero.mpr ?_
    simp only [List.mem_flatMap, List.mem_map]
    rintro _ ⟨e, he, x, _, rfl⟩
    simpa using hes e he
  cases hget : m.get k with
  | none =>
    refine hother _ fun e he heq => get_eq_none_iff.mp hget (heq ▸ fst_mem_keys he)
  | some xs =>
    obtain ⟨rest, hperm, -⟩ := exists_perm_put hget
    have hnodup := (hperm.map Prod.fst).nodup_iff.mp m.nodup
    rw [List.map_cons, List.nodup_cons] at hnodup
    have hrest := hperm.flatMap_right fun e : κ × List α => e.2.map (·, e.1)
    rw [placements, hrest.countP_eq, List.flatMap_cons, List.countP_append, hlist, if_pos rfl,
      hother rest fun e he heq => hnodup.1 (List.mem_map.mpr ⟨e, he, heq⟩)]
    rfl

end HashMap
