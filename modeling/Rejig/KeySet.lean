import Rejig.KeyList

/-!
# Key lists are sets

The operations of `mc_sqltrig.c` on well-formed lists are those of finite sets.  Two of them are
modelled here: the cursor of `trig_keylist_next`, which the loops of `mc_items.c` move from entry to
entry, and `trig_size_keylist`.  A length of a list is a `trig_listlen_t`, of 32 bits.
-/

namespace Rejig

open Option List

/-- `trig_size_keylist`, from the entry at the head of the buffer on. -/
def trigSizeFrom : (fuel : Nat) → Bytes → Option Nat
  | _, [] => some 0
  | 0, _ :: _ => none
  | fuel + 1, len :: rest => (trigSizeFrom fuel (rest.drop len.toNat)).map (· + 1)

/-- `trig_size_keylist` -/
def trigSizeKeylist (itList : Bytes) : Option Nat := trigSizeFrom itList.length itList

/-- `trig_keylist_next`.  The cursor is an offset into the list, or null.  The result is the new
cursor with the length of the key behind it, or nothing at the end of the list; a cursor that is
moved from outside of the list is a fault. -/
def trigKeylistNext (keylist : Bytes) (cursor : Option Nat) : Option (Option (Nat × Nat)) :=
  if keylist.length = 0 then some none
  else do
    let cursor ← match cursor with
      | none => some 0
      | some cursor => keylist[cursor]?.map fun len => cursor + (len.toNat + 1)
    some (keylist[cursor]?.map fun len => (cursor, len.toNat))

/-- A loop over `trig_keylist_next`, with the keys that it visits. -/
def trigKeylistVisits (keylist : Bytes) : (fuel : Nat) → (cursor : Option Nat) → Option (List Bytes)
  | 0, _ => none
  | fuel + 1, cursor =>
    match trigKeylistNext keylist cursor with
    | none => none
    | some none => some []
    | some (some (cursor, nkey)) =>
      (trigKeylistVisits keylist fuel (some cursor)).map
        ((keylist.drop (cursor + 1)).take nkey :: ·)

/-- What `trig_keylist_addkey` reports as the length of the new list. -/
def trigAddListlen (oldKeylistlen newKeylen : Nat) : Nat := (oldKeylistlen + newKeylen + 1) % 2 ^ 32

/-- What `trig_keylist_rmvkey` reports as the length of the new list. -/
def trigRmvListlen (oldKeylistlen newKeylen : Nat) : Nat :=
  (oldKeylistlen + 2 ^ 32 - newKeylen - 1) % 2 ^ 32

section Encoded

variable {data key k : Bytes} {before ks : List Bytes} {fuel : Nat}

theorem trigSizeFrom_encode (hs : ∀ k ∈ ks, Short k) (hf : ks.length ≤ fuel) :
    trigSizeFrom fuel (encode ks) = some ks.length := by
  induction ks generalizing fuel with
  | nil => rw [encode_nil, trigSizeFrom, length_nil]
  | cons k ks ih =>
    obtain ⟨hk, hs⟩ := forall_mem_cons.mp hs
    obtain ⟨fuel, rfl⟩ := Nat.exists_eq_succ_of_ne_zero
      (Nat.ne_zero_of_lt (Nat.lt_of_lt_of_le (Nat.succ_pos _) hf))
    rw [encode_cons, trigSizeFrom, hk.toNat_ofNat, drop_left, ih hs (Nat.le_of_succ_le_succ hf)]
    rfl

/-- The byte at the start of an entry is its length. -/
theorem getElem?_encode_append : (encode (before ++ k :: ks))[(encode before).length]? = some
      (.ofNat k.length) := by
  rw [encode_append, encode_cons, List.getElem?_append_right le_rfl, Nat.sub_self]
  rfl

/-- From an entry the cursor moves to the next one. -/
theorem trigKeylistNext_some (hk : Short k) :
    trigKeylistNext (encode (before ++ k :: ks)) (some (encode before).length) =
      some ((encode (before ++ k :: ks))[(encode (before ++ [k])).length]?.map
        fun len => ((encode (before ++ [k])).length, len.toNat)) := by
  have hne : (encode (before ++ k :: ks)).length ≠ 0 := by simp
  have hlength : (encode (before ++ [k])).length = (encode before).length +
    (k.length + 1) := by simp
  rw [trigKeylistNext, if_neg hne]
  simp only [getElem?_encode_append, map_some, hk.toNat_ofNat, hlength, bind_eq_bind, bind_some]

/-- From an entry on, a loop visits the entries behind it. -/
theorem trigKeylistVisits_some (before : List Bytes) (hk : Short k) (hs : ∀ k ∈ ks, Short k)
    (hf : ks.length < fuel) :
    trigKeylistVisits (encode (before ++ k :: ks)) fuel (some (encode before).length) =
      some ks := by
  induction ks generalizing before k fuel with
  | nil =>
    obtain ⟨fuel, rfl⟩ := Nat.exists_eq_succ_of_ne_zero (Nat.ne_zero_of_lt hf)
    rw [trigKeylistVisits, trigKeylistNext_some hk, List.getElem?_eq_none le_rfl]
    rfl
  | cons k' ks ih =>
    obtain ⟨hk', hs⟩ := forall_mem_cons.mp hs
    obtain ⟨fuel, rfl⟩ := Nat.exists_eq_succ_of_ne_zero (Nat.ne_zero_of_lt hf)
    have happend : before ++ k :: k' :: ks = (before ++ [k]) ++ k' :: ks := by simp
    have ih' := ih (before ++ [k]) hk' hs (Nat.lt_of_succ_lt_succ hf)
    have hkey : ((encode ((before ++ [k]) ++ k' :: ks)).drop
      ((encode (before ++ [k])).length + 1)).take k'.length = k' := by
      rw [encode_append (before ++ [k]), ← drop_drop, drop_left]
      simp
    rw [trigKeylistVisits, trigKeylistNext_some hk, happend, getElem?_encode_append]
    simp only [map_some, hk'.toNat_ofNat, ih', hkey]

namespace Encodes

variable (h : Encodes data ks)

include h

/-- From a null cursor a loop visits the list. -/
theorem visits (hf : ks.length < fuel) : trigKeylistVisits data fuel none = some ks := by
  obtain ⟨rfl, hs, -⟩ := h
  obtain ⟨fuel, rfl⟩ := Nat.exists_eq_succ_of_ne_zero (Nat.ne_zero_of_lt hf)
  cases ks with
  | nil => rfl
  | cons k ks =>
    obtain ⟨hk, hs⟩ := forall_mem_cons.mp hs
    have hrest := trigKeylistVisits_some [] hk hs (Nat.lt_of_succ_lt_succ hf)
    rw [nil_append, encode_nil, length_nil] at hrest
    have hnext : trigKeylistNext (encode (k :: ks)) none = some (some (0, k.length)) := by
      simp [trigKeylistNext, hk.toNat_ofNat]
    rw [trigKeylistVisits, hnext]
    simp only [hrest, map_some]
    simp

theorem size : trigSizeKeylist data = some ks.length := by
  obtain ⟨rfl, hs, -⟩ := h
  exact trigSizeFrom_encode hs (length_le_length_encode ks)

/-- The number of entries is an `int`. -/
theorem length_lt (hne : ∀ k ∈ ks, k ≠ []) (hlen : data.length < 2 ^ 32) : ks.length < 2 ^ 31 := by
  have hle : ∀ ks : List Bytes, (∀ k ∈ ks, k ≠ []) → 2 * ks.length ≤ (encode ks).length := by
    intro ks hne
    induction ks with
    | nil => exact le_rfl
    | cons k ks ih =>
      obtain ⟨hk, hne⟩ := forall_mem_cons.mp hne
      have := ih hne
      have := length_pos_of_ne_nil hk
      rw [encode_cons, length_cons, length_cons, length_append]
      omega
  have := hle ks hne
  rw [h.eq_encode] at hlen
  omega

/-- Removing an entry that has just been added gives back the payload. -/
theorem rmvkey_addkey {data' : Bytes} (hk : Short key) (hn : key ∉ ks)
    (hadd : trigKeylistAddkey data key = some data') :
    trigKeylistRmvkey data' key = some data := by
  obtain ⟨data₁, hadd₁, henc⟩ := h.addkey hk hn
  rw [hadd] at hadd₁
  cases hadd₁
  obtain ⟨data₂, hrmv, henc₂⟩ := henc.rmvkey (mem_insertKey.mpr (.inl rfl))
  have herase : (insertKey key ks).erase key = ks := by
    have hnot : key ∉ ks.takeWhile (Before · key) := fun hmem =>
      hn ((takeWhile_sublist _).subset hmem)
    rw [insertKey, erase_append_right _ hnot, erase_cons_head, takeWhile_append_dropWhile]
  rw [hrmv, henc₂.eq_encode, herase, h.eq_encode]

end Encodes

/-- An entry adds its length and a byte. -/
theorem length_encode_insertKey :
    (encode (insertKey key ks)).length = (encode ks).length + key.length + 1 := by
  have hperm : (insertKey key ks).Perm (key :: ks) := by
    refine perm_middle.trans (.cons _ ?_)
    rw [takeWhile_append_dropWhile]
  have hencode : (encode (insertKey key ks)).Perm (encode (key :: ks)) :=
    hperm.flatMap_right trigEntry
  rw [hencode.length_eq, encode_cons, length_cons, length_append]
  omega

end Encoded

/-- The operations on well-formed lists are those of sets, and the order of the entries is a strict
total order. -/
theorem keylist_set :
    ((∀ k, ¬ Before k k) ∧ (∀ k₁ k₂ k₃, Before k₁ k₂ → Before k₂ k₃ → Before k₁ k₃) ∧
      ∀ k k', Before k k' ∨ k = k' ∨ Before k' k) ∧
    ∀ data ks, Encodes data ks → (∀ k ∈ ks, k ≠ []) → data.length < 2 ^ 32 →
      (∀ key, Short key → trigCheckKeylist data data.length key = some (decide (key ∈ ks))) ∧
      (∀ key, Short key → key ≠ [] → key ∉ ks → data.length + key.length + 1 < 2 ^ 32 →
        ∃ data' ks', trigKeylistAddkey data key = some data' ∧ Encodes data' ks' ∧ (∀ k, k ∈ ks' ↔
        k ∈ ks ∨ k = key) ∧
          data'.length = trigAddListlen data.length key.length ∧ trigKeylistRmvkey data' key =
          some data) ∧
      (∀ key ∈ ks, ∃ data' ks', trigKeylistRmvkey data key = some data' ∧ Encodes data' ks' ∧
        (∀ k, k ∈ ks' ↔ k ∈ ks ∧ k ≠ key) ∧ data'.length = trigRmvListlen data.length key.length) ∧
      (∀ fuel, ks.length < fuel → trigKeylistVisits data fuel none = some ks) ∧ ks.Nodup ∧
      trigSizeKeylist data = some ks.length ∧ ks.length < 2 ^ 31 := by
  refine ⟨⟨fun k hk => ?_, fun k₁ k₂ k₃ => compareKey_trans, fun k k' => ?_⟩,
    fun data ks h hne hlen => ?_⟩
  · rw [Before, compareKey_self] at hk
    exact lt_irrefl _ hk
  · rcases lt_trichotomy (compareKey k k') 0 with hlt | heq | hgt
    · refine .inr (.inr ?_)
      rw [Before, compareKey_comm]
      omega
    · exact .inr (.inl (compareKey_eq_zero_iff.mp heq))
    · exact .inl hgt
  refine ⟨fun key _ => h.check key, fun key hk _ hn hfits => ?_, fun key hm => ?_,
    fun fuel hf => h.visits hf, h.nodup, h.size, h.length_lt hne hlen⟩
  · obtain ⟨data', hadd, henc⟩ := h.addkey hk hn
    refine ⟨data', _, hadd, henc, fun k => mem_insertKey.trans or_comm, ?_,
      h.rmvkey_addkey hk hn hadd⟩
    rw [henc.eq_encode, length_encode_insertKey, ← h.eq_encode, trigAddListlen,
      Nat.mod_eq_of_lt hfits]
  · obtain ⟨data', hrmv, henc⟩ := h.rmvkey hm
    refine ⟨data', _, hrmv, henc, fun k => ?_, ?_⟩
    · rw [h.nodup.mem_erase_iff, and_comm]
    · have := length_encode_erase hm
      rw [h.eq_encode] at hlen
      rw [henc.eq_encode, h.eq_encode, trigRmvListlen]
      omega

/-- A list of one entry gets a second one, which goes behind it. -/
theorem keylist_set_pair : ∃ data' ks', trigKeylistAddkey [1, 0x6b] [0x6a] = some data' ∧
      Encodes data' ks' ∧
    (∀ k, k ∈ ks' ↔ k ∈ [[0x6b]] ∨ k = [0x6a]) ∧ data'.length = trigAddListlen 2 1 ∧
      trigKeylistRmvkey data' [0x6a] = some [1, 0x6b] := by
  have hlist : Encodes [1, 0x6b] [[0x6b]] := ⟨rfl, by decide, by decide⟩
  exact (keylist_set.2 [1, 0x6b] [[0x6b]] hlist (by decide) (by decide)).2.1 [0x6a] (by decide)
    (by decide) (by decide)
    (by decide)

end Rejig
