import Rejig.Numeral
import Mathlib.Data.List.Sort

/-!
# Encoded key lists

A transaction record lists the keys the transaction works on, and an invalidate lease lists the
transactions that registered its key.  Both payloads have the format of `mc_sqltrig.c`: a sequence
of entries, each one byte of length followed by that many bytes, kept sorted by length and, among
entries of one length, from the larger to the smaller.

The first half of this module is the code: the functions work on the payload as raw bytes, and a
function that would read or write past the end of a payload returns `none`.  The second half is what
the code is for: `Encodes data ks` says that the payload `data` lists `ks`, strictly sorted and with
entries that fit their length byte, and on such a payload the functions of the first half compute
membership, insertion and removal.
-/

namespace Rejig

open Option List

variable {a b c k : Bytes}

/-! ## The code -/

/-- `memcmp` on two buffers of the same length. -/
def memcmp : Bytes → Bytes → Int
  | a :: as, b :: bs => if a = b then memcmp as bs else (a.toNat : Int) - b.toNat
  | _, _ => 0

/-- `trig_compare_key`.  `key1` is the memory from the start of the first key to the end of its
payload; `none` is a comparison that reads past that end. -/
def trigCompareKey (key1 : Bytes) (key1Len : Nat) (key2 : Bytes) : Option Int :=
  if key1Len ≠ key2.length then some ((key2.length : Int) - key1Len)
  else if key1.length < key1Len then none
  else some (memcmp (key1.take key1Len) key2)

/-- The loop of `trig_check_keylist` from the entry at the head of the buffer on; `listLen` is how
much of the buffer the caller says is list. -/
def trigCheckFrom (newKey : Bytes) : (fuel listLen : Nat) → Bytes → Option Bool
  | _, 0, _ => some false
  | 0, _ + 1, _ => none
  | _ + 1, _ + 1, [] => none
  | fuel + 1, listLen + 1, len :: rest => do
    let compareVal ← trigCompareKey rest len.toNat newKey
    if compareVal = 0 then some true
    else if compareVal < 0 then some false
    else trigCheckFrom newKey fuel (listLen - len.toNat) (rest.drop len.toNat)

/-- `trig_check_keylist`: whether the list contains the key. -/
def trigCheckKeylist (itList : Bytes) (itListLen : Nat) (newKey : Bytes) : Option Bool :=
  trigCheckFrom newKey itListLen itListLen itList

/-- The loop of `trig_keylist_addkey` that looks for the position of the new key: the position, or
`none` inside when the key is there already. -/
def trigAddPos (newKey : Bytes) : (fuel : Nat) → Bytes → (insPos : Nat) → Option (Option Nat)
  | _, [], insPos => some (some insPos)
  | 0, _ :: _, _ => none
  | fuel + 1, len :: rest, insPos => do
    let compareVal ← trigCompareKey rest len.toNat newKey
    if compareVal < 0 then some (some insPos)
    else if 0 < compareVal then
      trigAddPos newKey fuel (rest.drop len.toNat) (insPos + (1 + len.toNat))
    else some none

/-- The entry of a key: its length in one byte, then the key. -/
def trigEntry (key : Bytes) : Bytes := .ofNat key.length :: key

/-- `trig_keylist_addkey`.  When the key is there already the source leaves the destination
unwritten, and when the last entry reaches past the end of the old list it copies past it; both are
faults. -/
def trigKeylistAddkey (oldKeylist newKey : Bytes) : Option Bytes :=
  if oldKeylist.length = 0 then some (trigEntry newKey)
  else
    match trigAddPos newKey oldKeylist.length oldKeylist 0 with
    | some (some insPos) =>
      if oldKeylist.length < insPos then none
      else some (oldKeylist.take insPos ++ trigEntry newKey ++ oldKeylist.drop insPos)
    | _ => none

/-- The loop of `trig_keylist_rmvkey` that looks for the key. -/
def trigRmvPos (newKey : Bytes) : (fuel : Nat) → Bytes → (insPos : Nat) → Option Nat
  | _, [], _ => none
  | 0, _ :: _, _ => none
  | fuel + 1, len :: rest, insPos => do
    let compareVal ← trigCompareKey rest len.toNat newKey
    if compareVal = 0 then some insPos
    else trigRmvPos newKey fuel (rest.drop len.toNat) (insPos + (1 + len.toNat))

/-- `trig_keylist_rmvkey`.  A key that is not there makes the source copy more than the destination
holds, which is a fault. -/
def trigKeylistRmvkey (oldKeylist newKey : Bytes) : Option Bytes :=
  (trigRmvPos newKey oldKeylist.length oldKeylist 0).map fun insPos =>
    oldKeylist.take insPos ++ oldKeylist.drop (insPos + newKey.length + 1)

/-- The entries from the head of the buffer on. -/
def trigEntriesFrom : (fuel : Nat) → Bytes → Option (List Bytes)
  | _, [] => some []
  | 0, _ :: _ => none
  | fuel + 1, len :: rest =>
    if rest.length < len.toNat then none
    else (trigEntriesFrom fuel (rest.drop len.toNat)).map (rest.take len.toNat :: ·)

/-- For each entry from the head of the buffer on, the memory from its key to the end. -/
def trigTailsFrom : (fuel : Nat) → Bytes → List Bytes
  | _, [] => []
  | 0, _ :: _ => []
  | fuel + 1, len :: rest => rest :: trigTailsFrom fuel (rest.drop len.toNat)

/-- The memory that the key pointer of a loop over `trig_keylist_next` points to, for each entry. -/
def trigKeylistTails (keylist : Bytes) : List Bytes := trigTailsFrom keylist.length keylist

/-- The keys that a loop over `trig_keylist_next` visits, in order. -/
def trigKeylistEntries (keylist : Bytes) : Option (List Bytes) :=
  trigEntriesFrom keylist.length keylist

/-! ## The order of entries -/

/-- The comparison of two entries that lie inside their payloads. -/
def compareKey (key1 key2 : Bytes) : Int :=
  if key1.length ≠ key2.length then (key2.length : Int) - key1.length else memcmp key1 key2

theorem memcmp_self (a : Bytes) : memcmp a a = 0 := by
  induction a with
  | nil => rfl
  | cons x a ih => simpa [memcmp] using ih

theorem eq_of_memcmp (hl : a.length = b.length) (h : memcmp a b = 0) : a = b := by
  induction a generalizing b with
  | nil => simpa using hl.symm
  | cons x a ih =>
    cases b with
    | nil => simp at hl
    | cons y b =>
      rw [memcmp] at h
      split at h
      · rename_i hxy
        rw [hxy, ih (by simpa using hl) h]
      · rename_i hxy
        exact absurd (UInt8.toNat_inj.mp (by omega)) hxy

theorem memcmp_comm (a b : Bytes) : memcmp a b = - memcmp b a := by
  induction a generalizing b with
  | nil => cases b <;> rfl
  | cons x a ih =>
    cases b with
    | nil => rfl
    | cons y b =>
      by_cases h : x = y
      · simp [memcmp, h, ih b]
      · simp [memcmp, h, Ne.symm h]

theorem memcmp_trans (h₁ : 0 < memcmp a b) (h₂ : 0 < memcmp b c) : 0 < memcmp a c := by
  induction a generalizing b c with
  | nil => simp [memcmp] at h₁
  | cons x a ih =>
    cases b with
    | nil => simp [memcmp] at h₁
    | cons y b =>
      cases c with
      | nil => simp [memcmp] at h₂
      | cons z c =>
        rw [memcmp] at h₁ h₂ ⊢
        -- the first place where two of the three differ decides
        split at h₁ <;> split at h₂ <;> split
        · exact ih h₁ h₂
        all_goals (subst_vars; first | contradiction | omega)

theorem compareKey_self (a : Bytes) : compareKey a a = 0 := by
  simp [compareKey, memcmp_self]

theorem compareKey_eq_zero_iff : compareKey a b = 0 ↔ a = b := by
  constructor
  · intro h
    rw [compareKey] at h
    split at h
    · omega
    · exact eq_of_memcmp (by omega) h
  · rintro rfl
    exact compareKey_self a

theorem compareKey_comm (a b : Bytes) : compareKey a b = - compareKey b a := by
  by_cases h : a.length = b.length
  · simp only [compareKey, h, ne_eq, not_true_eq_false, if_false]
    exact memcmp_comm a b
  · simp [compareKey, h, Ne.symm h]

theorem compareKey_trans (h₁ : 0 < compareKey a b) (h₂ : 0 < compareKey b c) :
    0 < compareKey a c := by
  simp only [compareKey] at h₁ h₂ ⊢
  split at h₁ <;> split at h₂ <;> split
  all_goals first | omega | exact memcmp_trans h₁ h₂

/-! ## Encodings of sorted lists -/

/-- The payload that lists the given entries. -/
def encode (ks : List Bytes) : Bytes := ks.flatMap trigEntry

@[simp] theorem encode_nil : encode [] = [] := rfl

@[simp] theorem encode_cons (k : Bytes) (ks : List Bytes) :
    encode (k :: ks) = .ofNat k.length :: (k ++ encode ks) := rfl

@[simp] theorem encode_append (ks ks' : List Bytes) :
    encode (ks ++ ks') = encode ks ++ encode ks' := flatMap_append

theorem length_le_length_encode (ks : List Bytes) : ks.length ≤ (encode ks).length := by
  induction ks with
  | nil => simp
  | cons k ks ih =>
    simp only [encode_cons, length_cons, length_append]
    omega

/-- An entry fits its length byte. -/
def Short (k : Bytes) : Prop := k.length < 256

instance instDecidableShort (k : Bytes) : Decidable (Short k) :=
  inferInstanceAs (Decidable (k.length < 256))

theorem Short.toNat_ofNat (h : Short k) : (UInt8.ofNat k.length).toNat = k.length := by
  rw [UInt8.toNat_ofNat']
  exact Nat.mod_eq_of_lt h

/-- The order in which entries are stored. -/
def Before (k k' : Bytes) : Prop := 0 < compareKey k k'

instance instDecidableBefore (k k' : Bytes) : Decidable (Before k k') :=
  inferInstanceAs (Decidable (0 < compareKey k k'))

theorem trigCompareKey_append (k rest k' : Bytes) :
    trigCompareKey (k ++ rest) k.length k' = some (compareKey k k') := by
  by_cases h : k.length = k'.length
  · rw [trigCompareKey, if_neg (not_not.mpr h), if_neg (by simp), take_left, compareKey,
      if_neg (not_not.mpr h)]
  · rw [trigCompareKey, if_pos h, compareKey, if_pos h]

section Encode

variable {ks : List Bytes} {key : Bytes} {fuel : Nat}

section

variable (hs : ∀ k ∈ ks, Short k)

include hs

theorem trigEntriesFrom_encode (hf : ks.length ≤ fuel) :
    trigEntriesFrom fuel (encode ks) = some ks := by
  induction ks generalizing fuel with
  | nil => rw [encode_nil, trigEntriesFrom]
  | cons k ks ih =>
    obtain ⟨fuel, rfl⟩ : ∃ f, fuel = f + 1 := ⟨fuel - 1, by simp at hf; omega⟩
    have hk := (hs k (by simp)).toNat_ofNat
    have ih' := @ih fuel (fun k' h => hs k' (by simp [h])) (by simpa using hf)
    rw [encode_cons, trigEntriesFrom, hk, if_neg (by simp)]
    simp [ih']

/-- Looping over the encoding of a list visits the list. -/
theorem trigKeylistEntries_encode : trigKeylistEntries (encode ks) = some ks :=
  trigEntriesFrom_encode hs (length_le_length_encode ks)

theorem trigCheckFrom_encode (hp : ks.Pairwise Before) (hf : ks.length ≤ fuel) :
    trigCheckFrom key fuel (encode ks).length (encode ks) = some (decide (key ∈ ks)) := by
  induction ks generalizing fuel with
  | nil => simp [trigCheckFrom]
  | cons k ks ih =>
    obtain ⟨fuel, rfl⟩ : ∃ f, fuel = f + 1 := ⟨fuel - 1, by simp at hf; omega⟩
    have hk := (hs k (by simp)).toNat_ofNat
    rw [pairwise_cons] at hp
    have ih' := @ih fuel (fun k' h => hs k' (by simp [h])) hp.2 (by simpa using hf)
    rw [encode_cons, length_cons, length_append, trigCheckFrom, hk, trigCompareKey_append]
    simp only [bind_eq_bind, bind_some, drop_left, Nat.add_sub_cancel_left]
    rcases lt_trichotomy (compareKey k key) 0 with hlt | heq | hgt
    · -- the key would stand before `k`, so it stands nowhere
      have hne : key ≠ k := by
        rintro rfl
        simp [compareKey_self] at hlt
      have hnot : key ∉ ks := fun hmem => absurd (hp.1 key hmem) (by simp [Before]; omega)
      simp [hlt.ne, hlt, hne, hnot]
    · rw [if_pos heq, compareKey_eq_zero_iff.mp heq]
      simp
    · have hne : key ≠ k := by
        rintro rfl
        simp [compareKey_self] at hgt
      simp [hgt.ne', hgt.not_gt, hne, ih']

/-- `trig_check_keylist` decides membership. -/
theorem trigCheckKeylist_encode (hp : ks.Pairwise Before) :
    trigCheckKeylist (encode ks) (encode ks).length key = some (decide (key ∈ ks)) :=
  trigCheckFrom_encode hs hp (length_le_length_encode ks)

end

/-! ### Insertion -/

/-- The list with a key inserted where `trig_keylist_addkey` puts it. -/
def insertKey (key : Bytes) (ks : List Bytes) : List Bytes :=
  ks.takeWhile (Before · key) ++ key :: ks.dropWhile (Before · key)

theorem trigAddPos_encode (hs : ∀ k ∈ ks, Short k) (hn : key ∉ ks) (hf : ks.length ≤ fuel)
    (insPos : Nat) :
    trigAddPos key fuel (encode ks) insPos = some
      (some (insPos + (encode (ks.takeWhile (Before · key))).length)) := by
  induction ks generalizing fuel insPos with
  | nil => simp [trigAddPos]
  | cons k ks ih =>
    obtain ⟨fuel, rfl⟩ : ∃ f, fuel = f + 1 := ⟨fuel - 1, by simp at hf; omega⟩
    have hk := (hs k (by simp)).toNat_ofNat
    have ih' := @ih fuel (fun k' h => hs k' (by simp [h])) (by simp at hn; exact hn.2)
      (by simpa using hf) (insPos + (1 + k.length))
    rw [encode_cons, trigAddPos, hk, trigCompareKey_append]
    simp only [bind_eq_bind, bind_some, drop_left]
    rcases lt_trichotomy (compareKey k key) 0 with hlt | heq | hgt
    · have hnb : ¬ Before k key := not_lt.mpr hlt.le
      rw [if_pos hlt, takeWhile_cons_of_neg (by simpa using hnb)]
      simp
    · exact absurd (compareKey_eq_zero_iff.mp heq).symm (by simp at hn; exact hn.1)
    · have hb : Before k key := hgt
      rw [if_neg (by omega), if_pos hgt, ih', takeWhile_cons_of_pos (by simpa using hb)]
      simp only [encode_cons, length_cons, length_append]
      congr 2
      omega

/-- `trig_keylist_addkey` of a key that is not in the list inserts it. -/
theorem trigKeylistAddkey_encode (hs : ∀ k ∈ ks, Short k) (hn : key ∉ ks) :
    trigKeylistAddkey (encode ks) key = some (encode (insertKey key ks)) := by
  rw [trigKeylistAddkey]
  cases hks : ks with
  | nil => simp [insertKey, trigEntry]
  | cons k ks' =>
    rw [← hks]
    have hsplit : encode ks =
        encode (ks.takeWhile (Before · key)) ++ encode (ks.dropWhile (Before · key)) := by
      rw [← encode_append, takeWhile_append_dropWhile]
    have hne : (encode ks).length ≠ 0 := by simp [hks]
    rw [if_neg hne, trigAddPos_encode hs hn (length_le_length_encode ks)]
    simp only [Nat.zero_add]
    rw [if_neg (by rw [hsplit]; simp), hsplit, take_left, drop_left, insertKey, encode_append,
      encode_cons, trigEntry]
    simp

theorem mem_insertKey : k ∈ insertKey key ks ↔ k = key ∨ k ∈ ks := by
  conv_rhs => rw [← takeWhile_append_dropWhile (p := (Before · key)) (l := ks)]
  simp only [insertKey, mem_append, mem_cons]
  tauto

theorem pairwise_insertKey (hp : ks.Pairwise Before) (hn : key ∉ ks) :
    (insertKey key ks).Pairwise Before := by
  induction ks with
  | nil => simp [insertKey]
  | cons k ks ih =>
    have hn' : key ≠ k ∧ key ∉ ks := by simpa using hn
    rw [pairwise_cons] at hp
    by_cases hb : Before k key
    · have hins : insertKey key (k :: ks) = k :: insertKey key ks := by
        simp [insertKey, hb]
      rw [hins, pairwise_cons]
      refine ⟨fun k' hk' => ?_, ih hp.2 hn'.2⟩
      rcases mem_insertKey.mp hk' with rfl | hk'
      · exact hb
      · exact hp.1 k' hk'
    · have hins : insertKey key (k :: ks) = key :: k :: ks := by
        simp [insertKey, hb]
      -- `key` differs from `k` and does not come after it, so it comes before
      have hb' : Before key k := by
        have hne : compareKey k key ≠ 0 := fun h => hn'.1 (compareKey_eq_zero_iff.mp h).symm
        have hcomm := compareKey_comm key k
        unfold Before at *
        omega
      rw [hins, pairwise_cons]
      refine ⟨fun k' hk' => ?_, pairwise_cons.mpr hp⟩
      rcases mem_cons.mp hk' with rfl | hk'
      · exact hb'
      · exact compareKey_trans hb' (hp.1 k' hk')

/-! ### Removal -/

theorem trigRmvPos_encode (hs : ∀ k ∈ ks, Short k) (hm : key ∈ ks) (hf : ks.length ≤ fuel)
    (insPos : Nat) :
    trigRmvPos key fuel (encode ks) insPos = some
      (insPos + (encode (ks.takeWhile (· ≠ key))).length) := by
  induction ks generalizing fuel insPos with
  | nil => simp at hm
  | cons k ks ih =>
    obtain ⟨fuel, rfl⟩ : ∃ f, fuel = f + 1 := ⟨fuel - 1, by simp at hf; omega⟩
    have hk := (hs k (by simp)).toNat_ofNat
    rw [encode_cons, trigRmvPos, hk, trigCompareKey_append]
    simp only [bind_eq_bind, bind_some, drop_left, compareKey_eq_zero_iff]
    by_cases hkk : k = key
    · rw [if_pos hkk, takeWhile_cons_of_neg (by simpa using hkk)]
      simp
    · have hm' : key ∈ ks := (mem_cons.mp hm).resolve_left (Ne.symm hkk)
      have ih' := @ih fuel (fun k' h => hs k' (by simp [h])) hm' (by simpa using hf)
        (insPos + (1 + k.length))
      rw [if_neg hkk, ih', takeWhile_cons_of_pos (by simpa using hkk)]
      simp only [encode_cons, length_cons, length_append]
      congr 1
      omega

theorem eq_takeWhile_append_cons (hm : key ∈ ks) :
    ∃ tail, ks = ks.takeWhile (· ≠ key) ++ key :: tail ∧
      ks.erase key = ks.takeWhile (· ≠ key) ++ tail := by
  induction ks with
  | nil => simp at hm
  | cons k ks ih =>
    by_cases hkk : k = key
    · exact ⟨ks, by simp [hkk], by simp [hkk]⟩
    · obtain ⟨tail, h₁, h₂⟩ := ih ((mem_cons.mp hm).resolve_left (Ne.symm hkk))
      have htw : (k :: ks).takeWhile (· ≠ key) = k :: ks.takeWhile (· ≠ key) :=
        takeWhile_cons_of_pos (by simpa using hkk)
      refine ⟨tail, ?_, ?_⟩
      · rw [htw, cons_append, ← h₁]
      · rw [htw, cons_append, ← h₂, erase_cons_tail (by simpa using hkk)]

/-- `trig_keylist_rmvkey` of a key that is in the list removes it. -/
theorem trigKeylistRmvkey_encode (hs : ∀ k ∈ ks, Short k) (hm : key ∈ ks) :
    trigKeylistRmvkey (encode ks) key = some (encode (ks.erase key)) := by
  obtain ⟨tail, h₁, h₂⟩ := eq_takeWhile_append_cons hm
  have hpos := trigRmvPos_encode hs hm (length_le_length_encode ks) 0
  rw [trigKeylistRmvkey, hpos, map_some, h₂, encode_append, Nat.zero_add]
  generalize hl : ks.takeWhile (· ≠ key) = l at *
  have hsplit : encode ks = encode l ++ (.ofNat key.length :: key) ++ encode tail := by
    rw [h₁, encode_append, encode_cons]
    simp
  rw [hsplit]
  have hdrop : (encode l).length + key.length + 1 =
      (encode l ++ (UInt8.ofNat key.length :: key)).length := by
    simp only [length_append, length_cons]
    omega
  rw [hdrop, drop_left, append_assoc, take_left]

/-- The length of a list, by one of its entries. -/
theorem length_encode_erase (hm : key ∈ ks) :
    (encode ks).length = key.length + 1 + (encode (ks.erase key)).length := by
  have hperm : (encode ks).Perm (encode (key :: ks.erase key)) :=
    (perm_cons_erase hm).flatMap_right trigEntry
  rw [hperm.length_eq, encode_cons, length_cons, length_append]
  omega

end Encode

/-! ### Payloads -/

/-- The payload lists the given entries, in the order in which the code keeps them. -/
structure Encodes (data : Bytes) (ks : List Bytes) : Prop where
  eq_encode : data = encode ks
  short : ∀ k ∈ ks, Short k
  sorted : ks.Pairwise Before

namespace Encodes

variable {data : Bytes} {ks : List Bytes} {key : Bytes}

theorem nil : Encodes [] [] := ⟨rfl, by simp, .nil⟩

section

variable (h : Encodes data ks)

include h

theorem entries : trigKeylistEntries data = some ks := by
  rw [h.eq_encode]
  exact trigKeylistEntries_encode h.short

theorem check (key : Bytes) : trigCheckKeylist data data.length key = some (decide (key ∈ ks)) := by
  rw [h.eq_encode]
  exact trigCheckKeylist_encode h.short h.sorted

theorem addkey (hk : Short key) (hn : key ∉ ks) :
    ∃ data', trigKeylistAddkey data key = some data' ∧ Encodes data' (insertKey key ks) := by
  rw [h.eq_encode]
  refine ⟨_, trigKeylistAddkey_encode h.short hn, rfl, ?_, pairwise_insertKey h.sorted hn⟩
  intro k hk'
  rcases mem_insertKey.mp hk' with rfl | hmem
  · exact hk
  · exact h.short k hmem

theorem rmvkey (hm : key ∈ ks) : ∃ data', trigKeylistRmvkey data key = some data' ∧
      Encodes data' (ks.erase key) := by
  rw [h.eq_encode]
  refine ⟨_, trigKeylistRmvkey_encode h.short hm, rfl, ?_, h.sorted.sublist erase_sublist⟩
  exact fun k hk => h.short k (mem_of_mem_erase hk)

theorem nodup : ks.Nodup := by
  refine h.sorted.imp fun {a b} hab heq => ?_
  subst heq
  simp [Before, compareKey_self] at hab

end

end Encodes

/-- Adding an entry does not leave an empty payload. -/
theorem trigKeylistAddkey_ne_nil {data data' key : Bytes}
    (h : trigKeylistAddkey data key = some data') : data' ≠ [] := by
  rw [trigKeylistAddkey] at h
  split at h
  · cases h
    simp [trigEntry]
  · split at h
    · split at h
      · cases h
      · cases h
        simp [trigEntry]
    · cases h

end Rejig
