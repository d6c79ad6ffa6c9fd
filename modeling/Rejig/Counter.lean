import Rejig.StoreEffect
import Rejig.Service
import Mathlib.Data.List.TakeWhile

/-!
# Counters

`incr` and `decr` keep a number as its decimal text.  `mc_strtoull_len` reads the text of an item,
white space around it included, and `_item_add_delta` writes the text of the new number: in place if
it is no longer than the old one, and else to a new item.

The two ways of writing differ in what becomes of the rest of the item.  In place, the bytes go
where the old payload starts, which for a right-aligned item is not where the shorter payload will
be looked for.  A new item takes over the flags, the expiry and the pending bit of the old one, but
not its configuration number.
-/

namespace Rejig

open Prog Server List

/-! ## Reading a number -/

/-- A text of white space. -/
def IsBlank (str : Bytes) : Prop := ∀ b ∈ str, isSpace b = true

instance instDecidableIsBlank (str : Bytes) : Decidable (IsBlank str) :=
  inferInstanceAs (Decidable (∀ _ ∈ _, _))

section Reading

variable {before after str rest : Bytes} {n out fuel : Nat}

theorem decimalDigits_append (fuel n : Nat) (acc after : Bytes) :
    decimalDigits fuel n acc ++ after = decimalDigits fuel n (acc ++ after) := by
  induction fuel generalizing n acc with
  | zero => rfl
  | succ fuel ih =>
    rw [decimalDigits, decimalDigits]
    split
    · rfl
    · exact ih _ _

theorem mcSkipSpace_eq_nil : mcSkipSpace str = [] ↔ IsBlank str := by
  rw [mcSkipSpace, dropWhile_eq_nil_iff]
  rfl

theorem IsBlank.mcSkipSpace_append (h : IsBlank before) (str : Bytes) :
    mcSkipSpace (before ++ str) = mcSkipSpace str :=
  dropWhile_append_of_pos h

/-- White space ends the digits. -/
theorem IsBlank.scanDigits (h : IsBlank str) (out : Nat) :
    scanDigits out str = some (out, str) := by
  cases str with
  | nil => rfl
  | cons b str =>
    have hb : isDigit b = false := by
      by_contra hdigit
      have := isSpace_of_isDigit (Bool.not_eq_false _ ▸ hdigit)
      rw [h b mem_cons_self] at this
      cases this
    rw [Rejig.scanDigits, hb]
    rfl

/-- What the digit loop leaves, and what it has passed. -/
theorem exists_digits_of_scanDigits (h : scanDigits out str = some (n, rest)) :
    ∃ digits, str = digits ++ rest ∧ ∀ b ∈ digits, isDigit b = true := by
  induction str generalizing out with
  | nil =>
    cases h
    exact ⟨[], rfl, nofun⟩
  | cons b str ih =>
    rw [scanDigits] at h
    split at h
    · next hb =>
      split at h
      · cases h
      · obtain ⟨digits, rfl, hdigits⟩ := ih h
        exact ⟨b :: digits, rfl, forall_mem_cons.mpr ⟨hb, hdigits⟩⟩
    · cases h
      exact ⟨[], rfl, nofun⟩

/-- A number with white space around it reads back as the number, up to the limit of the parser. -/
theorem mcStrtoullLen_spaced (hbefore : IsBlank before) (hafter : IsBlank after) (x : UInt64) :
    mcStrtoullLen (before ++ decimal x ++ after) = if x.toNat < tokenLimit then some
      x else none := by
  obtain ⟨b, str, hdec, hb⟩ := decimalDigits_eq_cons 20 x.toNat after (by decide)
  have hskip : mcSkipSpace (before ++ decimal x ++ after) = decimalDigits 20 x.toNat after := by
    rw [append_assoc, hbefore.mcSkipSpace_append, decimal, decimalDigits_append, nil_append, hdec,
      mcSkipSpace, dropWhile_cons_of_neg (by rw [isSpace_of_isDigit hb]; exact Bool.false_ne_true)]
  have hlength : ¬ (before ++ decimal x ++ after).length = 0 := by
    rw [length_eq_zero_iff]
    intro hnil
    exact decimal_ne_nil x (append_eq_nil_iff.mp (append_eq_nil_iff.mp hnil).1).2
  rw [mcStrtoullLen, if_neg hlength, hskip,
    scanDigits_decimalDigits (x.toNat_lt.trans (by norm_num)) (by decide), hafter.scanDigits]
  by_cases h : x.toNat < tokenLimit
  · simp [h, mcSkipSpace_eq_nil.mpr hafter]
  · simp [h]

/-- A text that is accepted, and is more than white space, is a number with white space around
it. -/
theorem exists_digits_of_mcStrtoullLen {x : UInt64} (h : mcStrtoullLen str = some x)
    (hstr : ¬ IsBlank str) :
    ∃ before digits after, str = before ++ digits ++ after ∧ IsBlank before ∧ digits ≠ [] ∧
      (∀ b ∈ digits, isDigit b = true) ∧ IsBlank after := by
  rw [mcStrtoullLen] at h
  split at h
  · cases h
  cases hscan : scanDigits 0 (mcSkipSpace str) with
  | none =>
    rw [hscan] at h
    cases h
  | some p =>
    obtain ⟨out, rest⟩ := p
    rw [hscan] at h
    dsimp only at h
    split at h
    · next hrest =>
      have hblank : IsBlank rest := mcSkipSpace_eq_nil.mp (length_eq_zero_iff.mp hrest)
      obtain ⟨digits, hsplit, hdigits⟩ := exists_digits_of_scanDigits hscan
      have hsplit' : str = str.takeWhile isSpace ++ digits ++ rest := by
        rw [append_assoc, ← hsplit, mcSkipSpace, takeWhile_append_dropWhile]
      have hbefore : IsBlank (str.takeWhile isSpace) := fun b hb => mem_takeWhile_imp hb
      refine ⟨_, digits, rest, hsplit', hbefore, ?_, hdigits, hblank⟩
      rintro rfl
      refine hstr fun b hb => ?_
      rw [hsplit', append_nil] at hb
      exact (mem_append.mp hb).elim (hbefore b) (hblank b)
    · cases h

/-- Parsing undoes printing, up to `UINT64_MAX - 6`, and nothing but numbers is accepted among the
texts that are more than white space. -/
theorem mcStrtoullLen_round_trip :
    (∀ (x : UInt64) (before after : Bytes), IsBlank before → IsBlank after →
      mcStrtoullLen (before ++ decimal x ++ after) = if x.toNat ≤ uint64Max - 6 then some
        x else none) ∧
    ∀ (str : Bytes) (x : UInt64), mcStrtoullLen str = some x → ¬ IsBlank str →
      ∃ before digits after, str = before ++ digits ++ after ∧ IsBlank before ∧ digits ≠ [] ∧
        (∀ b ∈ digits, isDigit b = true) ∧ IsBlank after := by
  refine ⟨fun x before after hbefore hafter => ?_, fun str x h hstr =>
    exists_digits_of_mcStrtoullLen h hstr⟩
  have hlimit : x.toNat < tokenLimit ↔ x.toNat ≤ uint64Max - 6 := by
    rw [tokenLimit_eq, uint64Max]
    omega
  rw [mcStrtoullLen_spaced hbefore hafter]
  simp only [hlimit]

/-- A number between a blank and a line end. -/
theorem mcStrtoullLen_round_trip_spaced :
    mcStrtoullLen ([0x20] ++ decimal 42 ++ [0x0d, 0x0a]) = some 42 := by
  rw [mcStrtoullLen_round_trip.1 42 [0x20] [0x0d, 0x0a] (by decide +kernel) (by decide +kernel)]
  exact if_pos (by decide)

/-- The largest number is written but not read. -/
theorem mcStrtoullLen_refuses : mcStrtoullLen (decimal (.ofNat uint64Max)) = none := by decide

end Reading

/-! ## Counting -/

/-- The number after an increment or a decrement. -/
def counted (incr : Bool) (v d : UInt64) : Nat :=
  if incr then (v.toNat + d.toNat) % 2 ^ 64 else v.toNat - d.toNat

/-- The text of the number after an increment or a decrement. -/
def countedText (incr : Bool) (v d : UInt64) : Bytes := decimal (.ofNat (counted incr v d))

/-- An item after an increment or a decrement: the text is that of the new number, and the rest is
as before. -/
structure Item.Counts (incr : Bool) (v d : UInt64) (it it' : Item) : Prop where
  data : it'.data = countedText incr v d
  dataflags : it'.dataflags = it.dataflags
  p : it'.p = it.p
  exptime : it'.exptime = it.exptime
  configNumber : it'.configNumber = it.configNumber

/-- Where counting works.  A longer text needs a new item, for which there has to be memory, and
which has no configuration number; a shorter one in a right-aligned item has to come out right by
accident. -/
def Item.Countable (c : Settings) (s : Server) (it : Item) (text : Bytes) : Prop :=
  if it.nbyte < text.length then c.fits it.key.length text.length = true ∧ s.room = true ∧
    it.configNumber = -1
  else it.ralign = false ∨ text <:+ text ++ it.data.drop text.length

section Counting

variable {c : Settings} {s : Server} {it : Item} {key text : Bytes} {incr : Bool} {v d : UInt64}

theorem addDelta_eq_ofNat (incr : Bool) (v d : UInt64) :
    addDelta incr v d = .ofNat (counted incr v d) := by
  apply UInt64.toNat_inj.mp
  cases incr with
  | true => simp [addDelta, counted]
  | false =>
    have hlt : v.toNat - d.toNat < 2 ^ 64 := (Nat.sub_le _ _).trans_lt v.toNat_lt
    rw [addDelta, counted]
    simp only [Bool.false_eq_true, if_false, UInt64.toNat_ofNat', Nat.mod_eq_of_lt hlt]
    split
    · next h =>
      rw [UInt64.lt_iff_toNat_lt] at h
      rw [Nat.sub_eq_zero_of_le h.le]
      rfl
    · next h =>
      rw [UInt64.not_lt] at h
      exact UInt64.toNat_sub_of_le _ _ h

/-- A text written in place is what the item then shows. -/
theorem inPlaceData_eq_iff :
    inPlaceData it text = text ↔ it.ralign = false ∨ text <:+ text ++ it.data.drop text.length := by
  rw [inPlaceData]
  cases it.ralign with
  | false => simp
  | true =>
    have hlen : (text ++ it.data.drop text.length).length - text.length = it.nbyte -
      text.length := by
      rw [length_append, length_drop, Nat.add_sub_cancel_left, Item.nbyte]
    rw [suffix_iff_eq_drop, hlen]
    simp [eq_comm]

/-- Incrementing and decrementing an item works exactly where it is `Countable`. -/
theorem itemAddDelta_counts_iff (hit : s.live key = some it) (hv : mcStrtoullLen it.data = some v) :
    wp (itemAddDelta key incr d) (fun r s' => r = .ok (countedText incr v d) ∧
      ∃ it', s'.find key = some it' ∧ it.Counts incr v d it') c s ↔
      it.Countable c s (countedText incr v d) := by
  have hkey : it.key = key := Server.key_of_live hit
  have hfind : (s.reap key).find it.key = some it := by rw [hkey, Server.find_reap_self, hit]
  have htext : decimal (addDelta incr v d) = countedText incr v d := by
    rw [addDelta_eq_ofNat, countedText]
  have hname : u8Name it.key = key := by rw [u8Name_of_lt it.key_lt, hkey]
  have hnew : ∀ (s₁ : Server) (nit : Item), nit.key = key →
    (s₁.link c nit).find key = some (s₁.stamp c nit) := by
    intro s₁ nit hnit
    rw [Server.find_link, if_pos hnit.symm]
  have hwrite : ∀ (s₁ : Server) (f : Item → Item), s₁.find it.key = some it →
    (∀ it', (f it').key = it'.key) →
      (s₁.write it f).find key = some (f it) := by
    intro s₁ f hs₁ hf
    rw [Server.find_write_of_find _ _ hf hs₁, if_pos hkey.symm]
  rw [wp_iff_not_wlp, itemAddDelta, wlp_bind, wlp_itemGet, hit]
  simp only [hv, htext]
  rw [Item.Countable]
  split
  · -- a new item
    rw [wlp_bind, wlp_itemAlloc, Classical.not_imp]
    refine and_congr_right fun _ => ?_
    cases hroom : s.room with
    | false =>
      have hroom' : (s.reap key).room = false := hroom
      rw [hroom', if_neg Bool.false_ne_true]
      simp
    | true =>
      have hroom' : (s.reap key).room = true := hroom
      rw [hroom', if_pos rfl]
      dsimp only
      rw [wlp_bind, itemReplace, wlp_bind, wlp_itemUnlink, wlp_itemLink, wlp_pure, not_not, hnew]
      · constructor
        · rintro ⟨-, it', heq, hcounts⟩
          cases heq
          exact ⟨rfl, hcounts.configNumber.symm⟩
        · rintro ⟨-, hconfig⟩
          exact ⟨rfl, _, rfl, rfl, rfl, rfl, rfl, hconfig.symm⟩
      · exact hname
  · -- in place
    rw [wlp_bind, wlp_itemNextCas, wlp_bind, wlp_itemWrite, wlp_pure, not_not, ← inPlaceData_eq_iff]
    rw [hwrite]
    · constructor
      · rintro ⟨-, it', heq, hcounts⟩
        cases heq
        exact hcounts.data
      · intro hdata
        exact ⟨rfl, _, rfl, hdata, rfl, rfl, rfl, rfl⟩
    · exact hfind
    · exact fun _ => rfl

end Counting

/-- The counter `9` has been incremented to `10`, and has no configuration number since; the text
`100` needs a new item once more. -/
theorem itemAddDelta_counts_iff_longer : ∃ (h : History) (w : World) (it : Item),
    (service {}).Run h w ∧
    w.server.live [0x6b] = some it ∧ it.data = [0x31, 0x30] ∧
    wp (itemAddDelta [0x6b] true 90) (fun r s' => r = .ok (countedText true 10 90) ∧
      ∃ it', s'.find [0x6b] = some it' ∧ it.Counts true 10 90 it') {} w.server := by
  obtain ⟨h, w, hr, hroom, it, hit, hdata, hconfig⟩ := (playable_run {}).exists_run
    [.line 0 (.update .set (-1) (-1) [0x6b] 0 0 1), .body 0 [0x39, 0x0d, 0x0a],
      .line 0 (.arithmetic true (-1) [0x6b] [0x31])]
    (P := fun _ w => w.server.room ∧ ∃ it, w.server.live [0x6b] = some it ∧ it.data = [0x31, 0x30] ∧
      it.configNumber = -1) (by decide +kernel)
  refine ⟨h, w, it, hr, hit, hdata, ?_⟩
  refine (itemAddDelta_counts_iff hit (v := 10) (by rw [hdata]; decide)).mpr ?_
  have hkey : it.key = [0x6b] := key_of_live hit
  rw [Item.Countable, Item.nbyte, hdata, hkey, if_pos (by decide)]
  exact ⟨by decide, hroom, hconfig⟩

/-- The counter `9` is stored with the configuration number `5`, and the number of the item is lost
with an increment. -/
theorem itemAddDelta_loses_configNumber : ∃ (h : History) (w : World) (it : Item),
    (service {}).Run h w ∧
    w.server.live [0x6b] = some it ∧ it.data = [0x39] ∧
    ¬ wp (itemAddDelta [0x6b] true 1) (fun r s' => r = .ok (countedText true 9 1) ∧
      ∃ it', s'.find [0x6b] = some it' ∧ it.Counts true 9 1 it') {} w.server := by
  obtain ⟨h, w, hr, hlost, it, hit, hdata, hconfig⟩ := (playable_run {}).exists_run
    [.line 0 (.update .set (-1) 5 [0x6b] 0 0 1), .body 0 [0x39, 0x0d, 0x0a]]
    (P := fun _ w => ((Prog.run (itemAddDelta [0x6b] true 1) {} w.server).all fun r =>
        (r.2.find [0x6b]).all fun it' => it'.configNumber = -1) ∧
      ∃ it, w.server.live [0x6b] = some it ∧ it.data = [0x39] ∧ it.configNumber = 5)
        (by decide +kernel)
  refine ⟨h, w, it, hr, hit, hdata, ?_⟩
  rintro ⟨r, s', hrun, -, it', hfind, hcounts⟩
  rw [hrun, Option.all_some, hfind, Option.all_some, decide_eq_true_eq, hcounts.configNumber,
    hconfig] at hlost
  cases hlost

end Rejig
