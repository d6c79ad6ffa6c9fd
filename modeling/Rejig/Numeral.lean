import Mathlib.Data.List.Basic
import Mathlib.Tactic.Ring
import Mathlib.Tactic.NormNum

/-!
# Numbers as decimal text

A lease token lives in the payload of a lease record as the text that `snprintf` writes with
`PRIu64`, and every operation that compares a token parses that text again with
`mc_strtoull_len` (`mc_util.c`).  The parser stops short of the full range: as its comment says, it
converts integers up to `UINT64_MAX - 6`, and refuses the six that remain.  The round trip
`mcStrtoullLen_decimal` therefore has the bound `tokenLimit` in it.
-/

namespace Rejig

/-- Strings of the source: keys, identifiers and payloads, all without a terminator. -/
abbrev Bytes := List UInt8

instance : LawfulBEq Bytes := inferInstance

/-- `isspace` in the C locale. -/
def isSpace (b : UInt8) : Bool := b == 32 || (9 ≤ b && b ≤ 13)

/-- A decimal digit. -/
def isDigit (b : UInt8) : Bool := 48 ≤ b && b ≤ 57

/-- `mc_skip_space` -/
def mcSkipSpace (str : Bytes) : Bytes := str.dropWhile isSpace

/-- `UINT64_MAX` -/
def uint64Max : Nat := 2 ^ 64 - 1

/-- The digit loop of `mc_strtoull_len`: the number read so far and what is left, or `none` when
the number leaves the range. -/
def scanDigits : Nat → Bytes → Option (Nat × Bytes)
  | out, [] => some (out, [])
  | out, b :: str =>
    if isDigit b then
      if uint64Max / 10 ≤ out then none else scanDigits (out * 10 + (b.toNat - 48)) str
    else some (out, b :: str)

/-- `mc_strtoull_len` -/
def mcStrtoullLen (str : Bytes) : Option UInt64 :=
  if str.length = 0 then none
  else
    match scanDigits 0 (mcSkipSpace str) with
    | none => none
    | some (out, rest) => if (mcSkipSpace rest).length = 0 then some (.ofNat out) else none

/-- The number that the digit loop of `mc_strtoull_len` has read when it ends. -/
def scanOut : Nat → Bytes → Nat
  | out, [] => out
  | out, b :: str =>
    if isDigit b && out < uint64Max / 10 then scanOut (out * 10 + (b.toNat - 48)) str else out

/-- What `mc_strtoull_len` leaves in `out`, whether it succeeds or not.  Without a text it leaves
nothing there. -/
def mcStrtoullOut (str : Bytes) : Option UInt64 :=
  if str.length = 0 then none else some (.ofNat (scanOut 0 (mcSkipSpace str)))

/-- `mc_strtoull` on a word of a request line: an optional sign, then digits up to the end of the
word.  The number of a word with a minus sign wraps around, and is refused when it is then large. -/
def mcStrtoull (str : Bytes) : Option UInt64 :=
  let minus : Bool := str.head? = some 0x2d
  let digits := if minus || str.head? = some 0x2b then str.tail else str
  let value : Nat := digits.foldl (fun v b => 10 * v + (b.toNat - 48)) 0
  if digits.length = 0 || !digits.all isDigit then none
  else if uint64Max < value then none
  else if minus then
    if 0 < value && value ≤ 2 ^ 63 then none else some (.ofNat (2 ^ 64 - value))
  else some (.ofNat value)

/-- The digits of `n` in front of `acc`, the most significant one first; `fuel` bounds their
number. -/
def decimalDigits : (fuel n : Nat) → (acc : Bytes) → Bytes
  | 0, _, acc => acc
  | fuel + 1, n, acc =>
    let acc' := .ofNat (48 + n % 10) :: acc
    if n < 10 then acc' else decimalDigits fuel (n / 10) acc'

/-- What `snprintf` writes for `PRIu64`: a 64-bit number has at most 20 digits. -/
def decimal (n : UInt64) : Bytes := decimalDigits 20 n.toNat []

/-- The least number that `mc_strtoull_len` does not read back, `UINT64_MAX - 5`. -/
def tokenLimit : Nat := 10 * (uint64Max / 10)

theorem tokenLimit_eq : tokenLimit = 2 ^ 64 - 6 := by decide

section

variable {fuel n : Nat} {acc : Bytes}

theorem digit_toNat (n : Nat) : (UInt8.ofNat (48 + n % 10)).toNat - 48 = n % 10 := by
  have h : (48 + n % 10) % 2 ^ 8 = 48 + n % 10 := Nat.mod_eq_of_lt (by omega)
  rw [UInt8.toNat_ofNat', h, Nat.add_sub_cancel_left]

theorem isDigit_digit (n : Nat) : isDigit (.ofNat (48 + n % 10)) = true := by
  have h : (48 + n % 10) % 2 ^ 8 = 48 + n % 10 := Nat.mod_eq_of_lt (by omega)
  simp only [isDigit, Bool.and_eq_true, decide_eq_true_eq, UInt8.le_iff_toNat_le,
    UInt8.toNat_ofNat', h]
  constructor
  · change 48 ≤ 48 + n % 10
    omega
  · change 48 + n % 10 ≤ 57
    omega

/-- Scanning the digits of `n` yields `n`, or nothing when `n` is out of range. -/
theorem scanDigits_decimalDigits (h : n < 10 ^ fuel) (hf : 0 < fuel) :
    scanDigits 0 (decimalDigits fuel n acc) = if n < tokenLimit then scanDigits n
      acc else none := by
  induction fuel generalizing n acc with
  | zero => omega
  | succ fuel ih =>
    rw [decimalDigits]
    split
    · -- a single digit is always in range
      rename_i hn
      have hlt : n < tokenLimit := by rw [tokenLimit_eq]; omega
      have hmod : n % 10 = n := Nat.mod_eq_of_lt hn
      rw [if_pos hlt, scanDigits, if_pos (isDigit_digit n), if_neg (by decide), digit_toNat, hmod]
      simp
    · rename_i hn
      have hdiv : n / 10 < 10 ^ fuel := by
        rw [Nat.div_lt_iff_lt_mul (by decide)]
        simpa [pow_succ] using h
      have hpos : 0 < fuel := by
        rcases Nat.eq_zero_or_pos fuel with rfl | hpos
        · simp at hdiv
          omega
        · exact hpos
      rw [ih hdiv hpos, scanDigits, if_pos (isDigit_digit n), digit_toNat,
        show n / 10 * 10 + n % 10 = n by omega]
      have hlim : tokenLimit = 10 * (uint64Max / 10) := rfl
      have hmax : 0 < uint64Max / 10 := by decide
      generalize uint64Max / 10 = m at *
      by_cases hlt : n < tokenLimit
      · rw [if_pos (by omega), if_neg (by omega), if_pos hlt]
      · rw [if_neg hlt]
        split
        · rw [if_pos (by omega)]
        · rfl

theorem length_decimalDigits_le (fuel n : Nat) (acc : Bytes) :
    (decimalDigits fuel n acc).length ≤ fuel + acc.length := by
  induction fuel generalizing n acc with
  | zero => simp [decimalDigits]
  | succ fuel ih =>
    have hrest := ih (n / 10) (.ofNat (48 + n % 10) :: acc)
    rw [List.length_cons] at hrest
    rw [decimalDigits]
    split
    · rw [List.length_cons]
      omega
    · omega

/-- The digits start with a digit. -/
theorem decimalDigits_eq_cons (fuel n : Nat) (acc : Bytes) (hf : 0 < fuel) :
    ∃ b str, decimalDigits fuel n acc = b :: str ∧ isDigit b = true := by
  induction fuel generalizing n acc with
  | zero => omega
  | succ fuel ih =>
    rw [decimalDigits]
    split
    · exact ⟨_, _, rfl, isDigit_digit n⟩
    · rcases Nat.eq_zero_or_pos fuel with rfl | hpos
      · exact ⟨_, _, rfl, isDigit_digit n⟩
      · exact ih _ _ hpos

end

theorem isSpace_of_isDigit {b : UInt8} (h : isDigit b = true) : isSpace b = false := by
  simp only [isDigit, Bool.and_eq_true, decide_eq_true_eq, UInt8.le_iff_toNat_le] at h
  have h48 : (48 : UInt8).toNat = 48 := rfl
  have h13 : (13 : UInt8).toNat = 13 := rfl
  have hne : b ≠ 32 := by
    rintro rfl
    exact absurd h.1 (by decide)
  have hgt : ¬ b ≤ 13 := by
    rw [UInt8.le_iff_toNat_le]
    omega
  simp [isSpace, hne, hgt]

theorem length_decimal_le (n : UInt64) : (decimal n).length ≤ 20 :=
  length_decimalDigits_le 20 n.toNat []

theorem decimal_ne_nil (n : UInt64) : decimal n ≠ [] := by
  obtain ⟨b, str, h, -⟩ := decimalDigits_eq_cons 20 n.toNat [] (by decide)
  simp [decimal, h]

@[simp] theorem mcSkipSpace_decimal (n : UInt64) : mcSkipSpace (decimal n) = decimal n := by
  obtain ⟨b, str, h, hb⟩ := decimalDigits_eq_cons 20 n.toNat [] (by decide)
  simp [mcSkipSpace, decimal, h, isSpace_of_isDigit hb]

/-- The text of a number reads back as the number, up to the limit of the parser. -/
theorem mcStrtoullLen_decimal (n : UInt64) :
    mcStrtoullLen (decimal n) = if n.toNat < tokenLimit then some n else none := by
  have hlen : (decimal n).length ≠ 0 := by simpa using decimal_ne_nil n
  have hscan : scanDigits 0 (decimal n) = if n.toNat < tokenLimit then some (n.toNat,
    []) else none :=
    scanDigits_decimalDigits (n.toNat_lt.trans (by norm_num)) (by decide)
  rw [mcStrtoullLen, if_neg hlen, mcSkipSpace_decimal, hscan]
  by_cases h : n.toNat < tokenLimit
  · simp [h, mcSkipSpace]
  · simp [h]

end Rejig
