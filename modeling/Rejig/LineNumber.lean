import Rejig.Line
import Mathlib.Data.List.TakeWhile

/-!
# Numbers in a request line

`mc_strtol`, `mc_strtoul` and `mc_strtoull` are given the line from a token on, and not the length
of the token. They read what `strtol` and its relatives read: white space, a sign, digits.  The word
that the client sent is the text of the token, up to the next blank; the other characters that are
white space may stand in it.

`ReadsSigned`, `ReadsUnsigned` and `ReadsUnsignedLong` say for which tokens the answer is that of
the word.
-/

namespace Rejig

open List

variable {s text : Bytes} {A : Type} {n : Nat}

/-! ## Numerals -/

/-- The sign in front of a text, if there is one. -/
def signOf : Bytes → Bytes
  | b :: _ => if b = 0x2d || b = 0x2b then [b] else []
  | [] => []

/-- A text without its sign. -/
def unsignedOf (text : Bytes) : Bytes := text.drop (signOf text).length

/-- A sign, perhaps, and then digits. -/
def IsNumeral (text : Bytes) : Prop :=
  unsignedOf text ≠ [] ∧ ∀ b ∈ unsignedOf text, isDigit b = true

instance instDecidableIsNumeral (text : Bytes) : Decidable (IsNumeral text) :=
  inferInstanceAs (Decidable (_ ∧ _))

/-- The number of a sign and digits. -/
def signedValue (sign digits : Bytes) : Int :=
  if sign = [0x2d] then -digitsValue digits else digitsValue digits

/-- The number that a word stands for, if it is a numeral for one of 32 bits with a sign. -/
def signedWord (text : Bytes) : Option Int :=
  let value := signedValue (signOf text) (unsignedOf text)
  if IsNumeral text ∧ -2 ^ 31 ≤ value ∧ value < 2 ^ 31 then some value else none

/-- The number that a word stands for, if it is a numeral without a sign for one below `bound`. -/
def unsignedWord (bound : Nat) (text : Bytes) : Option Nat :=
  if IsNumeral text ∧ signOf text = [] ∧ digitsValue text < bound then some
    (digitsValue text) else none

/-! ## What is read -/

namespace Token

variable (w : Token)

/-- The sign that is read. -/
def sign : Bytes := signOf (mcSkipSpace w.val)

/-- The digits that are read. -/
def digits : Bytes := (unsignedOf (mcSkipSpace w.val)).takeWhile isDigit

/-- What follows the digits that are read. -/
def rest : Bytes := (unsignedOf (mcSkipSpace w.val)).dropWhile isDigit

/-- The word has white space in it. -/
def Spaced : Prop := ∃ b ∈ w.text, isSpace b = true

/-- There are no digits, or they go on with something else. -/
def Refused : Prop :=
  if w.digits = [] then w.text.head?.any isSpace = false else w.rest.head?.any (!isSpace ·) = true

instance instDecidableSpaced : Decidable w.Spaced :=
  inferInstanceAs (Decidable (∃ b ∈ w.text, isSpace b = true))

instance instDecidableRefused : Decidable w.Refused :=
  inferInstanceAs
    (Decidable (if w.digits = [] then w.text.head?.any isSpace = false else w.rest.head?.any
      (!isSpace ·) = true))

/-- The number that is read, as `strtoul` makes it of 64 bits. -/
def wrapped : Nat := if w.sign = [0x2d] then (2 ^ 64 - digitsValue w.digits) % 2 ^ 64 else
      digitsValue w.digits

/-- The number is refused for the sake of a minus sign, which may stand anywhere from the token
on. -/
def Negative : Prop := 2 ^ 63 ≤ w.wrapped ∧ 0x2d ∈ w.val

instance instDecidableNegative : Decidable w.Negative := inferInstanceAs (Decidable (_ ∧ _))

/-- Where `mc_strtol` is exact: if there is no number, if it does not even fit 64 bits, and if it is
the word and fits 32. -/
def ReadsSigned : Prop :=
  w.Refused ∨ signedValue w.sign w.digits < -2 ^ 63 ∨ 2 ^ 63 ≤ signedValue w.sign w.digits ∨
    ¬ w.Spaced ∧ -2 ^ 31 ≤ signedValue w.sign w.digits ∧ signedValue w.sign w.digits < 2 ^ 31

/-- Where `mc_strtoul` is exact: if there is no number, if it does not fit 64 bits or is taken for a
negative one, and if it is the word, has no sign and fits 32. -/
def ReadsUnsigned : Prop :=
  w.Refused ∨ 2 ^ 64 ≤ digitsValue w.digits ∨ w.Negative ∨
    ¬ w.Spaced ∧ w.sign = [] ∧ digitsValue w.digits < 2 ^ 32

/-- Where `mc_strtoull` is exact: if there is no number, if it does not fit 64 bits, and if it is
the word, has no sign and is not taken for a negative one, or is not the word, or has a sign, and
is. -/
def ReadsUnsignedLong : Prop :=
  w.Refused ∨ 2 ^ 64 ≤ digitsValue w.digits ∨ (w.Negative ↔ w.Spaced ∨ w.sign ≠ [])

end Token

/-! ## Signs -/

theorem signOf_eq_minus_iff (text : Bytes) : signOf text = [0x2d] ↔ text.head? = some 0x2d := by
  cases text with
  | nil => simp [signOf]
  | cons b text =>
    simp only [signOf, List.head?_cons, Option.some.injEq]
    split
    · rw [List.cons.injEq, and_iff_left rfl]
    · next h =>
      simp only [Bool.or_eq_true, decide_eq_true_eq, not_or] at h
      simp [h.1]

theorem unsignedOf_eq (text : Bytes) : unsignedOf text =
    if decide (text.head? = some 0x2d) || decide (text.head? = some 0x2b) then
      text.tail else text := by
  cases text with
  | nil => rfl
  | cons b text =>
    by_cases h : (decide (b = 0x2d) || decide (b = 0x2b)) = true <;> simp [unsignedOf, signOf, h]

theorem signOf_append_unsignedOf (text : Bytes) : signOf text ++ unsignedOf text = text := by
  cases text with
  | nil => rfl
  | cons b text =>
    by_cases h : (decide (b = 0x2d) || decide (b = 0x2b)) = true <;> simp [unsignedOf, signOf, h]

theorem signOf_append (h : text ≠ []) (tail : Bytes) : signOf (text ++ tail) = signOf text := by
  cases text with
  | nil => exact absurd rfl h
  | cons b text => rfl

theorem unsignedOf_append (h : text ≠ []) (tail : Bytes) :
    unsignedOf (text ++ tail) = unsignedOf text ++ tail := by
  cases text with
  | nil => exact absurd rfl h
  | cons b text =>
    by_cases h : (decide (b = 0x2d) || decide (b = 0x2b)) = true <;> simp [unsignedOf, signOf, h]

/-- A numeral has no white space. -/
theorem IsNumeral.not_isSpace (h : IsNumeral text) {b : UInt8} (hb : b ∈ text) :
    isSpace b = false := by
  rw [← signOf_append_unsignedOf text, mem_append] at hb
  rcases hb with hb | hb
  · have hsign : b = 0x2d ∨ b = 0x2b := by
      cases text with
      | nil => simp [signOf] at hb
      | cons b' text =>
        rw [signOf] at hb
        split at hb
        · next hb' =>
          obtain rfl := mem_singleton.mp hb
          simpa using hb'
        · cases hb
    rcases hsign with rfl | rfl <;> rfl
  · exact isSpace_of_isDigit (h.2 b hb)

/-! ## The number read, against the word -/

/-- Two readings agree where both fail, or where both succeed with one number. -/
theorem reading_eq_iff {fails reads : Prop} [Decidable fails] [Decidable reads] {a b : A} :
    (if fails then none else some a) = (if reads then some b else none) ↔
      fails ∧ ¬ reads ∨ ¬ fails ∧ reads ∧ a = b := by
  by_cases hf : fails <;> by_cases hr : reads <;> simp [hf, hr]

theorem text_ne_nil (hpos : n ≠ 0) (hn : n ≤ s.length) : (⟨s, n⟩ : Token).text ≠ [] := by
  intro hnil
  have hlen := congrArg List.length hnil
  simp only [Token.text, length_take, length_nil] at hlen
  omega

/-- A token is not empty. -/
theorem text_ne_nil_of_mem_scanTokens {e : Bytes} {w : Token} (he : s.drop n = e)
    (hn : n ≤ s.length) (h : w ∈ scanTokens s n e) : w.text ≠ [] := by
  induction e generalizing s n with
  | nil =>
    rw [scanTokens] at h
    split at h
    · next hpos =>
      obtain rfl := mem_singleton.mp h
      exact text_ne_nil hpos hn
    · cases h
  | cons b e ih =>
    have hnext : s.drop (n + 1) = e := by rw [← drop_drop, he, drop_one, tail_cons]
    have hlt : n < s.length := by
      by_contra hle
      rw [drop_of_length_le (by omega)] at he
      cases he
    rw [scanTokens] at h
    split at h
    · split at h
      · next hpos =>
        rcases mem_cons.mp h with rfl | h
        · exact text_ne_nil hpos hn
        · exact ih rfl (Nat.zero_le _) h
      · exact ih rfl (Nat.zero_le _) h
    · exact ih hnext hlt h

namespace Token

variable {w : Token}

theorem text_append_drop (w : Token) : w.text ++ w.val.drop w.len = w.val := take_append_drop _ _

theorem head_val (htext : w.text ≠ []) : w.val.head? = w.text.head? := by
  conv_lhs => rw [← w.text_append_drop, List.head?_append_of_ne_nil _ htext]

/-- What the functions of the C library make of a token. -/
theorem strto_val (htext : w.text ≠ []) :
    strto w.val = if w.Refused then none else some (decide (w.sign = [0x2d]),
        digitsValue w.digits) := by
  have hminus : decide (w.sign = [0x2d]) = decide ((mcSkipSpace w.val).head? = some 0x2d) := by
    rw [decide_eq_decide]
    exact signOf_eq_minus_iff _
  have haccepts : ((if w.digits.length = 0 then w.val else w.rest).head?.any isSpace ||
      (decide ((if w.digits.length = 0 then w.val else w.rest).length = 0) &&
        decide (w.digits.length ≠ 0))) = true ↔
        ¬ w.Refused := by
    rw [Refused]
    by_cases hdigits : w.digits = []
    · rw [hdigits, length_nil, if_pos rfl, if_pos rfl, head_val htext]
      simp
    · have hlen : w.digits.length ≠ 0 := fun h => hdigits (length_eq_zero_iff.mp h)
      rw [if_neg hlen, if_neg hdigits]
      cases w.rest <;> simp [hdigits]
  rw [strto]
  simp only [← unsignedOf_eq]
  rw [← hminus]
  by_cases hrefused : w.Refused
  · rw [if_pos hrefused]
    exact if_neg fun h => haccepts.mp h hrefused
  · rw [if_neg hrefused]
    exact if_pos (haccepts.mpr hrefused)

section Word

variable (htext : w.text ≠ []) (htail : (w.val.drop w.len).head?.all (· = 0x20) = true)

include htext

/-- Without white space, the sign is that of the word. -/
theorem sign_eq (hspace : ¬ w.Spaced) : w.sign = signOf w.text ∧
    unsignedOf (mcSkipSpace w.val) = unsignedOf w.text ++ w.val.drop w.len := by
  have hskip : mcSkipSpace w.val = w.val := by
    obtain ⟨b, bs, hw⟩ := exists_cons_of_ne_nil htext
    have hb : isSpace b = false := by
      rw [Bool.eq_false_iff]
      exact fun hb => hspace ⟨b, hw ▸ mem_cons_self, hb⟩
    rw [← w.text_append_drop, hw, mcSkipSpace, cons_append, dropWhile_cons, if_neg (by simp [hb])]
  rw [sign, hskip]
  constructor
  · conv_lhs => rw [← w.text_append_drop, signOf_append htext]
  · conv_lhs => rw [← w.text_append_drop, unsignedOf_append htext]

include htail

/-- The word is read if and only if it is a numeral, provided that it has no white space. -/
theorem refused_iff (hspace : ¬ w.Spaced) : w.Refused ↔ ¬ IsNumeral w.text := by
  obtain ⟨-, hunsigned⟩ := sign_eq htext hspace
  have hhead : w.text.head?.any isSpace = false := by
    rw [Bool.eq_false_iff]
    intro h
    obtain ⟨b, hb, hspace'⟩ := (Option.any_eq_true _ _).mp h
    exact hspace ⟨b, List.mem_of_mem_head? hb, hspace'⟩
  rw [Refused, digits, rest, hunsigned]
  by_cases hall : ∀ b ∈ unsignedOf w.text, isDigit b = true
  · obtain ⟨htake, hdrop⟩ := not_isDigit_of_head htail
    rw [List.takeWhile_append_of_pos hall, List.dropWhile_append_of_pos hall, htake, hdrop,
      List.append_nil, IsNumeral, and_iff_left hall, not_not]
    refine ⟨fun h => ?_, fun h => by rw [if_pos h]; exact hhead⟩
    by_contra hne
    rw [if_neg hne] at h
    obtain ⟨b, hb, hspace'⟩ := (Option.any_eq_true _ _).mp h
    rw [hb, Option.all_some, decide_eq_true_eq] at htail
    rw [htail] at hspace'
    cases hspace'
  · -- the first character that is no digit stands in the word
    refine iff_of_true ?_ fun hnum => hall hnum.2
    have hne : (unsignedOf w.text).dropWhile isDigit ≠ [] := fun hnil =>
      hall (List.dropWhile_eq_nil_iff.mp hnil)
    obtain ⟨b, bs, hdrop⟩ := List.exists_cons_of_ne_nil hne
    have hb : b ∈ w.text := by
      rw [← signOf_append_unsignedOf w.text, ← List.takeWhile_append_dropWhile (p := isDigit)
        (l := unsignedOf w.text), hdrop]
      simp
    have hspace' : isSpace b = false := by
      rw [Bool.eq_false_iff]
      exact fun h => hspace ⟨b, hb, h⟩
    rw [List.dropWhile_append, hdrop]
    split
    · exact hhead
    · simp [hspace']

/-- The word is a numeral where it is read as it stands. -/
theorem isNumeral_iff : IsNumeral w.text ↔ ¬ w.Spaced ∧ ¬ w.Refused := by
  constructor
  · intro hnum
    have hspace : ¬ w.Spaced := by
      rintro ⟨b, hb, hspace⟩
      rw [hnum.not_isSpace hb] at hspace
      cases hspace
    exact ⟨hspace, fun h => (refused_iff htext htail hspace).mp h hnum⟩
  · rintro ⟨hspace, hrefused⟩
    exact of_not_not fun hnum => hrefused ((refused_iff htext htail hspace).mpr hnum)

/-- Of a numeral all is read. -/
theorem eq_of_isNumeral (hnum : IsNumeral w.text) :
    w.sign = signOf w.text ∧ w.digits = unsignedOf w.text := by
  obtain ⟨hsign, hunsigned⟩ := sign_eq htext ((isNumeral_iff htext htail).mp hnum).1
  refine ⟨hsign, ?_⟩
  rw [digits, hunsigned, takeWhile_append_of_pos hnum.2, (not_isDigit_of_head htail).1, append_nil]

theorem signedWord_text : signedWord w.text =
    if IsNumeral w.text ∧ -2 ^ 31 ≤ signedValue w.sign w.digits ∧
    signedValue w.sign w.digits < 2 ^ 31 then some (signedValue w.sign w.digits) else none := by
  rw [signedWord]
  by_cases hnum : IsNumeral w.text
  · obtain ⟨hsign, hdigits⟩ := eq_of_isNumeral htext htail hnum
    rw [hsign, hdigits]
  · rw [if_neg fun h => hnum h.1, if_neg fun h => hnum h.1]

theorem unsignedWord_text (bound : Nat) : unsignedWord bound w.text =
    if IsNumeral w.text ∧ w.sign = [] ∧ digitsValue w.digits < bound then some
      (digitsValue w.digits) else none := by
  rw [unsignedWord]
  by_cases hnum : IsNumeral w.text ∧ signOf w.text = []
  · obtain ⟨hsign, hdigits⟩ := eq_of_isNumeral htext htail hnum.1
    have htext : w.digits = w.text := by rw [hdigits, unsignedOf, hnum.2, length_nil, drop_zero]
    rw [hsign, htext]
  · rw [if_neg fun h => hnum ⟨h.1, h.2.1⟩, if_neg]
    rintro ⟨hword, hsign, -⟩
    exact hnum ⟨hword, (eq_of_isNumeral htext htail hword).1 ▸ hsign⟩

/-! ## Where the numbers are exact -/

omit htail in
theorem mcStrtol_val : mcStrtol w.val = if w.Refused ∨ signedValue w.sign w.digits < -2 ^ 63 ∨
    2 ^ 63 ≤ signedValue w.sign w.digits then none else some ((signedValue w.sign w.digits).bmod
        (2 ^ 32)) := by
  rw [mcStrtol, mcStrtoll, strto_val htext]
  by_cases hrefused : w.Refused
  · rw [if_pos hrefused, if_pos (.inl hrefused)]
    rfl
  · have hrange : (if decide (w.sign = [0x2d]) = true then 2 ^ 63 else 2 ^ 63 - 1) <
      digitsValue w.digits ↔
        signedValue w.sign w.digits < -2 ^ 63 ∨ 2 ^ 63 ≤ signedValue w.sign w.digits := by
      rw [signedValue]
      by_cases hminus : w.sign = [0x2d]
      · rw [decide_eq_true hminus, if_pos rfl, if_pos hminus]
        omega
      · rw [decide_eq_false hminus, if_neg (by decide), if_neg hminus]
        omega
    have hvalue : (if decide (w.sign = [0x2d]) = true then -(digitsValue w.digits : Int) else
      digitsValue w.digits) = signedValue w.sign w.digits := by
      simp only [signedValue, decide_eq_true_eq]
    rw [if_neg hrefused, Option.bind_some]
    dsimp only
    simp only [hrange, hvalue, hrefused, false_or]
    split <;> rfl

theorem mcStrtol_eq_iff : mcStrtol w.val = signedWord w.text ↔ w.ReadsSigned := by
  have hbmod : (signedValue w.sign w.digits).bmod (2 ^ 32) = signedValue w.sign w.digits ↔
      -2 ^ 31 ≤ signedValue w.sign w.digits ∧ signedValue w.sign w.digits < 2 ^ 31 := by
    rw [Int.bmod_def]
    omega
  rw [signedWord_text htext htail, mcStrtol_val htext, reading_eq_iff, isNumeral_iff htext htail,
    hbmod, ReadsSigned]
  generalize signedValue w.sign w.digits = value
  by_cases hrefused : w.Refused
  · simp [hrefused]
  · simp only [hrefused, false_or, not_false_eq_true, and_true]
    by_cases hspace : w.Spaced
    · simp [hspace]
    · simp only [hspace, not_false_eq_true, true_and]
      omega

omit htail in
/-- The test that `mc_strtoul` and `mc_strtoull` make, whatever they do with the number. -/
theorem unsigned_val (f : Nat → A) : (strto w.val).bind (fun (minus, value) =>
      let l := if minus then (2 ^ 64 - value) % 2 ^ 64 else value
      if uint64Max < value || (2 ^ 63 ≤ l && w.val.contains 0x2d) then none else some (f l)) =
    if w.Refused ∨ 2 ^ 64 ≤ digitsValue w.digits ∨ w.Negative then none else some
      (f w.wrapped) := by
  rw [strto_val htext]
  by_cases hrefused : w.Refused
  · rw [if_pos hrefused, if_pos (.inl hrefused)]
    rfl
  · have hwrapped : (if decide (w.sign = [0x2d]) = true then
      (2 ^ 64 - digitsValue w.digits) % 2 ^ 64 else digitsValue w.digits) = w.wrapped := by
      simp only [wrapped, decide_eq_true_eq]
    rw [if_neg hrefused, Option.bind_some]
    dsimp only
    rw [hwrapped]
    have hmax : uint64Max < digitsValue w.digits ↔ 2 ^ 64 ≤ digitsValue w.digits := by
      rw [uint64Max]
      omega
    simp only [Bool.or_eq_true, decide_eq_true_eq, Bool.and_eq_true, List.contains_iff_mem,
      hrefused, false_or, Negative, hmax]

omit htext htail in
theorem wrapped_of_sign (h : w.sign = []) : w.wrapped = digitsValue w.digits := by
  rw [wrapped, h, if_neg (by decide)]

theorem mcStrtoul_eq_iff : mcStrtoul w.val = unsignedWord (2 ^ 32) w.text ↔ w.ReadsUnsigned := by
  rw [unsignedWord_text htext htail, mcStrtoul, unsigned_val htext (· % 2 ^ 32), reading_eq_iff,
    isNumeral_iff htext htail, ReadsUnsigned]
  by_cases hrefused : w.Refused
  · simp [hrefused]
  simp only [hrefused, false_or, not_false_eq_true, and_true]
  by_cases hword : ¬ w.Spaced ∧ w.sign = []
  · have hnegative : w.Negative → 2 ^ 63 ≤ digitsValue w.digits := fun h =>
      wrapped_of_sign hword.2 ▸ h.1
    simp only [hword, wrapped_of_sign hword.2, not_false_eq_true, true_and]
    by_cases hneg : w.Negative
    · have := hnegative hneg
      simp only [hneg, or_true, true_or, not_true_eq_false, false_and, or_false, true_and, iff_true]
      omega
    · simp only [hneg, or_false, false_or]
      omega
  · simp only [← and_assoc (a := ¬ w.Spaced)]
    simp only [hword, false_and, and_false, not_false_eq_true, and_true, or_false]

theorem mcStrtoullAt_eq_iff :
    (mcStrtoullAt w.val).map UInt64.toNat = unsignedWord (2 ^ 64) w.text ↔ w.ReadsUnsignedLong := by
  have hmap {fails : Prop} [Decidable fails] (a : UInt64) :
      (if fails then none else some a).map UInt64.toNat = if fails then none else some a.toNat := by
        split <;> rfl
  rw [unsignedWord_text htext htail, mcStrtoullAt, unsigned_val htext UInt64.ofNat, hmap,
    reading_eq_iff, isNumeral_iff htext htail, ReadsUnsignedLong]
  by_cases hrefused : w.Refused
  · simp [hrefused]
  by_cases hbig : 2 ^ 64 ≤ digitsValue w.digits
  · have hlt := Nat.not_lt.mpr hbig
    simp only [hbig, hlt, true_or, or_true, and_false, not_false_eq_true, true_and,
      false_and, or_false]
  have hlt : digitsValue w.digits < 2 ^ 64 := Nat.lt_of_not_le hbig
  simp only [hrefused, hbig, hlt, false_or, not_false_eq_true, and_true]
  by_cases hword : ¬ w.Spaced ∧ w.sign = []
  · have hvalue : (UInt64.ofNat w.wrapped).toNat = digitsValue w.digits := by
      rw [wrapped_of_sign hword.2, UInt64.toNat_ofNat_of_lt' hlt]
    simp [hword, hvalue]
  · have hother : w.Spaced ∨ w.sign ≠ [] := by rwa [not_and_or, not_not] at hword
    simp only [hword, hother, not_false_eq_true, and_true, false_and, and_false, or_false, iff_true]

end Word

end Token

/-! ## Request lines -/

/-- The numbers of a request line are those of its words exactly where the conditions above hold. -/
theorem numbers_exact_iff (line : Bytes) (w : Token)
    (h : w ∈ scanTokens (ascCommand line) 0 (ascCommand line)) :
    (mcStrtol w.val = signedWord w.text ↔ w.ReadsSigned) ∧
      (mcStrtoul w.val = unsignedWord (2 ^ 32) w.text ↔ w.ReadsUnsigned) ∧
      ((mcStrtoullAt w.val).map UInt64.toNat = unsignedWord (2 ^ 64) w.text ↔
        w.ReadsUnsignedLong) := by
  have htext : w.text ≠ [] := text_ne_nil_of_mem_scanTokens rfl (Nat.zero_le _) h
  have htail : (w.val.drop w.len).head?.all (· = 0x20) = true := head_drop_of_mem_scanTokens rfl h
  exact ⟨Token.mcStrtol_eq_iff htext htail, Token.mcStrtoul_eq_iff htext htail,
    Token.mcStrtoullAt_eq_iff htext htail⟩

/-- In `get -1 k`, the configuration number is read as it is written. -/
theorem numbers_exact_iff_get : mcStrtol (ofChars ['-', '1', ' ', 'k']) = some (-1) := by
  have hmem : (⟨ofChars ['-', '1', ' ', 'k'], 2⟩ : Token) ∈
      ascTokenize (ofChars ['g', 'e', 't', ' ', '-', '1', ' ', 'k']) := by decide +kernel
  have hword : signedWord (⟨ofChars ['-', '1', ' ', 'k'], 2⟩ : Token).text = some
    (-1) := by decide +kernel
  refine ((numbers_exact_iff (ofChars ['g', 'e', 't', ' ', '-', '1', ' ', 'k']) _ hmem).1.mpr
    ?_).trans hword
  exact .inr (.inr (.inr (by decide +kernel)))

/-- In `get 4294967296 k`, the configuration number is read as `0`. -/
theorem mcStrtol_wraps :
    (⟨ofChars ['4', '2', '9', '4', '9', '6', '7', '2', '9', '6', ' ', 'k'], 10⟩ : Token) ∈
        ascTokenize (ofChars ['g', 'e', 't', ' ', '4', '2', '9', '4', '9', '6', '7', '2', '9', '6',
        ' ', 'k']) ∧
      mcStrtol (ofChars ['4', '2', '9', '4', '9', '6', '7', '2', '9', '6', ' ', 'k']) = some 0 ∧
      signedWord (ofChars ['4', '2', '9', '4', '9', '6', '7', '2', '9', '6']) = none := by
  decide +kernel

end Rejig
