import Rejig.Exec

/-!
# The lines of commands with a body

`asc_parse` cuts a line off the buffer of a connection, `asc_tokenize` splits it at its blanks, and
the handler of the command counts the tokens and reads the numbers among them.  This module does so
for the commands that carry a body, down to the handlers of `Rejig.Ascii`, which start from the
numbers.

A token is a pointer into the line.  Its text is `len` bytes long, but the functions that read a
number are given the pointer alone and stop by themselves.  They compute with 64 bits and hand on
the lower 32, so that a length of `2 ^ 32` is taken for a length of `0`.

A handler that refuses a line may ask the connection to throw the body away.  `Handled` keeps that
request next to the answer.
-/

namespace Rejig

open Prog List

variable {handler m : ServerM Outcome} {i : Nat} {A : Type} {completion : Completion}
  {out : Outcome} {rest : Bytes} {t : Token}

/-! ## Tokens -/

/-- `struct token`: the line from the token on, and the length of the token. -/
structure Token where
  val : Bytes
  len : Nat
deriving DecidableEq, Repr

/-- The bytes of a token. -/
def Token.text (t : Token) : Bytes := t.val.take t.len

/-- The loop of `asc_tokenize`: a token may start at `s` and has `n` bytes so far, and `e` is what
is left to be scanned. -/
def scanTokens : (s : Bytes) → (n : Nat) → (e : Bytes) → List Token
  | s, n, [] => if n ≠ 0 then [⟨s, n⟩] else []
  | s, n, b :: e =>
    if b = 0x20 then if n ≠ 0 then ⟨s, n⟩ :: scanTokens e 0 e else scanTokens e 0 e
    else scanTokens s (n + 1) e

/-- `TOKEN_MAX` -/
def tokenMax : Nat := 16

/-- `asc_tokenize`.  The source puts a terminal token behind these, and counts it. -/
def ascTokenize (command : Bytes) : List Token := (scanTokens command 0 command).take (tokenMax - 1)

/-- The command in a line as `asc_parse` leaves it: without a carriage return at the end, and up to
the first zero byte. -/
def ascCommand (line : Bytes) : Bytes :=
  (if 1 < line.length && line.getLast? = some 0x0d then line.dropLast else line).takeWhile (· ≠ 0)

/-- The text of a token ends at a blank or at the end of the line. -/
theorem head_drop_of_mem_scanTokens {s e : Bytes} {n : Nat} (he : s.drop n = e)
    (h : t ∈ scanTokens s n e) :
    (t.val.drop t.len).head?.all (· = 0x20) = true := by
  induction e generalizing s n with
  | nil =>
    rw [scanTokens] at h
    split at h
    · obtain rfl := mem_singleton.mp h
      rw [he]
      rfl
    · cases h
  | cons b e ih =>
    have hnext : s.drop (n + 1) = e := by rw [← drop_drop, he, drop_one, tail_cons]
    rw [scanTokens] at h
    split at h
    · next hb =>
      split at h
      · rcases mem_cons.mp h with rfl | h
        · simp [he, hb]
        · exact ih rfl h
      · exact ih rfl h
    · exact ih hnext h

theorem head_drop_of_mem_ascTokenize {command : Bytes} (h : t ∈ ascTokenize command) :
    (t.val.drop t.len).head?.all (· = 0x20) = true :=
  head_drop_of_mem_scanTokens rfl (mem_of_mem_take h)

/-! ## Numbers -/

/-- The value of a string of digits. -/
def digitsValue (digits : Bytes) : Nat := digits.foldl (fun v b => 10 * v + (b.toNat - 48)) 0

/-- What `strtol` and `strtoul` read, as far as `mc_strtol` and its relatives accept it: whether
there is a minus sign, and the digits.  Where there is no number, `endptr` is the start of the text,
so that a text that starts with white space is accepted all the same, as `0`. -/
def strto (str : Bytes) : Option (Bool × Nat) :=
  let text := mcSkipSpace str
  let minus : Bool := text.head? = some 0x2d
  let unsigned := if minus || text.head? = some 0x2b then text.tail else text
  let digits := unsigned.takeWhile isDigit
  let endptr := if digits.length = 0 then str else unsigned.dropWhile isDigit
  if endptr.head?.any isSpace || (endptr.length = 0 && digits.length ≠ 0) then
    some (minus, digitsValue digits)
  else none

/-- `mc_strtoul`.  A number that is negative as a `long` is refused if there is a minus sign
anywhere from the token on. -/
def mcStrtoul (str : Bytes) : Option Nat :=
  (strto str).bind fun (minus, value) =>
    let l := if minus then (2 ^ 64 - value) % 2 ^ 64 else value
    if uint64Max < value || (2 ^ 63 ≤ l && str.contains 0x2d) then none else some (l % 2 ^ 32)

/-- `mc_strtoull`, on the line from a token on.  It accepts what `mc_strtoul` accepts. -/
def mcStrtoullAt (str : Bytes) : Option UInt64 :=
  (strto str).bind fun (minus, value) =>
    let l := if minus then (2 ^ 64 - value) % 2 ^ 64 else value
    if uint64Max < value || (2 ^ 63 ≤ l && str.contains 0x2d) then none else some (.ofNat l)

/-- `mc_strtoll` -/
def mcStrtoll (str : Bytes) : Option Int :=
  (strto str).bind fun (minus, value) =>
    if (if minus then 2 ^ 63 else 2 ^ 63 - 1) < value then none
    else some (if minus then -value else value)

/-- `mc_strtol` -/
def mcStrtol (str : Bytes) : Option Int := (mcStrtoll str).map fun l => l.bmod (2 ^ 32)

/-- The token is a decimal number. -/
def Token.IsDecimal (t : Token) (n : Nat) : Prop :=
  t.text ≠ [] ∧ (∀ b ∈ t.text, isDigit b = true) ∧ digitsValue t.text = n

instance (t : Token) (n : Nat) : Decidable (t.IsDecimal n) :=
  inferInstanceAs (Decidable (_ ∧ _ ∧ _))

section Decimal

variable {n vlen : Nat}

theorem not_isDigit_of_head (hrest : rest.head?.all (· = 0x20) = true) :
    rest.takeWhile isDigit = [] ∧ rest.dropWhile isDigit = rest := by
  cases rest with
  | nil => exact ⟨rfl, rfl⟩
  | cons b rest =>
    obtain rfl : b = 0x20 := by simpa using hrest
    exact ⟨rfl, rfl⟩

theorem strto_of_digits {digits : Bytes} (hne : digits ≠ [])
    (hdigits : ∀ b ∈ digits, isDigit b = true) (hrest : rest.head?.all (· = 0x20) = true) :
    strto (digits ++ rest) = some (false, digitsValue digits) := by
  obtain ⟨b, bs, rfl⟩ := List.exists_cons_of_ne_nil hne
  have hb : isDigit b = true := hdigits b List.mem_cons_self
  have hskip : mcSkipSpace (b :: bs ++ rest) = b :: bs ++ rest := by
    rw [mcSkipSpace, List.cons_append, List.dropWhile_cons, isSpace_of_isDigit hb]
    rfl
  have hsign : b ≠ 0x2d ∧ b ≠ 0x2b := by
    constructor <;> rintro rfl <;> cases hb
  obtain ⟨htake, hdrop⟩ := not_isDigit_of_head hrest
  have htake : (b :: bs ++ rest).takeWhile isDigit = b :: bs := by
    rw [List.takeWhile_append_of_pos hdigits, htake, List.append_nil]
  have hdrop : (b :: bs ++ rest).dropWhile isDigit = rest := by
    rw [List.dropWhile_append_of_pos hdigits, hdrop]
  have hend : (rest.head?.any isSpace || (rest.length = 0 && (b :: bs).length ≠ 0)) = true := by
    cases rest with
    | nil => rfl
    | cons b' rest =>
      obtain rfl : b' = 0x20 := by simpa using hrest
      rfl
  have hminus : decide ((b :: bs ++ rest).head? = some 0x2d) = false := by simp [hsign.1]
  have hplus : decide ((b :: bs ++ rest).head? = some 0x2b) = false := by simp [hsign.2]
  rw [strto]
  simp only [hskip, hminus, hplus, Bool.or_self, Bool.false_eq_true, if_false, htake, hdrop]
  have hdigits' : ¬ (b :: bs).length = 0 := by simp
  simp only [hdigits', if_false, hend, if_true]

/-- A decimal number is handed on modulo `2 ^ 32`, unless it is refused for its size. -/
theorem mcStrtoul_of_isDecimal (hrest : (t.val.drop t.len).head?.all (· = 0x20) = true)
    (h : t.IsDecimal n) : mcStrtoul t.val = some (n % 2 ^ 32) ∨ mcStrtoul t.val = none ∧
      2 ^ 63 ≤ n := by
  obtain ⟨hne, hdigits, rfl⟩ := h
  have hval : strto t.val = some (false, digitsValue t.text) := by
    have hsplit := strto_of_digits hne hdigits hrest
    rwa [Token.text, take_append_drop] at hsplit
  simp only [mcStrtoul, hval, Option.bind_some, Bool.false_eq_true, if_false]
  split
  · next hlarge =>
    refine .inr ⟨rfl, ?_⟩
    simp only [Bool.or_eq_true, Bool.and_eq_true, decide_eq_true_eq] at hlarge
    rcases hlarge with hlarge | ⟨hlarge, -⟩
    · exact (show 2 ^ 63 ≤ uint64Max by decide).trans hlarge.le
    · exact hlarge
  · exact .inl rfl

end Decimal

/-! ## Commands -/

/-- The commands that carry a body. -/
inductive Storage where
  | set
  | add
  | replace
  | append
  | prepend
  | cas
  | iqset
  | sar
  | swap
  | iqappend
  | iqprepend
  | oqswap
  | oqwrite
  | oqappend
  | oqprepend
deriving DecidableEq, Repr

namespace Storage

/-- The bounds of `ntoken_bound`, without and with `noreply`. -/
def bounds : Storage → (Nat × Nat) × (Nat × Nat)
  | iqset => ((9, 9), (11, 11))
  | set | add => ((8, 8), (9, 9))
  | replace | append | prepend => ((7, 7), (8, 8))
  | cas => ((9, 9), (11, 11))
  | sar => ((8, 8), (9, 9))
  | iqappend => ((6, 6), (7, 7))
  | iqprepend => ((6, 5), (6, 6))
  | oqswap | oqwrite => ((7, 7), (8, 8))
  | swap => ((9, 9), (10, 10))
  | oqappend | oqprepend => ((5, 5), (6, 6))

/-- The name of the command. -/
def name : Storage → List Char
  | set => ['s', 'e', 't']
  | add => ['a', 'd', 'd']
  | replace => ['r', 'e', 'p', 'l', 'a', 'c', 'e']
  | append => ['a', 'p', 'p', 'e', 'n', 'd']
  | prepend => ['p', 'r', 'e', 'p', 'e', 'n', 'd']
  | cas => ['c', 'a', 's']
  | iqset => ['i', 'q', 's', 'e', 't']
  | sar => ['s', 'a', 'r']
  | swap => ['s', 'w', 'a', 'p']
  | iqappend => ['i', 'q', 'a', 'p', 'p', 'e', 'n', 'd']
  | iqprepend => ['i', 'q', 'p', 'r', 'e', 'p', 'e', 'n', 'd']
  | oqswap => ['o', 'q', 's', 'w', 'a', 'p']
  | oqwrite => ['o', 'q', 'w', 'r', 'i', 't', 'e']
  | oqappend => ['o', 'q', 'a', 'p', 'p', 'e', 'n', 'd']
  | oqprepend => ['o', 'q', 'p', 'r', 'e', 'p', 'e', 'n', 'd']

end Storage

/-- The bytes of a word. -/
def ofChars (word : List Char) : Bytes := word.map fun ch => .ofNat ch.toNat

/-- `asc_parse_type`, for one of the commands with a body. -/
def ascParseType (type : Storage) (t : List Token) : Bool :=
  t.head?.any (·.text = ofChars type.name)

/-- `asc_set_noreply_maybe`: whether the last word asks for no answer. -/
def ascNoreply (t : List Token) : Bool :=
  t.getLast?.any fun w => w.text = ofChars ['n', 'o', 'r', 'e', 'p', 'l', 'y']

/-- `asc_ntoken_valid` -/
def ascNtokenValid (type : Storage) (noreply : Bool) (ntoken : Nat) : Bool :=
  let (min, max) := if noreply then type.bounds.2 else type.bounds.1
  min ≤ ntoken && ntoken ≤ max

/-! ## Handlers -/

/-- What the handler of a line leaves behind: how it ends, and the length of the body if it sets the
connection to swallow one. -/
structure Handled where
  outcome : Outcome
  swallow : Option Nat
deriving DecidableEq, Repr

/-- The answer to a line that cannot be read. -/
def Handled.clientError : Handled := ⟨.reply .clientError, none⟩

/-- Read the number of a token, or refuse the line. -/
def ascNumber {A : Type} (read : Bytes → Option A) (t : List Token) (i : Nat)
    (handler : A → ServerM Handled) : ServerM Handled := do
  match read (← deref t[i]?).val with
  | none => return .clientError
  | some a => handler a

/-- What a handler leaves behind that has read the length of the body: the body is swallowed if the
configuration number is refused and if there is no memory. -/
def Handled.swallowing (vlen : Nat) : Outcome → Handled
  | .reply .crash => ⟨.reply .crash, some vlen⟩
  | .reply .silent => ⟨.reply .silent, some vlen⟩
  | .reply .serverError => ⟨.reply .serverError, some vlen⟩
  | outcome => ⟨outcome, none⟩

/-- The part of a handler after the length of the body has been read. -/
def ascSwallow (vlen : Nat) (handler : ServerM Outcome) : ServerM Handled := do
  return .swallowing vlen (← handler)

/-- The line of `asc_process_update`.  All refusals of the line are the same, so that the order of
the tests does not matter. -/
def ascUpdateLine (cmd : Update) (t : List Token) : ServerM Handled := do
  let key ← deref t[3]?
  ascNumber mcStrtol t 1 fun cfg => ascNumber mcStrtol t 2 fun frag =>
    ascNumber mcStrtoul t 4 fun flags =>
    ascNumber mcStrtol t 5 fun exptime => ascNumber mcStrtoul t 6 fun vlen =>
      ascSwallow vlen (ascProcessUpdate cmd cfg frag key.text flags exptime vlen)

/-- The line of `asc_process_sar`, after its configuration number. -/
def ascSarNumbers (cfg : Int) (key : Token) (t : List Token) : ServerM Handled :=
  ascNumber mcStrtoul t 3 fun flags => ascNumber mcStrtol t 4 fun exptime =>
    ascNumber mcStrtoul t 5 fun vlen => ascNumber mcStrtoll t 6 fun leaseToken =>
      ascSwallow vlen (ascProcessSar cfg key.text flags exptime vlen (.ofInt leaseToken))

/-- The line of `asc_process_sar`: the configuration number is looked at before the rest is read,
and a refusal leaves the body where it is. -/
def ascSarLine (t : List Token) : ServerM Handled := do
  let key ← deref t[2]?
  ascNumber mcStrtol t 1 fun cfg => do
    match ← ascCheckConfig cfg fun _ => return .reply .ok with
    | .reply .ok => ascSarNumbers cfg key t
    | refused => return ⟨refused, none⟩

/-- The line of `asc_process_swap`. -/
def ascSwapLine (t : List Token) : ServerM Handled := do
  let key ← deref t[3]?
  ascNumber mcStrtol t 1 fun cfg => ascNumber mcStrtol t 2 fun frag =>
    ascNumber mcStrtoul t 4 fun flags =>
    ascNumber mcStrtol t 5 fun exptime => ascNumber mcStrtoul t 6 fun vlen =>
      ascNumber mcStrtoll t 7 fun leaseToken =>
        ascSwallow vlen (ascProcessSwap cfg frag key.text flags exptime vlen (.ofInt leaseToken))

/-- The line of `asc_process_iqappend_iqprepend`. -/
def ascIqConcatLine (append : Bool) (t : List Token) : ServerM Handled := do
  let key ← deref t[2]?
  let tid ← deref t[4]?
  ascNumber mcStrtol t 1 fun cfg => ascNumber mcStrtoul t 3 fun vlen =>
    ascSwallow vlen (ascProcessIqConcat append cfg key.text vlen tid.text)

/-- The lines of `asc_process_oqswap` and `asc_process_oqwrite`. -/
def ascOqwriteLine (completion : Bytes → Completion) (t : List Token) : ServerM Handled := do
  let sid ← deref t[1]?
  let key ← deref t[2]?
  ascNumber mcStrtoul t 3 fun flags => ascNumber mcStrtol t 4 fun exptime =>
    ascNumber mcStrtoul t 5 fun vlen =>
      ascSwallow vlen (ascProcessOqwrite key.text flags exptime vlen (completion sid.text))

/-- The line of `asc_process_oqappend_oqprepend`. -/
def ascOqConcatLine (append : Bool) (t : List Token) : ServerM Handled := do
  let sid ← deref t[1]?
  let key ← deref t[2]?
  ascNumber mcStrtoul t 3 fun vlen =>
    ascSwallow vlen (ascProcessOqConcat append sid.text key.text vlen)

/-- `asc_dispatch`, for the commands with a body. -/
def ascStorageLine (type : Storage) (t : List Token) : ServerM Handled :=
  match type with
  | .set => ascUpdateLine .set t
  | .add => ascUpdateLine .add t
  | .replace => ascUpdateLine .replace t
  | .append => ascUpdateLine .append t
  | .prepend => ascUpdateLine .prepend t
  -- `TOKEN_CAS` is the position of the length
  | .cas => ascUpdateLine (.cas ((t[6]?.bind fun w => mcStrtoullAt w.val).getD 0)) t
  | .iqset => ascNumber mcStrtoll t 7 fun leaseToken => ascUpdateLine (.iqset (.ofInt leaseToken)) t
  | .sar => ascSarLine t
  | .swap => ascSwapLine t
  | .iqappend => ascIqConcatLine true t
  | .iqprepend => ascIqConcatLine false t
  | .oqswap => ascOqwriteLine .oqswap t
  | .oqwrite => ascOqwriteLine .oqwrite t
  | .oqappend => ascOqConcatLine true t
  | .oqprepend => ascOqConcatLine false t

/-! ## Which lines are followed by their body -/

/-- The types of the numbers of a line. -/
inductive Number where
  | int32
  | uint32
  | int64
deriving DecidableEq

/-- The number can be read. -/
def Number.reads : Number → Bytes → Bool
  | int32, str => (mcStrtol str).isSome
  | uint32, str => (mcStrtoul str).isSome
  | int64, str => (mcStrtoll str).isSome

namespace Storage

/-- The numbers of a line. -/
def numbers : Storage → List (Nat × Number)
  | set | add | replace | append | prepend | cas =>
    [(1, .int32), (2, .int32), (4, .uint32), (5, .int32), (6, .uint32)]
  | iqset | swap => [(1, .int32), (2, .int32), (4, .uint32), (5, .int32), (6, .uint32), (7, .int64)]
  | sar => [(1, .int32), (3, .uint32), (4, .int32), (5, .uint32), (6, .int64)]
  | iqappend | iqprepend => [(1, .int32), (3, .uint32)]
  | oqswap | oqwrite => [(3, .uint32), (4, .int32), (5, .uint32)]
  | oqappend | oqprepend => [(3, .uint32)]

/-- The position of the key. -/
def keyAt : Storage → Nat
  | sar | iqappend | iqprepend | oqswap | oqwrite | oqappend | oqprepend => 2
  | _ => 3

/-- The position of the length of the value. -/
def vlenAt : Storage → Nat
  | sar | oqswap | oqwrite => 5
  | iqappend | iqprepend | oqappend | oqprepend => 3
  | _ => 6

/-- The commands of sessions carry no configuration number. -/
def checksConfig : Storage → Bool
  | oqswap | oqwrite | oqappend | oqprepend => false
  | _ => true

/-- All numbers of a line can be read. -/
def readable (type : Storage) (t : List Token) : Bool :=
  type.numbers.all fun (i, number) => t[i]?.any (number.reads ·.val)

/-- The key of a line. -/
def key (type : Storage) (t : List Token) : Bytes := t[type.keyAt]?.elim [] Token.text

/-- The configuration number of a line. -/
def config (type : Storage) (t : List Token) : Option Int :=
  if type.checksConfig then t[1]?.bind (mcStrtol ·.val) else none

end Storage

/-- The configuration number is the one of the server, or there is none to be checked. -/
def Server.accepts (s : Server) (config : Option Int) : Bool :=
  config.all fun cfg => s.configurationNumber ≠ -1 && (cfg = -1 || cfg = s.configurationNumber)

/-- The configuration number is answered with `FAIL`. -/
def Server.refuses (s : Server) (config : Option Int) : Bool :=
  config.any fun cfg => cfg ≠ -1 && cfg ≠ s.configurationNumber

/-- The largest slab that can be configured, `SLAB_MAX_SIZE`. -/
def slabMaxSize : Nat := 128 * 2 ^ 20

/-- The condition under which the body of a request is taken for its body: the line can be read and
its length is a 32-bit number; and either the value fits and there is memory for it or an answer is
wanted, or the configuration number is refused by a handler that swallows the body, an answer is
wanted, and the length of the body is an `int`. -/
structure Framed (c : Settings) (s : Server) (noreply : Bool) (type : Storage)
    (t : List Token) (n : Nat) :
    Prop where
  readable : type.readable t = true
  key : (type.key t).length ≤ keyMaxLen
  length : n < 2 ^ 32
  outcome : s.accepts (type.config t) = true ∧ c.fits (type.key t).length n = true ∧
      (s.room = true ∨ noreply = false) ∨
    s.refuses (type.config t) = true ∧ type ≠ .sar ∧ noreply = false ∧ n + 2 < 2 ^ 31

namespace Handled

/-- The forms of what a handler leaves behind. -/
def Regular : Handled → Prop
  | ⟨.nread p, none⟩ => p.vlen + 2 < 2 ^ 31
  | ⟨.nread _, some _⟩ => False
  | ⟨.reply r, none⟩ => r = .clientError ∨ r = .crash ∨ r = .silent
  | ⟨.reply r, some vlen⟩ => (r = .crash ∨ r = .silent ∨ r = .serverError) ∧ vlen < 2 ^ 32

/-- The connection consumes `n` bytes after the line. -/
def Frames (noreply : Bool) (n : Nat) : Handled → Prop
  | ⟨.nread p, none⟩ => p.vlen + 2 = n
  | ⟨.reply r, some vlen⟩ => r ≠ .silent ∧ noreply = false ∧ vlen + 2 < 2 ^ 31 ∧ vlen + 2 = n
  | _ => False

/-- The connection consumes the body exactly under the condition. -/
structure Judged (c : Settings) (s : Server) (noreply : Bool) (type : Storage)
    (t : List Token) (n : Nat) (r : Handled) : Prop where
  regular : r.Regular
  frames_iff : r.Frames noreply (n + 2) ↔ Framed c s noreply type t n

end Handled

section Handlers

variable {c : Settings} {s : Server} {key : Bytes} {vlen n : Nat} {noreply : Bool} {t : List Token}

/-- How the allocation of the item for a body ends. -/
inductive Allocated (c : Settings) (s : Server) (key : Bytes) (vlen : Nat) : Outcome → Prop
  | large : c.fits key.length vlen = false → Allocated c s key vlen (.reply .clientError)
  | full : c.fits key.length vlen = true → s.room = false →
      Allocated c s key vlen (.reply .serverError)
  | chunk {p : Pending} : c.fits key.length vlen = true → s.room = true → p.vlen = vlen →
      Allocated c s key vlen (.nread p)

/-- A program that allocates the item for a body. -/
structure Allocates (c : Settings) (s : Server) (key : Bytes) (vlen : Nat)
    (m : ServerM Outcome) : Prop where
  returns : c.fits key.length vlen = true → wp m (fun _ _ => True) c s
  allocated : wlp m (fun out _ => Allocated c s key vlen out) c s

theorem allocates_ascAllocBody {flags : Nat} {exptime configNum : Int} {dropsValue : Bool} :
    Allocates c s key vlen (ascAllocBody key flags exptime vlen configNum dropsValue
        completion) := by
  constructor
  · intro hfits
    rw [wp_iff_not_wlp, ascAllocBody]
    cases hroom : s.room with
    | true => simp [hfits, hroom]
    | false =>
      cases hlive : s.allocate.live key <;> cases dropsValue <;> simp [hfits, hroom, hlive]
  · rw [ascAllocBody, wlp_bind, wlp_itemSlabid]
    cases hfits : c.fits key.length vlen with
    | false => exact .pure (.large hfits)
    | true =>
      simp only [Bool.not_true, Bool.false_eq_true, if_false]
      rw [wlp_bind, wlp_timeReltime, wlp_bind, wlp_itemAllocConfig]
      intro _
      cases hroom : s.room with
      | true =>
        rw [if_pos rfl, wlp_bind, wlp_ask, wlp_pure]
        exact .chunk hfits hroom rfl
      | false =>
        simp only [Bool.false_eq_true, if_false]
        exact .bind (fun _ _ _ => .pure (.full hfits hroom))

theorem allocates_ascAllocConcat : Allocates c s key vlen (ascAllocConcat key vlen completion) := by
  constructor
  · intro hfits
    rw [wp_iff_not_wlp, ascAllocConcat]
    cases hroom : s.room <;> simp [hfits, hroom]
  · rw [ascAllocConcat, wlp_bind, wlp_itemAlloc]
    intro hfits
    cases hroom : s.room with
    | true => exact .pure (.chunk hfits hroom rfl)
    | false => exact .pure (.full hfits hroom)

/-- How a handler ends that has read its numbers. -/
inductive Answered (c : Settings) (s : Server) (config : Option Int) (key : Bytes) (vlen : Nat) :
    Outcome → Prop
  | long : keyMaxLen < key.length → Answered c s config key vlen (.reply .clientError)
  | refused : key.length ≤ keyMaxLen → s.refuses config = true →
      Answered c s config key vlen (.reply .crash)
  | silent : s.accepts config = false → s.refuses config = false →
      Answered c s config key vlen (.reply .silent)
  | accepted {out : Outcome} : key.length ≤ keyMaxLen → s.accepts config = true →
      s.refuses config = false →
      Allocated c s key vlen out → Answered c s config key vlen out

/-- A handler that has read its numbers.  It returns, unless it is `_item_alloc_config` that has to
find out that the value is too large. -/
structure Answers (c : Settings) (s : Server) (config : Option Int) (key : Bytes) (vlen : Nat)
    (m : ServerM Outcome) : Prop where
  returns : (s.accepts config = true → c.fits key.length vlen = true) → wp m (fun _ _ => True) c s
  answered : wlp m (fun out _ => Answered c s config key vlen out) c s

theorem answers_ascCheckLength {config : Option Int}
    (h : key.length ≤ keyMaxLen → Answers c s config key vlen handler) :
    Answers c s config key vlen (ascCheckLength keyMaxLen key handler) := by
  rw [ascCheckLength]
  split
  · next hlong => exact ⟨fun _ => wp_pure.mpr trivial, .pure (.long hlong)⟩
  · next hlong => exact h (Nat.le_of_not_lt hlong)

/-- The three ways in which the test of a configuration number ends. -/
theorem run_ascCheckConfig (cfg : Int) (handler : Int → ServerM Outcome) :
    s.refuses (some cfg) = true ∧
      Prog.run (ascCheckConfig cfg handler) c s = Prog.run (pure (.reply .crash)) c s ∨
    s.accepts (some cfg) = false ∧ s.refuses (some cfg) = false ∧
      Prog.run (ascCheckConfig cfg handler) c s = Prog.run (pure (.reply .silent)) c s ∨
    s.accepts (some cfg) = true ∧ s.refuses (some cfg) = false ∧
      Prog.run (ascCheckConfig cfg handler) c s = Prog.run (handler s.configurationNumber) c s := by
  have hrun : Prog.run (ascCheckConfig cfg handler) c s = Prog.run
      (if cfg ≠ -1 && cfg ≠ s.configurationNumber then pure (.reply .crash)
        else if s.configurationNumber = -1 then pure (.reply .silent)
        else handler s.configurationNumber) c s := rfl
  cases hcfg : (decide (cfg ≠ -1) && decide (cfg ≠ s.configurationNumber)) with
  | true => exact .inl ⟨hcfg, by rw [hrun, hcfg, if_pos rfl]⟩
  | false =>
    rw [hcfg, if_neg (by simp)] at hrun
    refine .inr ?_
    by_cases hserver : s.configurationNumber = -1
    · exact .inl ⟨by simp [Server.accepts, hserver], hcfg, by rw [hrun, if_pos hserver]⟩
    · refine .inr ⟨?_, hcfg, by rw [hrun, if_neg hserver]⟩
      rw [Bool.and_eq_false_iff] at hcfg
      simpa [Server.accepts, hserver] using hcfg

theorem Answers.of_run {config : Option Int} {m' : ServerM Outcome}
    (hrun : Prog.run m c s = Prog.run m' c s) (h : Answers c s config key vlen m') :
    Answers c s config key vlen m := by
  obtain ⟨hreturns, hanswered⟩ := h
  exact ⟨by simpa only [wp, hrun] using hreturns, by simpa only [wlp, hrun] using hanswered⟩

theorem Allocates.answers {config : Option Int} (h : Allocates c s key vlen m)
    (hkey : key.length ≤ keyMaxLen) (haccepts : s.accepts config = true)
    (hrefuses : s.refuses config = false) : Answers c s config key vlen m :=
  ⟨fun hfits => h.returns (hfits haccepts), h.allocated.mono fun _ _ hout =>
    .accepted hkey haccepts hrefuses hout⟩

theorem answers_ascCheckConfig {cfg : Int} {handler : Int → ServerM Outcome}
    (hkey : key.length ≤ keyMaxLen) (h : Allocates c s key vlen (handler s.configurationNumber)) :
    Answers c s (some cfg) key vlen (ascCheckConfig cfg handler) := by
  rcases run_ascCheckConfig (c := c) (s := s) cfg handler with ⟨hrefuses, hrun⟩ |
    ⟨haccepts, hrefuses, hrun⟩ | ⟨haccepts, hrefuses, hrun⟩
  · exact .of_run hrun ⟨fun _ => wp_pure.mpr trivial, .pure (.refused hkey hrefuses)⟩
  · exact .of_run hrun ⟨fun _ => wp_pure.mpr trivial, .pure (.silent haccepts hrefuses)⟩
  · exact .of_run hrun (h.answers hkey haccepts hrefuses)

theorem accepts_of_refuses {config : Option Int} (h : s.refuses config = true) :
    s.accepts config = false := by
  cases config with
  | none => cases h
  | some cfg =>
    simp only [Server.refuses, Option.any_some, Bool.and_eq_true, decide_eq_true_eq] at h
    simp [Server.accepts, h.1, h.2]

section

variable (hc : c.maxChunkSize ≤ slabMaxSize)

include hc

theorem lt_of_fits {nkey : Nat} (h : c.fits nkey vlen = true) : vlen + 2 < 2 ^ 31 := by
  have hle : itemNtotal c.useCas nkey vlen ≤ slabMaxSize := (of_decide_eq_true h).trans hc
  rw [itemNtotal, slabMaxSize] at hle
  omega

/-- The body of an answered line is consumed under the condition on the state. -/
theorem Answered.frames_iff {config : Option Int} (h : Answered c s config key vlen out) :
    (Handled.swallowing vlen out).Frames noreply n ↔
      key.length ≤ keyMaxLen ∧ vlen + 2 = n ∧
        (s.accepts config = true ∧ c.fits key.length vlen = true ∧
        (s.room = true ∨ noreply = false) ∨
          s.refuses config = true ∧ noreply = false ∧ vlen + 2 < 2 ^ 31) := by
  cases h with
  | long hlong => simp [Handled.swallowing, Handled.Frames, Nat.not_le.mpr hlong]
  | refused hkey hrefuses =>
    simp only [Handled.swallowing, Handled.Frames, hkey, hrefuses, accepts_of_refuses hrefuses]
    simp [and_left_comm, and_comm]
  | silent haccepts hrefuses => simp [Handled.swallowing, Handled.Frames, haccepts, hrefuses]
  | accepted hkey haccepts hrefuses halloc =>
    cases halloc with
    | large hfits => simp [Handled.swallowing, Handled.Frames, hfits, hrefuses]
    | full hfits hroom =>
      have hlt := lt_of_fits hc hfits
      simp only [Handled.swallowing, Handled.Frames, hkey, haccepts, hfits, hroom, hrefuses, hlt]
      simp [and_comm]
    | chunk hfits hroom hvlen =>
      simp [Handled.swallowing, Handled.Frames, hkey, haccepts, hfits, hroom, hvlen]

theorem Answered.regular {config : Option Int} (hvlen : vlen < 2 ^ 32)
    (h : Answered c s config key vlen out) : (Handled.swallowing vlen out).Regular := by
  cases h with
  | long => exact .inl rfl
  | refused => exact ⟨.inl rfl, hvlen⟩
  | silent => exact ⟨.inr (.inl rfl), hvlen⟩
  | accepted _ _ _ halloc =>
    cases halloc with
    | large => exact .inl rfl
    | full => exact ⟨.inr (.inr rfl), hvlen⟩
    | chunk hfits _ heq =>
      subst heq
      exact lt_of_fits hc hfits

end

/-! ### The numbers of a line -/

/-- A program that does with a line what the condition says. -/
structure Settles (c : Settings) (s : Server) (noreply : Bool) (type : Storage)
    (t : List Token) (n : Nat) (m : ServerM Handled) : Prop where
  returns : Framed c s noreply type t n → wp m (fun _ _ => True) c s
  judged : wlp m (fun r _ => r.Judged c s noreply type t n) c s

section Settles

variable {type : Storage}

theorem Settles.of_run {m m' : ServerM Handled} (hrun : Prog.run m c s = Prog.run m' c s)
    (h : Settles c s noreply type t n m') : Settles c s noreply type t n m := by
  obtain ⟨hreturns, hjudged⟩ := h
  exact ⟨by simpa only [wp, hrun] using hreturns, by simpa only [wlp, hrun] using hjudged⟩

theorem settles_deref {o : Option A} {a : A} {handler : A → ServerM Handled} (ho : o = some a)
    (h : Settles c s noreply type t n (handler a)) :
    Settles c s noreply type t n (deref o >>= handler) :=
  h.of_run (by rw [ho]; rfl)

/-- A line with a number that cannot be read. -/
theorem settles_clientError (h : type.readable t = false) :
    Settles c s noreply type t n (pure .clientError) := by
  refine ⟨fun _ => wp_pure.mpr trivial, .pure ⟨.inl rfl, iff_of_false id fun hf => ?_⟩⟩
  rw [hf.readable] at h
  cases h

theorem Storage.readable_eq_false {number : Number} (hmem : (i, number) ∈ type.numbers)
    (h : t[i]?.any (number.reads ·.val) = false) : type.readable t = false := by
  rw [readable, List.all_eq_false]
  exact ⟨(i, number), hmem, by simp [h]⟩

theorem settles_ascNumber {read : Bytes → Option A} {handler : A → ServerM Handled}
    (number : Number) (hnumber : ∀ str, number.reads str = (read str).isSome)
    (hmem : (i, number) ∈ type.numbers) (hi : i < t.length)
    (h : ∀ w a, t[i]? = some w → read w.val = some a → Settles c s noreply type t n (handler a)) :
    Settles c s noreply type t n (ascNumber read t i handler) := by
  have hw : t[i]? = some t[i] := List.getElem?_eq_getElem hi
  refine settles_deref hw ?_
  cases hread : read t[i].val with
  | none =>
    exact settles_clientError (Storage.readable_eq_false hmem (by simp [hw, hnumber, hread]))
  | some a => exact h _ a hw hread

/-- The length of the body is read from a token that is a decimal number. -/
theorem settles_ascLength {w : Token} {handler : Nat → ServerM Handled} (hw : t[i]? = some w)
    (hrest : (w.val.drop w.len).head?.all (· = 0x20) = true) (hdec : w.IsDecimal n)
    (hmem : (i, Number.uint32) ∈ type.numbers)
    (h : mcStrtoul w.val = some (n % 2 ^ 32) →
      Settles c s noreply type t n (handler (n % 2 ^ 32))) :
    Settles c s noreply type t n (ascNumber mcStrtoul t i handler) := by
  have hi : i < t.length := (List.getElem?_eq_some_iff.mp hw).1
  refine settles_ascNumber .uint32 (fun _ => rfl) hmem hi fun w' vlen hw' hread => ?_
  obtain rfl : w = w' := Option.some.inj (hw.symm.trans hw')
  rcases mcStrtoul_of_isDecimal hrest hdec with heq | ⟨heq, -⟩ <;> rw [heq] at hread <;> cases hread
  exact h heq

/-- The length that is handed on is the length of the line, if that is a 32-bit number. -/
theorem mod_add_two_eq_iff : n % 2 ^ 32 + 2 = n + 2 ↔ n < 2 ^ 32 := by omega

/-- A line whose numbers can be read. -/
theorem settles_ascSwallow {config : Option Int} (hc : c.maxChunkSize ≤ slabMaxSize)
    (hreadable : type.readable t = true) (hkey : type.key t = key)
    (hconfig : type.config t = config) (hsar : s.refuses config = true → type ≠ .sar)
    (h : Answers c s config key (n % 2 ^ 32) handler) :
    Settles c s noreply type t n (ascSwallow (n % 2 ^ 32) handler) := by
  subst hkey hconfig
  constructor
  · intro hf
    rw [ascSwallow, wp_bind]
    refine (h.returns fun haccepts => ?_).mono fun _ _ _ => wp_pure.mpr trivial
    rw [Nat.mod_eq_of_lt hf.length]
    rcases hf.outcome with ⟨-, hfits, -⟩ | ⟨hrefuses, -⟩
    · exact hfits
    · rw [accepts_of_refuses hrefuses] at haccepts
      cases haccepts
  · rw [ascSwallow, wlp_bind]
    refine h.answered.mono fun out s' hout => .pure ⟨hout.regular hc (Nat.mod_lt _ (by decide)), ?_⟩
    rw [hout.frames_iff hc, mod_add_two_eq_iff]
    constructor
    · rintro ⟨hlen, hlt, hcase⟩
      rw [Nat.mod_eq_of_lt hlt] at hcase
      refine ⟨hreadable, hlen, hlt, ?_⟩
      exact hcase.imp_right fun ⟨hrefuses, hcase⟩ => ⟨hrefuses, hsar hrefuses, hcase⟩
    · rintro ⟨-, hlen, hlt, hcase⟩
      rw [Nat.mod_eq_of_lt hlt]
      refine ⟨hlen, hlt, ?_⟩
      exact hcase.imp_right fun ⟨hrefuses, _, hcase⟩ => ⟨hrefuses, hcase⟩

/-! ### The lines -/

variable {w : Token}

section

variable (hc : c.maxChunkSize ≤ slabMaxSize)

include hc

theorem settles_ascUpdateLine {cmd : Update} (hw : t[6]? = some w)
    (hrest : (w.val.drop w.len).head?.all (· = 0x20) = true) (hdec : w.IsDecimal n)
    (hnumbers : Storage.set.numbers ⊆ type.numbers)
    (hreadable : Storage.set.readable t = true → type.readable t = true) (hkeyAt : type.keyAt = 3)
    (hchecks : type.checksConfig = true) (hsar : type ≠ .sar) :
    Settles c s noreply type t n (ascUpdateLine cmd t) := by
  have hlen : 6 < t.length := (List.getElem?_eq_some_iff.mp hw).1
  have hk : t[3]? = some t[3] := List.getElem?_eq_getElem (by omega)
  refine settles_deref hk ?_
  refine settles_ascNumber .int32 (fun _ => rfl) (hnumbers (by decide)) (by omega)
    fun w₁ cfg hw₁ hcfg => ?_
  refine settles_ascNumber .int32 (fun _ => rfl) (hnumbers (by decide)) (by omega)
    fun w₂ frag hw₂ hfrag => ?_
  refine settles_ascNumber .uint32 (fun _ => rfl) (hnumbers (by decide)) (by omega)
    fun w₄ flags hw₄ hflags => ?_
  refine settles_ascNumber .int32 (fun _ => rfl) (hnumbers (by decide)) (by omega)
    fun w₅ exptime hw₅ hexp => ?_
  refine settles_ascLength hw hrest hdec (hnumbers (by decide)) fun hvlen => ?_
  have hkey : type.key t = t[3].text := by simp [Storage.key, hkeyAt, hk]
  have hconfig : type.config t = some cfg := by simp [Storage.config, hchecks, hw₁, hcfg]
  refine settles_ascSwallow hc (hreadable ?_) hkey hconfig (fun _ => hsar) ?_
  · simp [Storage.readable, Storage.numbers, Number.reads, hw₁, hcfg, hw₂, hfrag, hw₄, hflags, hw₅,
      hexp, hw, hvlen]
  · exact answers_ascCheckLength fun hlen => answers_ascCheckConfig hlen allocates_ascAllocBody

theorem settles_ascSwapLine (hw : t[6]? = some w)
    (hrest : (w.val.drop w.len).head?.all (· = 0x20) = true) (hdec : w.IsDecimal n)
    (hlen : 7 < t.length) :
    Settles c s noreply .swap t n (ascSwapLine t) := by
  have hk : t[3]? = some t[3] := List.getElem?_eq_getElem (by omega)
  refine settles_deref hk ?_
  refine settles_ascNumber .int32 (fun _ => rfl) (by decide) (by omega) fun w₁ cfg hw₁ hcfg => ?_
  refine settles_ascNumber .int32 (fun _ => rfl) (by decide) (by omega) fun w₂ frag hw₂ hfrag => ?_
  refine settles_ascNumber .uint32 (fun _ => rfl) (by decide) (by omega) fun w₄ flags hw₄ hflags =>
    ?_
  refine settles_ascNumber .int32 (fun _ => rfl) (by decide) (by omega) fun w₅ exptime hw₅ hexp =>
    ?_
  refine settles_ascLength hw hrest hdec (by decide) fun hvlen => ?_
  refine settles_ascNumber .int64 (fun _ => rfl) (by decide) hlen fun w₇ leaseToken hw₇ htoken => ?_
  have hkey : Storage.swap.key t = t[3].text := by simp [Storage.key, Storage.keyAt, hk]
  have hconfig : Storage.swap.config t = some cfg := by
    simp [Storage.config, Storage.checksConfig, hw₁, hcfg]
  refine settles_ascSwallow hc ?_ hkey hconfig (fun _ => by decide) ?_
  · simp [Storage.readable, Storage.numbers, Number.reads, hw₁, hcfg, hw₂, hfrag, hw₄, hflags,
      hw₅, hexp, hw, hvlen, hw₇, htoken]
  · exact answers_ascCheckLength fun hlen => answers_ascCheckConfig hlen allocates_ascAllocBody

theorem settles_ascIqConcatLine {append : Bool} (hw : t[3]? = some w)
    (hrest : (w.val.drop w.len).head?.all (· = 0x20) = true) (hdec : w.IsDecimal n)
    (hlen : 4 < t.length) (hnumbers : type.numbers = Storage.iqappend.numbers)
    (hkeyAt : type.keyAt = 2) (hchecks : type.checksConfig = true) (hsar : type ≠ .sar) :
    Settles c s noreply type t n (ascIqConcatLine append t) := by
  have hk : t[2]? = some t[2] := List.getElem?_eq_getElem (by omega)
  refine settles_deref hk (settles_deref (List.getElem?_eq_getElem hlen) ?_)
  refine settles_ascNumber .int32 (fun _ => rfl) (by rw [hnumbers]; decide) (by omega)
    fun w₁ cfg hw₁ hcfg => ?_
  refine settles_ascLength hw hrest hdec (by rw [hnumbers]; decide) fun hvlen => ?_
  have hkey : type.key t = t[2].text := by simp [Storage.key, hkeyAt, hk]
  have hconfig : type.config t = some cfg := by simp [Storage.config, hchecks, hw₁, hcfg]
  refine settles_ascSwallow hc ?_ hkey hconfig (fun _ => hsar) ?_
  · rw [Storage.readable, hnumbers]
    simp [Storage.numbers, Number.reads, hw₁, hcfg, hw, hvlen]
  · exact answers_ascCheckLength fun hlen => answers_ascCheckConfig hlen allocates_ascAllocConcat

end

theorem answers_of_allocates (h : Allocates c s key vlen handler) :
    Answers c s none key vlen (ascCheckLength keyMaxLen key handler) :=
  answers_ascCheckLength fun hlen => h.answers hlen rfl rfl

theorem settles_ascOqwriteLine {completion : Bytes → Completion} (hc : c.maxChunkSize ≤ slabMaxSize)
    (hw : t[5]? = some w) (hrest : (w.val.drop w.len).head?.all (· = 0x20) = true)
    (hdec : w.IsDecimal n) (hnumbers : type.numbers = Storage.oqswap.numbers)
    (hkeyAt : type.keyAt = 2) (hchecks : type.checksConfig = false) (hsar : type ≠ .sar) :
    Settles c s noreply type t n (ascOqwriteLine completion t) := by
  have hlen : 5 < t.length := (List.getElem?_eq_some_iff.mp hw).1
  have hk : t[2]? = some t[2] := List.getElem?_eq_getElem (by omega)
  refine settles_deref (List.getElem?_eq_getElem (by omega)) (settles_deref hk ?_)
  refine settles_ascNumber .uint32 (fun _ => rfl) (by rw [hnumbers]; decide) (by omega)
    fun w₃ flags hw₃ hflags => ?_
  refine settles_ascNumber .int32 (fun _ => rfl) (by rw [hnumbers]; decide) (by omega)
    fun w₄ exptime hw₄ hexp => ?_
  refine settles_ascLength hw hrest hdec (by rw [hnumbers]; decide) fun hvlen => ?_
  have hkey : type.key t = t[2].text := by simp [Storage.key, hkeyAt, hk]
  have hconfig : type.config t = none := by simp [Storage.config, hchecks]
  refine settles_ascSwallow hc ?_ hkey hconfig (fun _ => hsar)
    (answers_of_allocates allocates_ascAllocBody)
  rw [Storage.readable, hnumbers]
  simp [Storage.numbers, Number.reads, hw₃, hflags, hw₄, hexp, hw, hvlen]

theorem settles_ascOqConcatLine {append : Bool} (hc : c.maxChunkSize ≤ slabMaxSize)
    (hw : t[3]? = some w) (hrest : (w.val.drop w.len).head?.all (· = 0x20) = true)
    (hdec : w.IsDecimal n) (hnumbers : type.numbers = Storage.oqappend.numbers)
    (hkeyAt : type.keyAt = 2) (hchecks : type.checksConfig = false) (hsar : type ≠ .sar) :
    Settles c s noreply type t n (ascOqConcatLine append t) := by
  have hlen : 3 < t.length := (List.getElem?_eq_some_iff.mp hw).1
  have hk : t[2]? = some t[2] := List.getElem?_eq_getElem (by omega)
  refine settles_deref (List.getElem?_eq_getElem (by omega)) (settles_deref hk ?_)
  refine settles_ascLength hw hrest hdec (by rw [hnumbers]; decide) fun hvlen => ?_
  have hkey : type.key t = t[2].text := by simp [Storage.key, hkeyAt, hk]
  have hconfig : type.config t = none := by simp [Storage.config, hchecks]
  refine settles_ascSwallow hc ?_ hkey hconfig (fun _ => hsar)
    (answers_of_allocates allocates_ascAllocConcat)
  rw [Storage.readable, hnumbers]
  simp [Storage.numbers, Number.reads, hw, hvlen]

/-- `sar` leaves the body where it is when it refuses the configuration number. -/
theorem settles_refused {r : Reply} (hr : r = .crash ∨ r = .silent)
    (h : s.accepts (type.config t) = false) (hsar : type = .sar) :
    Settles c s noreply type t n (pure ⟨.reply r, none⟩) := by
  refine ⟨fun _ => wp_pure.mpr trivial, .pure ⟨.inr hr, iff_of_false id fun hf => ?_⟩⟩
  rcases hf.outcome with ⟨haccepts, -⟩ | ⟨-, hne, -⟩
  · rw [h] at haccepts
    cases haccepts
  · exact hne hsar

theorem settles_ascSarLine (hc : c.maxChunkSize ≤ slabMaxSize) (hw : t[5]? = some w)
    (hrest : (w.val.drop w.len).head?.all (· = 0x20) = true) (hdec : w.IsDecimal n)
    (hlen : 6 < t.length) :
    Settles c s noreply .sar t n (ascSarLine t) := by
  have hk : t[2]? = some t[2] := List.getElem?_eq_getElem (by omega)
  refine settles_deref hk ?_
  refine settles_ascNumber .int32 (fun _ => rfl) (by decide) (by omega) fun w₁ cfg hw₁ hcfg => ?_
  have hkey : Storage.sar.key t = t[2].text := by simp [Storage.key, Storage.keyAt, hk]
  have hconfig : Storage.sar.config t = some cfg := by
    simp [Storage.config, Storage.checksConfig, hw₁, hcfg]
  rcases run_ascCheckConfig (c := c) (s := s) cfg fun _ => pure (.reply .ok) with ⟨hrefuses, hrun⟩ |
    ⟨haccepts, hrefuses, hrun⟩ | ⟨haccepts, hrefuses, hrun⟩
  · have haccepts := accepts_of_refuses hrefuses
    refine Settles.of_run ?_ (settles_refused (.inl rfl) (by rw [hconfig, haccepts]) rfl)
    rw [run_bind, hrun]
    rfl
  · refine Settles.of_run ?_ (settles_refused (.inr rfl) (by rw [hconfig, haccepts]) rfl)
    rw [run_bind, hrun]
    rfl
  suffices h : Settles c s noreply .sar t n (ascSarNumbers cfg t[2] t) from
    h.of_run (by rw [run_bind, hrun]; rfl)
  refine settles_ascNumber .uint32 (fun _ => rfl) (by decide) (by omega) fun w₃ flags hw₃ hflags =>
    ?_
  refine settles_ascNumber .int32 (fun _ => rfl) (by decide) (by omega) fun w₄ exptime hw₄ hexp =>
    ?_
  refine settles_ascLength hw hrest hdec (by decide) fun hvlen => ?_
  refine settles_ascNumber .int64 (fun _ => rfl) (by decide) hlen fun w₆ leaseToken hw₆ htoken => ?_
  refine settles_ascSwallow hc ?_ hkey hconfig (fun h => absurd h (by simp [hrefuses])) ?_
  · simp [Storage.readable, Storage.numbers, Number.reads, hw₁, hcfg, hw₃, hflags, hw₄, hexp, hw,
      hvlen, hw₆, htoken]
  · -- the configuration number has not changed since it was looked at
    have hrun' := (run_ascCheckConfig (c := c) (s := s) cfg fun _ =>
      ascCheckLength keyMaxLen t[2].text <|
      ascAllocBody t[2].text flags exptime (n % 2 ^ 32) (-1) true (.sar (.ofInt leaseToken)))
    simp only [haccepts, hrefuses, Bool.false_eq_true, Bool.true_eq_false, false_and,
      false_or, true_and]
      at hrun'
    refine Answers.of_run hrun' ?_
    exact answers_ascCheckLength fun hlen => allocates_ascAllocBody.answers hlen haccepts hrefuses

/-- The number of words that a valid line has at least. -/
theorem le_length_of_ascNtokenValid (h : ascNtokenValid type noreply (t.length + 1) = true) :
    type.bounds.1.1 ≤ t.length + 1 := by
  rw [ascNtokenValid] at h
  cases type <;> cases noreply <;> simp [Storage.bounds] at h ⊢ <;> omega

/-- The handler of a line does what the condition says. -/
theorem settles_ascStorageLine (hc : c.maxChunkSize ≤ slabMaxSize)
    (hcount : type.bounds.1.1 ≤ t.length + 1) (hw : t[type.vlenAt]? = some w)
    (hrest : (w.val.drop w.len).head?.all (· = 0x20) = true) (hdec : w.IsDecimal n) :
    Settles c s noreply type t n (ascStorageLine type t) := by
  cases type with
  | set | add | replace | append | prepend | cas =>
    exact settles_ascUpdateLine hc hw hrest hdec (List.Subset.refl _) id rfl rfl (by decide)
  | iqset =>
    have hlen : 9 ≤ t.length + 1 := hcount
    refine settles_ascNumber .int64 (fun _ => rfl) (by decide) (by omega) fun w₇ leaseToken hw₇
      htoken => ?_
    refine settles_ascUpdateLine hc hw hrest hdec (by decide) (fun hreadable =>
      ?_) rfl rfl (by decide)
    have hlast : t[7]?.any (Number.int64.reads ·.val) = true := by simp [hw₇, Number.reads, htoken]
    show (Storage.set.numbers ++ [(7, Number.int64)]).all _ = true
    rw [all_append, Bool.and_eq_true]
    exact ⟨hreadable, by simpa using hlast⟩
  | sar => exact settles_ascSarLine hc hw hrest hdec (Nat.le_of_succ_le_succ hcount)
  | swap => exact settles_ascSwapLine hc hw hrest hdec (Nat.le_of_succ_le_succ hcount)
  | iqappend | iqprepend =>
    exact settles_ascIqConcatLine hc hw hrest hdec (Nat.le_of_succ_le_succ hcount) rfl rfl
      rfl (by decide)
  | oqswap | oqwrite => exact settles_ascOqwriteLine hc hw hrest hdec rfl rfl rfl (by decide)
  | oqappend | oqprepend => exact settles_ascOqConcatLine hc hw hrest hdec rfl rfl rfl (by decide)

end Settles

end Handlers

end Rejig
