import Mathlib.Data.List.DropRight
import Rejig.Orderly
import Rejig.Wire

/-!
# The line of a value

`get` and `iqget` answer with a line that has the flags of the value, its length and its
configuration number, all printed as unsigned numbers.  The configuration number is signed, and so
is `Integer.parseInt` in the client: a negative number is printed as one above `2 ^ 31` and the
client throws an exception.

A negative number is what `_item_alloc` puts into an item by default.  `append`, `prepend`, `sar`,
`dcommit`, and increments that need a longer item, allocate the new value this way.  In runs in
which none of them does, and the numbers of the requests themselves are in range, every value is
read back (`clientGet_of_run`).
-/

namespace Rejig

open Prog Server

variable {req : Request} {key : Bytes} {n : Int} {p : Pending} {s₀ : Server} {w : World}

/-! ## The server -/

/-- `PRIu32`, also where the argument is an `int32_t`. -/
def uintText (n : Int) : Bytes := decimal (.ofNat (n % 2 ^ 32).toNat)

/-- `VALUE` -/
def valueWord : Bytes := ofChars ['V', 'A', 'L', 'U', 'E']

/-- The line that `asc_respond_get` writes before a value, for `get`. -/
def getLine (it : Item) : Bytes :=
  unwords [valueWord, it.key, uintText it.dataflags, uintText it.nbyte, uintText it.configNumber] ++
    [0x0d, 0x0a]

/-- The line that `asc_write_iqget_value` writes before a value. -/
def iqgetLine (it : Item) : Bytes :=
  unwords [valueWord, it.key, uintText it.dataflags, uintText it.p.toNat, uintText it.nbyte,
    uintText it.configNumber] ++ [0x0d, 0x0a]

/-! ## The client -/

/-- The loop of `SockIO.readLine`; `eol` is set after a carriage return. -/
def readBytes (eol : Bool) : Bytes → Bytes
  | [] => []
  | b :: bs =>
    if b = 0x0d then b :: readBytes true bs
    else if eol && b = 0x0a then []
    else b :: readBytes false bs

/-- `String.trim` -/
def trim (s : Bytes) : Bytes := (s.dropWhile (· ≤ 0x20)).rdropWhile (· ≤ 0x20)

/-- `SockIO.readLine`.  A byte stands for the character that it decodes to. -/
def readLine (stream : Bytes) : Bytes := trim (readBytes false stream)

/-- `split(" ")`: what lies between blanks, without empty strings at the end. -/
def splitBlank (s : Bytes) : List Bytes := (s.splitOn 0x20).rdropWhile (· = [])

/-- `Integer.parseInt`; `none` is a `NumberFormatException`. -/
def parseInt (s : Bytes) : Option Int :=
  let minus : Bool := s.head? = some 0x2d
  let digits := if minus || s.head? = some 0x2b then s.tail else s
  if digits.length = 0 || !digits.all isDigit then none
  else
    let value : Int := if minus then -digitsValue digits else digitsValue digits
    if -2 ^ 31 ≤ value ∧ value < 2 ^ 31 then some value else none

/-- `Integer.parseInt(info[i])`; `none` is an exception, also that of an index out of bounds. -/
def parseAt (info : List Bytes) (i : Nat) : Option Int := info[i]?.bind parseInt

/-- What the client takes from the line of a value. -/
structure ValueInfo where
  flag : Int
  length : Int
  configNumber : Int
deriving DecidableEq, Repr

/-- What `get` takes from a line that starts with `VALUE`; `none` is an exception. -/
def clientGet (line : Bytes) : Option ValueInfo := do
  guard (valueWord.isPrefixOf line)
  let info := splitBlank line
  let flag ← parseAt info 2
  let length ← parseAt info 3
  let configNumber ← parseAt info 4
  return ⟨flag, length, configNumber⟩

/-- What `iqget` takes from a line that starts with `VALUE`; `none` is an exception. -/
def clientIqget (line : Bytes) : Option ValueInfo := do
  guard (valueWord.isPrefixOf line)
  let info := splitBlank line
  let flag ← parseAt info 2
  let _pending ← parseAt info 3
  let length ← parseAt info 4
  let configNumber ← parseAt info 5
  return ⟨flag, length, configNumber⟩

/-! ## Reading a line -/

section Reading

variable {ws : List Bytes} {s : Bytes}

theorem unwords_eq_intercalate : ∀ ws : List Bytes, unwords ws = [0x20].intercalate ws
  | [] => rfl
  | [w] => by simp [unwords]
  | w :: w' :: ws => by
    have ih := unwords_eq_intercalate (w' :: ws)
    simp only [unwords, List.flatMap_cons] at ih ⊢
    rw [List.intercalate_cons_cons, ← ih]
    simp

theorem splitBlank_unwords (hws : ∀ w ∈ ws, w ≠ [] ∧ 0x20 ∉ w) (hne : ws ≠ []) :
    splitBlank (unwords ws) = ws := by
  rw [splitBlank, unwords_eq_intercalate, List.splitOn_intercalate _ (fun w hw => (hws w hw).2) hne,
    List.rdropWhile_eq_self_iff]
  intro hl
  simpa using (hws _ (List.getLast_mem hl)).1

theorem readBytes_append (hs : 0x0a ∉ s) (eol : Bool) :
    readBytes eol (s ++ [0x0d, 0x0a]) = s ++ [0x0d] := by
  induction s generalizing eol with
  | nil => simp [readBytes]
  | cons b s ih =>
    simp only [List.mem_cons, not_or] at hs
    have hb' : b ≠ 0x0a := Ne.symm hs.1
    rw [List.cons_append, readBytes]
    split
    · rw [ih hs.2, List.cons_append]
    · rw [if_neg (by simp [hb']), ih hs.2, List.cons_append]

/-- A line without blanks at its ends is read as it was written. -/
theorem readLine_append (hs : 0x0a ∉ s) (hhead : ∀ b ∈ s.head?, ¬ b ≤ 0x20)
    (hlast : ∀ b ∈ s.getLast?, ¬ b ≤ 0x20) (hne : s ≠ []) : readLine (s ++ [0x0d, 0x0a]) = s := by
  obtain ⟨b, s', rfl⟩ := List.exists_cons_of_ne_nil hne
  have hb : ¬ b ≤ 0x20 := hhead b rfl
  rw [readLine, readBytes_append hs, trim, List.cons_append,
    List.dropWhile_cons_of_neg (by simpa using hb), ← List.cons_append,
    List.rdropWhile_concat_pos _ _ _ (by decide), List.rdropWhile_eq_self_iff]
  intro hl
  simpa using hlast _ (List.getLast?_eq_some_getLast hl)

theorem parseInt_uintText (n : Int) :
    parseInt (uintText n) = if n % 2 ^ 32 < 2 ^ 31 then some (n % 2 ^ 32) else none := by
  have hnonneg : 0 ≤ n % 2 ^ 32 := Int.emod_nonneg n (by decide)
  have hlt : n % 2 ^ 32 < 2 ^ 32 := Int.emod_lt_of_pos n (by decide)
  obtain ⟨m, hm⟩ := Int.eq_ofNat_of_zero_le hnonneg
  rw [uintText, hm, Int.toNat_natCast]
  have hm' : m < 2 ^ 32 := by omega
  have hval : (UInt64.ofNat m).toNat = m := by
    rw [UInt64.toNat_ofNat']
    exact Nat.mod_eq_of_lt (by omega)
  have hdig := isDigit_of_mem_decimal (.ofNat m)
  have hne := decimal_ne_nil (.ofNat m)
  have hvalue : digitsValue (decimal (.ofNat m)) = m := (digitsValue_decimal _).trans hval
  generalize decimal (.ofNat m) = digits at *
  obtain ⟨b, rest, rfl⟩ := List.exists_cons_of_ne_nil hne
  have hb : b ≠ 0x2d ∧ b ≠ 0x2b := by
    have := hdig b List.mem_cons_self
    constructor
    · rintro rfl
      cases this
    · rintro rfl
      cases this
  have hall : (b :: rest).all isDigit = true := List.all_eq_true.mpr hdig
  simp only [parseInt, List.head?_cons, Option.some.injEq, hb.1, hb.2, decide_false, Bool.or_self,
    Bool.false_eq_true, if_false, hall, hvalue, List.length_cons, Nat.succ_ne_zero, Bool.not_true]
  split
  · next h => rw [if_pos (by omega)]
  · next h => rw [if_neg (by omega)]

end Reading

/-! ## Reading back -/

/-- The numbers of an item are in the range in which they are read back. -/
structure Item.Readable (it : Item) : Prop where
  dataflags : it.dataflags < 2 ^ 31
  nbyte : it.nbyte < 2 ^ 31
  configNumber_nonneg : 0 ≤ it.configNumber
  configNumber_lt : it.configNumber < 2 ^ 31

section Lines

variable {it : Item}

theorem uintText_ne_nil (n : Int) : uintText n ≠ [] := decimal_ne_nil _

theorem clean_uintText (n : Int) : Clean (uintText n) := by
  intro b hb
  have hd := isDigit_of_mem_decimal _ b hb
  refine ⟨?_, ?_, ?_⟩
  all_goals
    rintro rfl
    cases hd

theorem getLast?_uintText (n : Int) : ∀ b ∈ (uintText n).getLast?, ¬ b ≤ 0x20 := by
  intro b hb
  have hd := isDigit_of_mem_decimal _ b (List.mem_of_getLast? hb)
  simp only [isDigit, Bool.and_eq_true, decide_eq_true_eq] at hd
  exact fun hle => absurd (UInt8.le_trans hd.1 hle) (by decide)

/-- A line with numbers after the key, as the client reads it. -/
theorem readLine_numbers (hkey : Clean key) (n : Int) (ns : List Int) :
    readLine (unwords (valueWord :: key :: (ns ++ [n]).map uintText) ++ [0x0d, 0x0a]) =
      unwords (valueWord :: key :: (ns ++ [n]).map uintText) := by
  have hclean : ∀ w ∈ valueWord :: key :: (ns ++ [n]).map uintText, Clean w := by
    intro w hw
    rcases List.mem_cons.mp hw with rfl | hw
    · decide +kernel
    rcases List.mem_cons.mp hw with rfl | hw
    · exact hkey
    · obtain ⟨m, -, rfl⟩ := List.mem_map.mp hw
      exact clean_uintText m
  refine readLine_append (fun h => (clean_unwords hclean _ h).1 rfl) ?_ ?_
    (by simp [unwords, valueWord, ofChars])
  · intro b hb
    simp only [unwords, valueWord, ofChars, List.map_cons, List.cons_append, List.head?_cons,
      Option.mem_def, Option.some.injEq] at hb
    subst hb
    decide
  · -- the line ends with the digits of the last number
    have hends : unwords (valueWord :: key :: (ns ++ [n]).map uintText) =
        (valueWord ++ (key :: ns.map uintText).flatMap (0x20 :: ·) ++ [0x20]) ++ uintText n := by
      simp [unwords]
    intro b hb
    rw [hends, List.getLast?_append_of_ne_nil _ (uintText_ne_nil n)] at hb
    exact getLast?_uintText n b hb

theorem splitBlank_numbers (hkey : Clean key) (hne : key ≠ []) (ns : List Int) :
    splitBlank (unwords (valueWord :: key :: ns.map uintText)) = valueWord :: key :: ns.map
      uintText := by
  refine splitBlank_unwords (fun w hw => ?_) (List.cons_ne_nil _ _)
  rcases List.mem_cons.mp hw with rfl | hw
  · decide
  rcases List.mem_cons.mp hw with rfl | hw
  · exact ⟨hne, fun h => (hkey _ h).1 rfl⟩
  · obtain ⟨m, -, rfl⟩ := List.mem_map.mp hw
    exact ⟨uintText_ne_nil m, fun h => (clean_uintText m _ h).1 rfl⟩

theorem valueWord_isPrefixOf (ws : List Bytes) :
    valueWord.isPrefixOf (unwords (valueWord :: ws)) = true :=
  List.isPrefixOf_iff_prefix.mpr (List.prefix_append _ _)

theorem parseInt_uintText_eq_some {i : Int} :
    parseInt (uintText n) = some i ↔ n % 2 ^ 32 = i ∧ n % 2 ^ 32 < 2 ^ 31 := by
  rw [parseInt_uintText]
  split
  · next h => exact ⟨fun heq => ⟨Option.some.inj heq, h⟩, fun heq => congrArg some heq.1⟩
  · next h => exact ⟨nofun, fun heq => absurd heq.2 h⟩

/-- A number that is not negative is read back if it fits an `int`. -/
theorem parseInt_uintText_nat {n : Nat} : parseInt (uintText n) = some (n : Int) ↔ n < 2 ^ 31 := by
  rw [parseInt_uintText_eq_some]
  omega

/-- A configuration number is read back if it is not negative. -/
theorem parseInt_uintText_int : parseInt (uintText n) = some n ↔ 0 ≤ n ∧ n < 2 ^ 31 := by
  rw [parseInt_uintText_eq_some]
  omega

theorem readable_iff : it.Readable ↔ parseInt (uintText it.dataflags) = some (it.dataflags : Int) ∧
    parseInt (uintText it.nbyte) = some (it.nbyte : Int) ∧
      parseInt (uintText it.configNumber) = some it.configNumber := by
  rw [parseInt_uintText_nat, parseInt_uintText_nat, parseInt_uintText_int]
  exact ⟨fun h => ⟨h.1, h.2, h.3, h.4⟩, fun h => ⟨h.1, h.2.1, h.2.2.1, h.2.2.2⟩⟩

/-- `get` reads back the numbers of a value exactly if they are in range. -/
theorem clientGet_getLine_iff (hkey : Clean it.key) (hne : it.key ≠ []) :
    clientGet (readLine (getLine it)) = some ⟨it.dataflags, it.nbyte, it.configNumber⟩ ↔
    it.Readable := by
  have hline := readLine_numbers hkey it.configNumber [it.dataflags, it.nbyte]
  have hsplit := splitBlank_numbers hkey hne [it.dataflags, it.nbyte, it.configNumber]
  simp only [List.cons_append, List.nil_append, List.map_cons, List.map_nil] at hline hsplit
  rw [getLine, hline, clientGet, hsplit, valueWord_isPrefixOf]
  simp only [guard, if_true, Option.pure_def, Option.bind_eq_bind, Option.bind_some, parseAt,
    List.getElem?_cons_succ, List.getElem?_cons_zero, Option.bind_eq_some_iff, Option.some.injEq,
    ValueInfo.mk.injEq]
  rw [readable_iff]
  constructor
  · rintro ⟨_, hflags, _, hlen, _, hcfg, rfl, rfl, rfl⟩
    exact ⟨hflags, hlen, hcfg⟩
  · rintro ⟨hflags, hlen, hcfg⟩
    exact ⟨_, hflags, _, hlen, _, hcfg, rfl, rfl, rfl⟩

/-- `iqget` reads back the numbers of a value exactly if they are in range. -/
theorem clientIqget_iqgetLine_iff (hkey : Clean it.key) (hne : it.key ≠ []) :
    clientIqget (readLine (iqgetLine it)) = some ⟨it.dataflags, it.nbyte, it.configNumber⟩ ↔
    it.Readable := by
  have hline := readLine_numbers hkey it.configNumber [it.dataflags, it.p.toNat, it.nbyte]
  have hsplit := splitBlank_numbers hkey hne [it.dataflags, it.p.toNat, it.nbyte, it.configNumber]
  have hpending : parseInt (uintText it.p.toNat) = some (it.p.toNat : Int) :=
    parseInt_uintText_nat.mpr (it.p.toNat_lt.trans (by decide))
  simp only [List.cons_append, List.nil_append, List.map_cons, List.map_nil] at hline hsplit
  rw [iqgetLine, hline, clientIqget, hsplit, valueWord_isPrefixOf]
  simp only [guard, if_true, Option.pure_def, Option.bind_eq_bind, Option.bind_some, parseAt,
    List.getElem?_cons_succ, List.getElem?_cons_zero, Option.bind_eq_some_iff, Option.some.injEq,
    ValueInfo.mk.injEq, hpending]
  rw [readable_iff]
  constructor
  · rintro ⟨_, hflags, _, hlen, _, hcfg, rfl, rfl, rfl⟩
    exact ⟨hflags, hlen, hcfg⟩
  · rintro ⟨hflags, hlen, hcfg⟩
    exact ⟨_, hflags, _, hlen, _, hcfg, rfl, rfl, rfl⟩

end Lines

/-! ## Runs -/

/-- A configuration number that is not negative. -/
structure IsConfig (n : Int) : Prop where
  nonneg : 0 ≤ n
  lt : n < 2 ^ 31

/-- A line that is handled in the state `s` and gives no key a value with a number out of range:
what it says itself is in range, an increment fits the item that is there, and a session commits no
pending version. -/
def Request.Numbered (s : Server) : Request → Prop
  | .update _ _ frag _ flags _ vlen =>
    flags < 2 ^ 31 ∧ vlen < 2 ^ 31 ∧ IsConfig (fragConfig frag s.configurationNumber)
  | .swap _ _ _ flags .. | .oqswap _ _ flags .. | .oqwrite _ _ flags .. => flags < 2 ^ 31
  | .arithmetic incr _ key delta =>
    ∀ it value amount, s.live key = some it → mcStrtoullLen it.data = some value →
    mcStrtoull delta = some amount → (decimal (addDelta incr value amount)).length ≤ it.nbyte
  | .commit _ frag _ _ => IsConfig (fragConfig frag s.configurationNumber)
  | .dcommit sid => s.NoVersion (s.listed sid)
  | _ => True

/-- A body that is completed in the state `s` and gives the key no value without a configuration
number: `append` and `prepend` find no value, and `sar` no lease with its token. -/
def Completion.Numbered (s : Server) (key : Bytes) : Completion → Prop
  | .store .append | .store .prepend => s.live key = none
  | .sar leaseToken => ∀ l, s.live (leaseKey key) = some l → l.leaseValue ≠ leaseToken
  | _ => True

/-- A step that gives no key a value with a number out of range. -/
def Event.Numbered (s : Server) : Event → Prop
  | .line _ req _ => req.Numbered s
  | .body _ _ p _ _ => p.completion.Numbered s p.item.key
  | _ => True

/-- What is known of an item in the table: its flags are in range, and for a value so are all
numbers. -/
structure Item.Valued (N : Naming) (it : Item) : Prop where
  dataflags : it.dataflags < 2 ^ 31
  readable : N.isKey it.key → it.Readable

section Runs

variable {c : Settings} {N : Naming} {s : Server} {it : Item}

theorem Item.Readable.valued (h : it.Readable) : it.Valued N := ⟨h.dataflags, fun _ => h⟩

/-- The invariant of the runs in question. -/
theorem stable_valued (c : Settings) (N : Naming) :
    Stable c N.Key N.Owner (· < 2 ^ 31) (fun _ => True) (fun it => it.Orderly N ∧ it.Valued N)
      (fun _ it => it.Orderly N ∧ it.Valued N) (fun _ => Server.All fun it => it.Orderly N ∧
        it.Valued N) := by
  refine stable_orderly c N (by decide) (fun it h => h.dataflags) (fun it hkey hfl =>
    ⟨hfl, fun h => absurd h hkey⟩) ?_
  intro it it' ⟨hfl, hread⟩ hkey hdata hfl' hcfg
  refine ⟨hfl'.symm ▸ hfl, fun h => ?_⟩
  obtain ⟨hfl, hlen, hnonneg, hlt⟩ := hread (hkey ▸ h)
  have hlen' : it'.nbyte = it.nbyte := congrArg List.length hdata
  exact ⟨hfl'.symm ▸ hfl, hlen'.symm ▸ hlen, hcfg.symm ▸ hnonneg, hcfg.symm ▸ hlt⟩

theorem Request.Numbered.line (hc : c.maxChunkSize ≤ slabMaxSize)
    (hs : s.All fun it => it.Orderly N ∧ it.Valued N) (hkeys : ∀ key ∈ req.keys, N.isKey key)
    (howners : ∀ tid ∈ req.owners, N.Owner tid) (hreq : req.Numbered s) :
    Stable.Line c N.Key N.Owner (Server.All fun it => it.Orderly N ∧ it.Valued N) s req where
  keys key hmem hlen := ⟨hkeys key hmem, hlen⟩
  owners := howners
  arithmetic := by
    rintro incr cfg key delta rfl hlen amount hdelta
    have hkey : N.isKey key := hkeys key List.mem_cons_self
    refine (stable_valued c N).keeps_itemAddDelta (b := 0) hs ?_ ?_
    · intro it buf hk hit _ hbuf
      have hfind : (s.reap key).find it.key = some it := by rw [hk, find_reap_self, hit]
      have hread := (hs key it (live_eq_some.mp hit).1).2.readable (hk ▸ hkey)
      have hs₁ := (stable_valued c N).shrink (b := 0) hs (.reap s key)
      refine hs₁.place hfind fun cas => ⟨.of_key (hk ▸ hkey), Item.Readable.valued ?_⟩
      refine ⟨hread.dataflags, ?_, hread.configNumber_nonneg, hread.configNumber_lt⟩
      show (inPlaceData it buf).length < 2 ^ 31
      rw [length_inPlaceData hbuf]
      exact hbuf.trans_lt hread.nbyte
    · -- the number fits the item that is there
      intro _ it newIt value hit hvalue _ _ hdata hgrows
      have hfits := hreq it value amount hit hvalue hdelta
      rw [← hdata] at hfits
      exact absurd hgrows (Nat.not_lt_of_le hfits)
  commit := by
    rintro cfg frag tid pending rfl
    refine (stable_valued c N).keeps_itemCommit (b := 0) (howners tid List.mem_cons_self)
      pending ?_ s hs
    intro _ key pvIt newIt hkey hpv _ hmade _ _ _
    have hname : newIt.key = key := hmade.key.trans (u8Name_of_lt (hkey.short.trans_lt (by decide)))
    refine ⟨.of_key (hname ▸ hkey.isKey), Item.Readable.valued ⟨?_, ?_, ?_, ?_⟩⟩
    · rw [hmade.dataflags]
      exact hpv.2.dataflags
    · exact Nat.lt_of_le_of_lt (Nat.le_add_right _ _) (lt_of_fits hc hmade.fits)
    · rw [hmade.configNumber]
      exact hreq.nonneg
    · rw [hmade.configNumber]
      exact hreq.lt
  dcommit := by
    rintro sid rfl
    refine (stable_valued c N).keeps_itemDcommit_noVersion (b := 0) hs
      (howners sid List.mem_cons_self) hreq fun key hkey => ?_
    exact ⟨N.key_unprefixed hkey.isKey, hkey.short⟩
  flushall exptime _ := wlp_ascProcessFlushall.mpr (hs.flush _)

/-- The item that a line in order has prepared. -/
theorem Prepared.numbered (hp : Prepared c s₀ req p) (hreq : req.Numbered s₀) (body : Bytes) :
    (p.completion.stages = true → (p.filled body).dataflags < 2 ^ 31) ∧
      ∀ cmd, p.completion = .store cmd → (p.filled body).Readable := by
  obtain ⟨hp, -, -⟩ := hp
  cases req with
  | update cmd cfg frag key flags exptime vlen =>
    cases hp
    obtain ⟨hflags, hlen, hcfg⟩ := hreq
    refine ⟨nofun, fun _ _ => ⟨hflags, ?_, hcfg.nonneg, hcfg.lt⟩⟩
    exact (List.length_take_le _ _).trans_lt hlen
  | swap | oqswap | oqwrite =>
    cases hp
    exact ⟨fun _ => hreq, nofun⟩
  | sar | iqConcat | oqConcat =>
    cases hp
    exact ⟨nofun, nofun⟩
  | _ => cases hp

theorem Completion.Numbered.body {body : Bytes} (hs : s.All fun it => it.Orderly N ∧ it.Valued N)
    (hkeys : ∀ key ∈ req.keys, N.isKey key) (howners : ∀ tid ∈ req.owners, N.Owner tid)
    (hp : Prepared c s₀ req p) (hreq : req.Numbered s₀)
    (hbody : p.completion.Numbered s p.item.key) :
    Stable.Body c N.Key N.Owner (· < 2 ^ 31) (Server.All fun it => it.Orderly N ∧ it.Valued N) s req
      p.completion (p.filled body) where
  key := ⟨hkeys _ hp.key_mem, hp.short_key⟩
  owners := howners
  flags := (hp.numbered hreq body).1
  store cmd hc := by
    have hread := (hp.numbered hreq body).2 cmd hc
    have hkey : N.isKey (p.filled body).key := hkeys _ hp.key_mem
    refine (stable_valued c N).keeps_itemStore (b := 0) hs (fun _ =>
      ⟨.of_key hkey, hread.valued⟩) ?_
    -- there is nothing to append to
    intro htype _ oit nit hlive
    rw [hc] at hbody
    have hnone : s.live (p.filled body).key = none := by
      cases cmd with
      | append | prepend => exact hbody
      | _ => rcases htype with h | h <;> cases h
    rw [hlive] at hnone
    cases hnone
  sar leaseToken hc := by
    refine (stable_valued c N).keeps_itemSwapAndRelease (b := 0) hs fun l hl htoken => ?_
    rw [hc] at hbody
    exact absurd htoken (hbody l hl)

/-- In a run of requests in order, of clients that keep their names apart, all numbers of values are
in range. -/
theorem valued_of_run {h : History} (hc : c.maxChunkSize ≤ slabMaxSize) (hr : (service c).Run h w)
    (hapart : ∀ t ∈ h, t.label.Apart N) (hnum : ∀ t ∈ h, t.label.Numbered t.pre.server) :
    w.server.All fun it => it.Orderly N ∧ it.Valued N := by
  induction hr with
  | init hinit =>
    cases hinit
    intro n it hit
    cases hit
  | @step h w w' e hr hstep ih =>
    have hs := ih (fun t ht => hapart t (List.mem_cons_of_mem _ ht)) fun t ht =>
      hnum t (List.mem_cons_of_mem _ ht)
    obtain ⟨hkeys, howners⟩ := hapart _ List.mem_cons_self
    have he : e.Numbered w.server := hnum _ List.mem_cons_self
    refine (stable_valued c N).keeps_step (b := 0) hr hstep hs ?_ ?_
    · rintro conn req out rfl
      exact Request.Numbered.line hc hs (hkeys req rfl) (howners req rfl) he
    · rintro conn req p body reply rfl
      obtain ⟨t, ht, hlabel, hp⟩ := exists_line_of_waiting hr hstep.of_body.1
      have hreq := hnum t (List.mem_cons_of_mem _ ht)
      rw [hlabel] at hreq
      exact Completion.Numbered.body hs (hkeys req rfl) (howners req rfl) hp hreq he

/-- In a run of requests in order, of clients that keep their names apart, the client's `get` and
`iqget` read the flags, the length and the configuration number of every value as the server has
them. -/
theorem clientGet_of_run {h : History} {w : World} {key : Bytes} (hc : c.maxChunkSize ≤ slabMaxSize)
    (hr : (service c).Run h w) (hapart : ∀ t ∈ h, t.label.Apart N)
    (hnum : ∀ t ∈ h, t.label.Numbered t.pre.server) (hkey : N.isKey key) (hclean : Clean key)
    (hne : key ≠ []) (hit : w.server.find key = some it) :
    clientGet (readLine (getLine it)) = some ⟨it.dataflags, it.nbyte, it.configNumber⟩ ∧
      clientIqget (readLine (iqgetLine it)) = some ⟨it.dataflags, it.nbyte, it.configNumber⟩ := by
  have hname : it.key = key := key_of_find hit
  have hread : it.Readable := (valued_of_run hc hr hapart hnum key it hit).2.readable (hname ▸ hkey)
  exact ⟨(clientGet_getLine_iff (hname ▸ hclean) (hname ▸ hne)).mpr hread,
    (clientIqget_iqgetLine_iff (hname ▸ hclean) (hname ▸ hne)).mpr hread⟩

/-- The naming with the key `k`. -/
def lineNaming : Naming := .ofLists [[0x6b]] [] unprefixed_k unprefixed_nil k_not_mem_nil

/-- The test that a step sets a value whose numbers are in range. -/
def Event.setsNumbered (s : Server) : Event → Bool
  | .line _ (.update .set _ frag _ flags _ vlen) _ => flags < 2 ^ 31 && vlen < 2 ^ 31 &&
    0 ≤ fragConfig frag s.configurationNumber && fragConfig frag s.configurationNumber < 2 ^ 31
  | .body _ _ p _ _ => p.completion = .store .set
  | _ => false

theorem Event.Numbered.of_sets {e : Event} (h : e.setsNumbered s = true) : e.Numbered s := by
  cases e with
  | line conn req out =>
    cases req with
    | update cmd cfg frag key flags exptime vlen =>
      cases cmd with
      | set =>
        simp only [Event.setsNumbered, Bool.and_eq_true, decide_eq_true_eq] at h
        exact ⟨h.1.1.1, h.1.1.2, h.1.2, h.2⟩
      | _ => cases h
    | _ => cases h
  | body conn req p body reply =>
    have hc : p.completion = .store .set := of_decide_eq_true h
    show p.completion.Numbered s p.item.key
    rw [hc]
    trivial
  | _ => trivial

/-- A value that was set is read back. -/
theorem clientGet_of_run_set : ∃ (h : History) (w : World) (it : Item), (service {}).Run h w ∧
    w.server.find [0x6b] = some it ∧ it.dataflags = 7 ∧
      clientGet (readLine (getLine it)) = some ⟨it.dataflags, it.nbyte, it.configNumber⟩ ∧
        clientIqget (readLine (iqgetLine it)) = some ⟨it.dataflags, it.nbyte, it.configNumber⟩ := by
  obtain ⟨h, w, hr, hnamed, hsets, it, hit, hflags⟩ := (playable_run {}).exists_run
    [.line 0 (.update .set (-1) (-1) [0x6b] 7 0 1), .body 0 [0x39, 0x0d, 0x0a]]
    (P := fun h w => (∀ t ∈ h, t.label.apartNamed [[0x6b]]) ∧
      (∀ t ∈ h, t.label.setsNumbered t.pre.server) ∧
      ∃ it, w.server.find [0x6b] = some it ∧ it.dataflags = 7) (by decide +kernel)
  exact ⟨h, w, it, hr, hit, hflags, clientGet_of_run (N := lineNaming) (by decide) hr
    (fun t ht => .of_named (hnamed t ht)) (fun t ht => .of_sets (hsets t ht)) List.mem_cons_self
      (by decide +kernel) (by decide) hit⟩

/-- The client does not read back a number that has become longer: `9` is set and incremented to
`10`, and the new item has no configuration number. -/
theorem clientGet_incr_eq_none : ∃ (h : History) (w : World) (it : Item), (service {}).Run h w ∧
    (∀ t ∈ h, t.label.Apart lineNaming) ∧ lineNaming.isKey [0x6b] ∧ w.server.find [0x6b] = some it ∧
      it.configNumber = -1 ∧ clientGet (readLine (getLine it)) = none ∧
        clientIqget (readLine (iqgetLine it)) = none := by
  obtain ⟨h, w, hr, hnamed, it, hit, hcfg, hget, hiqget⟩ := (playable_run {}).exists_run
    [.line 0 (.update .set (-1) (-1) [0x6b] 0 0 1), .body 0 [0x39, 0x0d, 0x0a],
      .line 0 (.arithmetic true (-1) [0x6b] [0x31])]
    (P := fun h w => (∀ t ∈ h, t.label.apartNamed [[0x6b]]) ∧ ∃ it, w.server.find [0x6b] = some it ∧
      it.configNumber = -1 ∧ clientGet (readLine (getLine it)) = none ∧
      clientIqget (readLine (iqgetLine it)) = none)
    (by decide +kernel)
  exact ⟨h, w, it, hr, fun t ht => .of_named (hnamed t ht), List.mem_cons_self, hit, hcfg,
    hget, hiqget⟩

end Runs

end Rejig
