import Mathlib.Data.List.TakeWhile
import Rejig.Client

/-!
# Client and server on the wire

The line that the Java client writes for a call is read back by the server: `asc_tokenize` finds the
words that the client put together, the numbers are read as they were printed, and the handler takes
its fields from positions of its own.  Whether these are the positions of the client is another
matter, since both sides were changed when configuration numbers came in.

`Agrees` says that the server takes the line of a call for the call that it was, and `agrees_iff`
for which calls this is so.
-/

namespace Rejig

open Prog Walk Option List

variable {cmd : Command} {noreply : Bool} {command : Bytes} {n : Nat} {ws : List Bytes} {A : Type}
  {read : Bytes → Option A}

/-! ## Words -/

section Words

variable {s e w : Bytes}

/-- A word is scanned to its end. -/
theorem scanTokens_append (hw : ∀ b ∈ w, b ≠ 0x20) :
    scanTokens s n (w ++ e) = scanTokens s (n + w.length) e := by
  induction w generalizing n with
  | nil => rfl
  | cons b w ih =>
    have hb : b ≠ 0x20 := hw b mem_cons_self
    rw [cons_append, scanTokens, if_neg hb, ih fun b hb => hw b (mem_cons_of_mem _ hb), length_cons,
      Nat.add_assoc, Nat.add_comm 1]

/-- The words of a line are those it was put together from; an empty one is not seen. -/
theorem words_unwords (hws : ∀ w ∈ ws, ∀ b ∈ w, b ≠ 0x20) :
    words (unwords ws) = ws.filter (· ≠ []) := by
  cases ws with
  | nil => rfl
  | cons w ws =>
    induction ws generalizing w with
    | nil =>
      have hw := hws w mem_cons_self
      have hscan := scanTokens_append (s := w ++ []) (n := 0) (e := []) hw
      rw [words, unwords, flatMap_nil, hscan, scanTokens, Nat.zero_add]
      cases w <;> simp [Token.text]
    | cons w' ws ih =>
      have hw := hws w mem_cons_self
      have hrest := ih w' fun v hv => hws v (mem_cons_of_mem _ hv)
      have hsplit : unwords (w :: w' :: ws) = w ++ 0x20 :: unwords (w' :: ws) := rfl
      rw [words, hsplit, scanTokens_append hw, scanTokens, if_pos rfl, Nat.zero_add,
        filter_cons, ← hrest]
      cases w with
      | nil => rfl
      | cons b w => simp [words, Token.text]

end Words

/-- The tokens of a line with these words. -/
structure Table (t : List Token) (ws : List Bytes) : Prop where
  texts : t.map Token.text = ws
  ends : ∀ w ∈ t, (w.val.drop w.len).head?.all (· = 0x20) = true
  next : 1 < ws.length → ∀ w, t.head? = some w → (w.val.drop w.len).head? = some 0x20

/-- The table holds the first words of its line. -/
theorem table_words (command : Bytes) :
    Table (ascTokenize command) ((words command).take (tokenMax - 1)) := by
  refine ⟨by rw [ascTokenize, words, map_take], fun w hw => head_drop_of_mem_ascTokenize hw,
    fun hmore w hw => ?_⟩
  have hhead : (scanTokens command 0 command)[0]? = some w := by
    rwa [ascTokenize, List.head?_take, if_neg (by decide), List.head?_eq_getElem?] at hw
  have hend := head_drop_of_mem_scanTokens rfl (mem_of_getElem? hhead)
  cases hdrop : w.val.drop w.len with
  | cons b rest =>
    rw [hdrop] at hend
    simpa using hend
  | nil =>
    -- behind the last token there is none
    have hrest := drop_scanTokens (s := command) (n := 0) rfl hhead
    rw [hdrop] at hrest
    have hone : (scanTokens command 0 command).length ≤ 1 := drop_eq_nil_iff.mp hrest
    rw [words, length_take, length_map] at hmore
    exact absurd (hmore.trans_le (min_le_right _ _)) (Nat.not_lt_of_le hone)

theorem table_unwords (hws : ∀ w ∈ ws, ∀ b ∈ w, b ≠ 0x20)
    (hlen : (ws.filter (· ≠ [])).length ≤ tokenMax - 1) :
    Table (ascTokenize (unwords ws)) (ws.filter (· ≠ [])) := by
  have htable := table_words (unwords ws)
  rwa [words_unwords hws, take_of_length_le hlen] at htable

/-! ## Numbers -/

section Numbers

variable {fuel : Nat} {acc digits rest : Bytes}

theorem digitsValue_decimalDigits (h : n < 10 ^ fuel) (hf : 0 < fuel) :
    digitsValue (decimalDigits fuel n acc) = acc.foldl (fun v b => 10 * v + (b.toNat - 48)) n := by
  induction fuel generalizing n acc with
  | zero => cases hf
  | succ fuel ih =>
    rw [decimalDigits]
    split
    · next hn =>
      rw [digitsValue, foldl_cons, digit_toNat, Nat.mul_zero, Nat.zero_add, Nat.mod_eq_of_lt hn]
    · next hn =>
      have hdiv : n / 10 < 10 ^ fuel := by
        rw [Nat.div_lt_iff_lt_mul (by decide)]
        simpa [pow_succ] using h
      have hpos : 0 < fuel := by
        rcases Nat.eq_zero_or_pos fuel with rfl | hpos
        · rw [pow_zero] at hdiv
          omega
        · exact hpos
      rw [ih hdiv hpos, foldl_cons, digit_toNat, Nat.div_add_mod]

theorem isDigit_of_mem_decimalDigits (hacc : ∀ b ∈ acc, isDigit b = true) :
    ∀ b ∈ decimalDigits fuel n acc, isDigit b = true := by
  induction fuel generalizing n acc with
  | zero => exact hacc
  | succ fuel ih =>
    have hcons : ∀ b ∈ UInt8.ofNat (48 + n % 10) :: acc, isDigit b = true :=
      forall_mem_cons.mpr ⟨isDigit_digit n, hacc⟩
    rw [decimalDigits]
    split
    · exact hcons
    · exact ih hcons

theorem digitsValue_decimal (n : UInt64) : digitsValue (decimal n) = n.toNat :=
  digitsValue_decimalDigits (n.toNat_lt.trans (by norm_num)) (by decide)

theorem isDigit_of_mem_decimal (n : UInt64) : ∀ b ∈ decimal n, isDigit b = true :=
  isDigit_of_mem_decimalDigits (forall_mem_nil _)

/-- A minus sign in front of digits. -/
theorem strto_minus (hne : digits ≠ []) (hdigits : ∀ b ∈ digits, isDigit b = true)
    (hrest : rest.head?.all (· = 0x20) = true) : strto (0x2d :: digits ++ rest) = some (true,
        digitsValue digits) := by
  obtain ⟨htake, hdrop⟩ := not_isDigit_of_head hrest
  have htake : (digits ++ rest).takeWhile isDigit = digits := by
    rw [List.takeWhile_append_of_pos hdigits, htake, List.append_nil]
  have hdrop : (digits ++ rest).dropWhile isDigit = rest := by
    rw [List.dropWhile_append_of_pos hdigits, hdrop]
  have hlen : ¬ digits.length = 0 := mt List.length_eq_zero_iff.mp hne
  have hend : (rest.head?.any isSpace || (rest.length = 0 && digits.length ≠ 0)) = true := by
    cases rest with
    | nil => simp [hlen]
    | cons b rest =>
      obtain rfl : b = 0x20 := by simpa using hrest
      rfl
  have hskip : mcSkipSpace (0x2d :: digits ++ rest) = 0x2d :: (digits ++ rest) := rfl
  have hminus : decide ((0x2d :: (digits ++ rest)).head? = some 0x2d) = true := rfl
  rw [strto]
  simp only [hskip, hminus, Bool.true_or, if_true, List.tail_cons, htake, hdrop, hlen,
    if_false, hend]

theorem strto_intText {i : Int} (hi : i.natAbs < 2 ^ 64)
    (hrest : rest.head?.all (· = 0x20) = true) :
    strto (intText i ++ rest) = some (decide (i < 0), i.natAbs) := by
  have hval : (UInt64.ofNat i.natAbs).toNat = i.natAbs := by
    rw [UInt64.toNat_ofNat']
    exact Nat.mod_eq_of_lt hi
  rw [intText]
  split
  · next hneg =>
      rw [strto_minus (decimal_ne_nil _) (isDigit_of_mem_decimal _) hrest,
      digitsValue_decimal, hval, decide_eq_true hneg]
  · next hpos =>
      rw [strto_of_digits (decimal_ne_nil _) (isDigit_of_mem_decimal _) hrest,
      digitsValue_decimal, hval, decide_eq_false hpos]

end Numbers

/-! ## What the server reads -/

/-- The server cuts a line off its buffer and parses it. -/
def Call.line (cfg : Int32) (call : Call Bytes) : Bytes :=
  ascCommand ((call.header cfg).takeWhile (· ≠ 0x0a))

/-- What a request is about: the numbers and names that client and server must agree on. -/
structure Wire where
  config : Option Int := none
  frag : Option Int := none
  keys : List Bytes := []
  tid : Option Bytes := none
  delta : Option Bytes := none
  token : Option UInt64 := none
  length : Option Nat := none
deriving DecidableEq, Repr

/-- An identifier that is empty is none. -/
def nonempty (w : Bytes) : Option Bytes := if w = [] then none else some w

/-- The number that comes with an update. -/
def Update.number : Update → Option UInt64
  | cas id => some id
  | iqset leaseToken => some leaseToken
  | _ => none

/-- What the server has read. -/
def Request.wire : Request → Wire
  | get _ cfg keys => { config := cfg, keys }
  | update cmd cfg frag key _ _ vlen =>
    { config := cfg, frag, keys := [key], token := cmd.number, length := vlen }
  | arithmetic _ cfg key delta => { config := cfg, keys := [key], delta }
  | delete cfg _ keys => { config := cfg, keys }
  | unlease cfg key leaseToken => { config := cfg, keys := [key], token := leaseToken }
  | qareg cfg key tid => { config := cfg, keys := [key], tid := nonempty tid }
  | dar cfg tid => { config := cfg, tid := nonempty tid }
  | qaread cfg key _ leaseToken tid =>
    { config := cfg, keys := [key], tid := nonempty tid, token := leaseToken }
  | sar cfg key _ _ vlen leaseToken =>
    { config := cfg, keys := [key], token := leaseToken, length := vlen }
  | swap cfg frag key _ _ vlen leaseToken =>
    { config := cfg, frag, keys := [key], token := leaseToken, length := vlen }
  -- the amount is the transaction
  | iqDelta _ cfg key delta _ => { config := cfg, keys := [key], tid := nonempty delta, delta }
  -- the length of the identifier is kept in one byte until the body has arrived
  | iqConcat _ cfg key vlen tid =>
    { config := cfg, keys := [key], tid := nonempty (u8Name tid), length := vlen }
  | commit cfg frag tid _ => { config := cfg, frag, tid := nonempty tid }
  | release tid => { tid := nonempty tid }
  | iqget cfg key leaseToken => { config := cfg, keys := [key], token := leaseToken }
  | iset cfg key leaseToken tid =>
    { config := cfg, keys := [key], tid := nonempty tid, token := leaseToken }
  | updateConfiguration number => { config := number }
  | flushall _ => {}
  | ciget sid key leaseToken => { keys := [key], tid := nonempty sid, token := leaseToken }
  | oqread sid key | oqreg sid key => { keys := [key], tid := nonempty sid }
  | oqswap sid key _ _ vlen | oqwrite sid key _ _ vlen | oqConcat _ sid key vlen =>
    { keys := [key], tid := nonempty (u8Name sid), length := vlen }
  | oqDelta _ cfg sid key delta => { config := cfg, keys := [key], tid := nonempty sid, delta }
  | dcommit sid | coUnlease sid | validate sid => { tid := nonempty sid }

/-- What the client has put into a line. -/
def Call.wire (cfg : Int32) : Call Bytes → Wire
  | get key => { config := cfg.toInt, keys := [key] }
  | set _ frag key _ value =>
    { config := cfg.toInt, frag := frag.toInt, keys := [key], length := value.length }
  | cas frag key _ value token | iqset frag key _ value token | swap frag key value token =>
    { config := cfg.toInt, frag := frag.toInt, keys := [key], token := some (.ofInt token.toInt),
      length := value.length }
  | incrdecr _ key inc => { keys := [key], delta := intText inc.toInt }
  | iqget key token _ | iset key token | releaseX key token =>
    { config := cfg.toInt, keys := [key], token := some (.ofInt token.toInt) }
  | quarantineAndRegister tid key => { config := cfg.toInt, keys := [key], tid := nonempty tid }
  | deleteAndRelease tid => { config := cfg.toInt, tid := nonempty tid }
  | quarantineAndRead tid key _ token =>
    { config := cfg.toInt, keys := [key], tid := tid.bind nonempty,
      token := some (.ofInt token.toInt) }
  | swapAndRelease key _ value token =>
    { keys := [key], token := some (.ofInt token.toInt), length := value.length }
  | iqappendorprepend _ key value tid =>
    { config := cfg.toInt, keys := [key], tid := nonempty tid, length := value.length }
  | iqincrordecr _ key value tid =>
    { keys := [key], tid := nonempty tid, delta := intText value.toInt }
  | commit tid | release tid => { tid := nonempty tid }
  | ewcommit tid frag _ => { config := cfg.toInt, frag := frag.toInt, tid := nonempty tid }
  | delete key _ => { config := cfg.toInt, keys := [key] }

/-- The server, on a fresh connection, accepts the line of a call as the command of the call, and
reads from it what the client has put in, if the number of its configuration lets it. -/
def Agrees (cfg : Int32) (call : Call Bytes) : Prop :=
  ∃ noreply, ascHandler false (call.line cfg) = some (call.command, noreply) ∧
    ∀ (admin : Admin) (server : Int), (cfg.toInt = -1 ∨ cfg.toInt = server) ∧ server ≠ -1 →
      ∃ req, (ascFields admin server noreply (call.line cfg) call.command).result = .ok
        (.request req) ∧
        req.wire = call.wire cfg

/-- A word that stays together on a line. -/
def Clean (w : Bytes) : Prop := ∀ b ∈ w, b ≠ 0x20 ∧ b ≠ 0x0a ∧ b ≠ 0

instance (w : Bytes) : Decidable (Clean w) := inferInstanceAs (Decidable (∀ b ∈ w, _))

/-- A name as it may stand on a line. -/
structure Name where
  bytes : Bytes
  clean : Clean bytes

/-- The last word of a line that asks for no answer. -/
def noreplyWord : Bytes := ofChars ['n', 'o', 'r', 'e', 'p', 'l', 'y']

/-- The calls that the server understands. -/
def Call.Understood : Call Bytes → Prop
  | get key | delete key _ => key ≠ []
  | set cmdname _ key _ _ => (cmdname = .set ∨ cmdname = .add) ∧ key ≠ [] ∧ key.length ≤ keyMaxLen
  | cas _ key _ value casToken => key ≠ [] ∧ key.length ≤ keyMaxLen ∧ casToken.toInt = value.length
  | iqset _ key _ _ _ | iqget key _ _ | quarantineAndRead _ key _ _ | swap _ key
      _ _ | releaseX key _ =>
    key ≠ [] ∧ key.length ≤ keyMaxLen
  | quarantineAndRegister tid key =>
    key ≠ [] ∧ key.length ≤ keyMaxLen ∧ tid ≠ [] ∧ tid.length ≤ tidMaxLen ∧ tid ≠ noreplyWord
  | deleteAndRelease tid => tid ≠ [] ∧ tid.length ≤ tidMaxLen ∧ tid ≠ noreplyWord
  | iqappendorprepend true key _ tid =>
    key ≠ [] ∧ key.length ≤ keyMaxLen ∧ tid ≠ [] ∧ tid.length < 256 ∧ tid ≠ noreplyWord
  | iqappendorprepend false key _ tid => key ≠ [] ∧ key.length ≤ keyMaxLen ∧ tid = noreplyWord
  | ewcommit tid _ _ => tid ≠ [] ∧ tid.length ≤ tidMaxLen
  | incrdecr .. | iset .. | swapAndRelease .. | iqincrordecr .. | commit _ | release _ => False

section Numbers

variable {i : Int} {rest : Bytes}

theorem mcStrtoll_intText (hlo : -2 ^ 63 ≤ i) (hhi : i < 2 ^ 63)
    (hrest : rest.head?.all (· = 0x20) = true) :
    mcStrtoll (intText i ++ rest) = some i := by
  rw [mcStrtoll, strto_intText (by omega) hrest, bind_some]
  rcases lt_or_ge i 0 with hneg | hpos
  · rw [decide_eq_true hneg]
    dsimp only
    rw [if_pos rfl, if_neg (by omega), if_pos rfl]
    congr 1
    omega
  · rw [decide_eq_false (not_lt.mpr hpos)]
    dsimp only
    rw [if_neg Bool.false_ne_true, if_neg (by omega), if_neg Bool.false_ne_true]
    congr 1
    omega

theorem mcStrtoll_int64 (n : Int64) (hrest : rest.head?.all (· = 0x20) = true) :
    mcStrtoll (intText n.toInt ++ rest) = some n.toInt :=
  mcStrtoll_intText n.le_toInt n.toInt_lt hrest

theorem mcStrtol_int64 (n : Int64) (hrest : rest.head?.all (· = 0x20) = true) :
    mcStrtol (intText n.toInt ++ rest) = some (n.toInt.bmod (2 ^ 32)) := by
  rw [mcStrtol, mcStrtoll_int64 n hrest, map_some]

theorem mcStrtol_int32 (n : Int32) (hrest : rest.head?.all (· = 0x20) = true) :
    mcStrtol (intText n.toInt ++ rest) = some n.toInt := by
  have hlo := n.le_toInt
  have hhi := n.toInt_lt
  rw [mcStrtol, mcStrtoll_intText (by omega) (by omega) hrest, map_some,
    Int.bmod_eq_of_le (by omega) (by omega)]

theorem mcStrtol_flagText (b : Bool) (hrest : rest.head?.all (· = 0x20) = true) :
    mcStrtol (flagText b ++ rest) = some (if b then 1 else 0) := by
  cases b
  · exact mcStrtol_int32 0 hrest
  · exact mcStrtol_int32 1 hrest

theorem strto_intText_nat (hn : n < 2 ^ 31) (hrest : rest.head?.all (· = 0x20) = true) :
    strto (intText n ++ rest) = some (false, n) := by
  rw [strto_intText (by omega) hrest, decide_eq_false (by omega), Int.natAbs_natCast]

/-- A number of 31 bits is not refused for its size. -/
theorem fits_of_lt (hn : n < 2 ^ 31) (str : Bytes) :
    (decide (uint64Max < n) || (decide (2 ^ 63 ≤ n) && str.contains 0x2d)) = false := by
  have hmax : ¬ uint64Max < n := by
    rw [uint64Max]
    omega
  rw [decide_eq_false hmax, decide_eq_false (by omega)]
  rfl

theorem mcStrtoul_intText (hn : n < 2 ^ 31) (hrest : rest.head?.all (· = 0x20) = true) :
    mcStrtoul (intText n ++ rest) = some n := by
  rw [mcStrtoul, strto_intText_nat hn hrest, bind_some]
  simp only [Bool.false_eq_true, if_false, fits_of_lt hn]
  rw [Nat.mod_eq_of_lt (by omega)]

theorem mcStrtoullAt_intText (hn : n < 2 ^ 31) (hrest : rest.head?.all (· = 0x20) = true) :
    mcStrtoullAt (intText n ++ rest) = some (.ofNat n) := by
  rw [mcStrtoullAt, strto_intText_nat hn hrest, bind_some]
  simp only [Bool.false_eq_true, if_false, fits_of_lt hn]

end Numbers

namespace Table

variable {t : List Token} {i : Nat} {w : Bytes}

variable (h : Table t ws)

include h

theorem length_eq : t.length = ws.length := by
  rw [← h.texts, length_map]

theorem wordAt_eq : wordAt t i = ws[i]?.getD [] := by
  rw [← h.texts, List.getElem?_map, wordAt]
  cases t[i]? <;> rfl

/-- What is read from a position starts with its word. -/
theorem numberAt_eq {a : A} (hi : ws[i]? = some w)
    (hread : ∀ rest : Bytes, rest.head?.all (· = 0x20) = true → read (w ++ rest) = some a) :
    numberAt read t i = some a := by
  rw [← h.texts, List.getElem?_map, map_eq_some_iff] at hi
  obtain ⟨token, htoken, rfl⟩ := hi
  have hsplit := hread _ (h.ends token (mem_of_getElem? htoken))
  rw [Token.text, take_append_drop] at hsplit
  rw [numberAt, htoken, bind_some, hsplit]

theorem int32 {n : Int32} (hi : ws[i]? = some (intText n.toInt)) :
    numberAt mcStrtol t i = some n.toInt :=
  h.numberAt_eq hi fun _ => mcStrtol_int32 n

theorem int64 {n : Int64} (hi : ws[i]? = some (intText n.toInt)) :
    numberAt mcStrtoll t i = some n.toInt :=
  h.numberAt_eq hi fun _ => mcStrtoll_int64 n

theorem expiry {n : Int64} (hi : ws[i]? = some (intText n.toInt)) :
    numberAt mcStrtol t i = some (n.toInt.bmod (2 ^ 32)) :=
  h.numberAt_eq hi fun _ => mcStrtol_int64 n

theorem nat (hi : ws[i]? = some (intText n)) (hn : n < 2 ^ 31) : numberAt mcStrtoul t i = some n :=
  h.numberAt_eq hi fun _ => mcStrtoul_intText hn

theorem nat64 (hi : ws[i]? = some (intText n)) (hn : n < 2 ^ 31) :
    numberAt mcStrtoullAt t i = some (.ofNat n) :=
  h.numberAt_eq hi fun _ => mcStrtoullAt_intText hn

theorem flag {b : Bool} (hi : ws[i]? = some (flagText b)) :
    numberAt mcStrtol t i = some (if b then 1 else 0) :=
  h.numberAt_eq hi fun _ => mcStrtol_flagText b

theorem ascNoreply_eq : ascNoreply t = decide (ws.getLast? = some noreplyWord) := by
  rw [← h.texts, List.getLast?_map, ascNoreply]
  cases t.getLast? with
  | none => rfl
  | some w => simp [noreplyWord]

end Table

theorem Command.mem_all (cmd : Command) : cmd ∈ Command.all := by
  cases cmd with
  | storage type => cases type <;> decide
  | _ => decide

theorem Command.name_injective {cmd' : Command} (h : ofChars cmd.name = ofChars cmd'.name) :
    cmd = cmd' := by
  have hall : ∀ cmd ∈ Command.all, ∀ cmd' ∈ Command.all, ofChars cmd.name = ofChars cmd'.name →
    cmd = cmd' := by
    decide +kernel
  exact hall cmd cmd.mem_all cmd' cmd'.mem_all h

/-- A name is the name of one command. -/
theorem find?_name (cmd : Command) (blank : Bool) (h : cmd.blankTested = true → blank = true) :
    Command.all.find? (fun cmd' => ofChars cmd.name = ofChars cmd'.name &&
        (!cmd'.blankTested || blank)) = some cmd := by
  have hcmd : (!cmd.blankTested || blank) = true := by
    cases hblank : cmd.blankTested with
    | false => rfl
    | true => exact h hblank
  have htest : (decide (ofChars cmd.name = ofChars cmd.name) &&
    (!cmd.blankTested || blank)) = true := by
    rw [decide_eq_true rfl, hcmd]
    rfl
  cases hfind : Command.all.find?
      (fun cmd' => ofChars cmd.name = ofChars cmd'.name && (!cmd'.blankTested || blank)) with
  | none => exact absurd htest (List.find?_eq_none.mp hfind cmd cmd.mem_all)
  | some cmd' =>
    have htest' := List.find?_some hfind
    rw [Bool.and_eq_true, decide_eq_true_eq] at htest'
    rw [Command.name_injective htest'.1]

theorem Table.ascReqType_eq {t : List Token} (h : Table t (ofChars cmd.name :: ws))
    (hws : cmd.blankTested = true → ws ≠ []) : ascReqType t = some cmd := by
  obtain ⟨w, t', rfl, hw, -⟩ := map_eq_cons_iff.mp h.texts
  have hblank : cmd.blankTested = true → decide ((w.val.drop w.len).head? = some 0x20) = true :=
    fun hcmd =>
    decide_eq_true (h.next (Nat.succ_lt_succ (length_pos_of_ne_nil (hws hcmd))) w rfl)
  rw [ascReqType, List.head?_cons, bind_eq_bind, bind_some, hw]
  exact find?_name cmd _ hblank

/-! ## The line of a call -/

section Clean

variable {w : Bytes}

theorem clean_intText (i : Int) : Clean (intText i) := by
  have hdecimal : ∀ n, Clean (decimal n) := by
    intro n b hb
    have hdigit := isDigit_of_mem_decimal n b hb
    refine ⟨?_, ?_, ?_⟩ <;> rintro rfl <;> cases hdigit
  rw [intText]
  split
  · exact forall_mem_cons.mpr ⟨by decide, hdecimal _⟩
  · exact hdecimal _

theorem clean_name (cmd : Command) : Clean (ofChars cmd.name) := by
  rw [Clean]
  cases cmd with
  | storage type => cases type <;> decide +kernel
  | _ => decide +kernel

theorem intText_ne_nil (i : Int) : intText i ≠ [] := by
  rw [intText]
  split
  · exact cons_ne_nil _ _
  · exact decimal_ne_nil _

/-- A number is not taken for `noreply`. -/
theorem intText_ne_noreplyWord (i : Int) : intText i ≠ noreplyWord := by
  have hdecimal : ∀ n, decimal n ≠ noreplyWord := by
    intro n hn
    have hdigit := isDigit_of_mem_decimal n 0x6e (hn ▸ by decide)
    cases hdigit
  rw [intText]
  split
  · intro h
    cases (cons.inj h).1
  · exact hdecimal _

theorem clean_unwords (h : ∀ w ∈ ws, Clean w) : ∀ b ∈ unwords ws, b ≠ 0x0a ∧ b ≠ 0 := by
  intro b hb
  cases ws with
  | nil => cases hb
  | cons w ws =>
    rw [unwords, mem_append, mem_flatMap] at hb
    rcases hb with hb | ⟨v, hv, hb⟩
    · exact (h w mem_cons_self b hb).2
    · rcases mem_cons.mp hb with rfl | hb
      · decide
      · exact (h v (mem_cons_of_mem _ hv) b hb).2

/-- The server finds the words that the client has put on the line. -/
theorem ascCommand_header (hw : w ≠ []) (h : ∀ v ∈ w :: ws, Clean v) :
    ascCommand ((unwords (w :: ws) ++ [0x0d, 0x0a]).takeWhile (· ≠ 0x0a)) = unwords (w :: ws) := by
  have hclean := clean_unwords h
  have hpos : 0 < (unwords (w :: ws)).length := by
    rw [unwords, length_append]
    exact Nat.add_pos_left (length_pos_of_ne_nil hw) _
  have hcut : (unwords (w :: ws) ++ [0x0d, 0x0a]).takeWhile (· ≠ 0x0a) = unwords
    (w :: ws) ++ [0x0d] := by
    rw [takeWhile_append_of_pos fun b hb => decide_eq_true (hclean b hb).1]
    rfl
  have hend : decide (1 < (unwords (w :: ws) ++ [0x0d]).length) = true := by
    rw [length_append]
    exact decide_eq_true (Nat.succ_lt_succ hpos)
  rw [hcut, ascCommand, hend, List.getLast?_concat, dropLast_concat]
  exact takeWhile_eq_self_iff.mpr fun b hb => decide_eq_true (hclean b hb).2

end Clean

namespace Call

variable {cfg : Int32}

/-- The call with its names. -/
def bytes (call : Call Name) : Call Bytes := call.map Name.bytes Name.bytes

/-- The names in a call. -/
def names {N : Type} : Call N → List N
  | get key | set _ _ key _ _ | cas _ key _ _ _ | iqset _ key _ _ _ | incrdecr _ key _ | iqget key
      _ _ | iset key _
  | swap _ key _ _ | swapAndRelease key _ _ _ | releaseX key _ | delete key _ => [key]
  | quarantineAndRegister tid key | iqappendorprepend _ key _ tid | iqincrordecr _ key _ tid =>
    [key, tid]
  | quarantineAndRead tid key _ _ => key :: tid.toList
  | deleteAndRelease tid | commit tid | ewcommit tid _ _ | release tid => [tid]

theorem eq_of_mem_args (call : Call Name) :
    ∀ w ∈ call.bytes.args cfg, (∃ i, w = intText i) ∨ ∃ name ∈ call.names, w = name.bytes := by
  cases call with
  | quarantineAndRead tid key readValue leaseToken =>
    cases tid <;> simp [bytes, map, args, flagText, names]
  | _ => simp [bytes, map, args, flagText, names]

theorem mem_args_of_mem_names (call : Call Name) :
    ∀ name ∈ call.names, name.bytes ∈ call.bytes.args cfg := by
  cases call with
  | quarantineAndRead tid key readValue leaseToken => cases tid <;> simp [bytes, map, args, names]
  | _ => simp [bytes, map, args, names]

theorem clean_args (call : Call Name) : ∀ w ∈ call.bytes.args cfg, Clean w := by
  intro w hw
  rcases call.eq_of_mem_args w hw with ⟨i, rfl⟩ | ⟨name, -, rfl⟩
  · exact clean_intText i
  · exact name.clean

/-- All words of a call are seen if its names are not empty. -/
theorem filter_args (call : Call Name) (cfg : Int32) (h : ∀ name ∈ call.names, name.bytes ≠ []) :
    (call.bytes.args cfg).filter (· ≠ []) = call.bytes.args cfg := by
  refine filter_eq_self.mpr fun w hw => decide_eq_true ?_
  rcases call.eq_of_mem_args w hw with ⟨i, rfl⟩ | ⟨name, hname, rfl⟩
  · exact intText_ne_nil i
  · exact h name hname

theorem length_args_le (call : Call Bytes) : (call.args cfg).length ≤ 7 := by
  cases call with
  | quarantineAndRead tid key readValue leaseToken => cases tid <;> simp [args]
  | _ => simp [args]

/-- A command whose name is compared with the blank behind it has a number among its arguments. -/
theorem args_ne_nil {call : Call Bytes} (h : call.command.blankTested = true) :
    (call.args cfg).filter (· ≠ []) ≠ [] := by
  have hmem : ∀ i, intText i ∈ call.args cfg → (call.args cfg).filter (· ≠ []) ≠ [] := fun i hi =>
    ne_nil_of_mem (mem_filter.mpr ⟨hi, decide_eq_true (intText_ne_nil i)⟩)
  cases call with
  | incrdecr incr key inc => exact hmem inc.toInt (by simp [args])
  | swapAndRelease key expiry value leaseToken => exact hmem expiry.toInt (by simp [args])
  | iqincrordecr incr key value tid => exact hmem value.toInt (by simp [args])
  | commit tid => cases h
  | release tid => cases h
  | _ => exact hmem cfg.toInt (by simp [args])

theorem name_ne_nil (cmd : Command) : ofChars cmd.name ≠ [] := by
  cases cmd with
  | storage type => cases type <;> exact cons_ne_nil _ _
  | _ => exact cons_ne_nil _ _

theorem filter_words (call : Call Bytes) :
    (ofChars call.command.name :: call.args cfg).filter (· ≠ []) = ofChars call.command.name ::
      (call.args cfg).filter (· ≠ []) :=
  filter_cons_of_pos (decide_eq_true (name_ne_nil _))

theorem clean_words (call : Call Name) :
    ∀ w ∈ ofChars call.bytes.command.name :: call.bytes.args cfg, Clean w :=
  forall_mem_cons.mpr ⟨clean_name _, call.clean_args⟩

/-- The words of the line of a call. -/
theorem words_line (call : Call Name) : words (call.bytes.line cfg) =
    ofChars call.bytes.command.name :: (call.bytes.args cfg).filter (· ≠ []) := by
  rw [line, header, ascCommand_header (name_ne_nil _) call.clean_words, ← filter_words]
  exact words_unwords fun w hw b hb => (call.clean_words w hw b hb).1

/-- The table of the line of a call. -/
theorem table (call : Call Name) : Table (ascTokenize (call.bytes.line cfg))
    (ofChars call.bytes.command.name :: (call.bytes.args cfg).filter (· ≠ [])) := by
  rw [line, header, ascCommand_header (name_ne_nil _) call.clean_words, ← filter_words]
  refine table_unwords (fun w hw b hb => (call.clean_words w hw b hb).1) ?_
  calc ((ofChars call.bytes.command.name :: call.bytes.args cfg).filter (· ≠ [])).length
      ≤ (ofChars call.bytes.command.name :: call.bytes.args cfg).length := length_filter_le _ _
    _ ≤ 8 := Nat.succ_le_succ (length_args_le _)
    _ ≤ tokenMax - 1 := by decide

end Call

/-! ## Agreement -/

/-- The handler of a line that is seen as a command with some arguments. -/
theorem Table.ascHandler_eq (h : Table (ascTokenize command) (ofChars cmd.name :: ws))
    (hws : cmd.blankTested = true → ws ≠ [])
    (hnoreply : noreply = (cmd.setsNoreply && decide (ws.getLast? = some noreplyWord))) :
    ascHandler false command = if cmd.accepts noreply (ws.length + 2) then some (cmd,
        noreply) else none := by
  have hname : ofChars cmd.name ≠ noreplyWord := by
    cases cmd with
    | storage type => cases type <;> decide +kernel
    | _ => decide +kernel
  have hlast : (ofChars cmd.name :: ws).getLast? = some noreplyWord ↔
    ws.getLast? = some noreplyWord := by
    cases ws with
    | nil => exact iff_of_false (fun h => hname (some.inj h)) nofun
    | cons w ws => rw [List.getLast?_cons_cons]
  rw [ascHandler, h.ascReqType_eq hws, h.ascNoreply_eq, h.length_eq,
    decide_eq_decide.mpr hlast, hnoreply]
  rfl

/-- A handler reads this request from a line if a condition holds, and refuses the line
otherwise. -/
def ReadsOff (cfg : Int) (fields : Int → LineM Request) (P : Prop) (req : Request) : Prop :=
  ∀ server : Int, (cfg = -1 ∨ cfg = server) ∧ server ≠ -1 →
    ∀ r, (fields server).result = .ok r ↔ P ∧ req = r

section Agrees

variable {cfg : Int32} {call : Call Name} {fields : Int → LineM Request} {P : Prop} {req : Request}

theorem Call.table_of (hws : (call.bytes.args cfg).filter (· ≠ []) = ws) :
    Table (ascTokenize (call.bytes.line cfg)) (ofChars call.bytes.command.name :: ws) :=
  hws ▸ call.table

theorem ascHandler_line (hws : (call.bytes.args cfg).filter (· ≠ []) = ws)
    (hnoreply : noreply = (call.bytes.command.setsNoreply &&
      decide (ws.getLast? = some noreplyWord))) :
    ascHandler false (call.bytes.line cfg) =
      if call.bytes.command.accepts noreply (ws.length + 2) then some (call.bytes.command,
        noreply) else none :=
  (Call.table_of hws).ascHandler_eq (fun h => hws ▸ Call.args_ne_nil h) hnoreply

theorem noreply_of_last {w : Option Bytes} (hlast : ws.getLast? = w) (hw : w = some noreplyWord) :
    cmd.setsNoreply = (cmd.setsNoreply && decide (ws.getLast? = some noreplyWord)) := by
  rw [decide_eq_true (hlast.trans hw), Bool.and_true]

theorem noreply_of_ne {w : Bytes} (hlast : ws.getLast? = some w) (hw : w ≠ noreplyWord) :
    false = (cmd.setsNoreply && decide (ws.getLast? = some noreplyWord)) := by
  have hne : some w ≠ some noreplyWord := fun h => hw (Option.some.inj h)
  rw [hlast, decide_eq_false hne, Bool.and_false]

/-- A number is no `noreply`. -/
theorem noreply_of_number {n : Int} (hlast : ws.getLast? = some (intText n)) :
    false = (cmd.setsNoreply && decide (ws.getLast? = some noreplyWord)) :=
  noreply_of_ne hlast (intText_ne_noreplyWord n)

/-- A line whose words the server does not accept in this number. -/
theorem not_agrees_of_count (hws : (call.bytes.args cfg).filter (· ≠ []) = ws)
    (hnoreply : noreply = (call.bytes.command.setsNoreply &&
      decide (ws.getLast? = some noreplyWord)))
    (hcount : call.bytes.command.accepts noreply (ws.length + 2) = false) :
    ¬ Agrees cfg call.bytes := by
  rintro ⟨_, h, -⟩
  rw [ascHandler_line hws hnoreply, hcount] at h
  cases h

/-- A line that is too short, with and without `noreply`. -/
theorem not_agrees_of_length (hlen : (call.bytes.args cfg).length ≤ n)
    (hcount : ∀ noreply, ∀ m ≤ n, call.bytes.command.accepts noreply (m + 2) = false) :
    ¬ Agrees cfg call.bytes :=
  not_agrees_of_count rfl rfl (hcount _ _ ((length_filter_le _ _).trans hlen))

/-- A line that is too short if one of its names is empty. -/
theorem agrees_iff_of_names (cmd : Command) (hcmd : call.bytes.command = cmd)
    (hlen : (call.bytes.args cfg).length ≤ n)
    (hcount : ∀ noreply, ∀ m < n, cmd.accepts noreply (m + 2) = false)
    (hP : P → ∀ name ∈ call.names, name.bytes ≠ []) (hiff : (∀ name ∈ call.names, name.bytes ≠ []) →
      (call.bytes.args cfg).filter (· ≠ []) = call.bytes.args cfg → (Agrees cfg call.bytes ↔ P)) :
    Agrees cfg call.bytes ↔ P := by
  by_cases hnames : ∀ name ∈ call.names, name.bytes ≠ []
  · exact hiff hnames (Call.filter_args _ cfg hnames)
  refine iff_of_false ?_ (mt hP hnames)
  simp only [not_forall, not_not] at hnames
  obtain ⟨name, hname, hnil⟩ := hnames
  have hlt : ((call.bytes.args cfg).filter (· ≠ [])).length < (call.bytes.args cfg).length :=
    length_filter_lt_length_iff_exists.mpr ⟨_,
      call.mem_args_of_mem_names name hname, by simp [hnil]⟩
  exact not_agrees_of_count rfl rfl (hcmd ▸ hcount _ _ (hlt.trans_le hlen))

theorem result_ascFields_iff {admin : Admin} {server : Int}
    (hfields : ascRequestFields server noreply (call.bytes.line cfg)
      (ascTokenize (call.bytes.line cfg)) call.bytes.command = some (fields server)) :
    (ascFields admin server noreply (call.bytes.line cfg) call.bytes.command).result = .ok
      (.request req) ↔
      (fields server).result = .ok req := by
  simp only [ascFields, hfields, result_bind_eq_ok_iff, result_pure, Except.ok.injEq,
    Action.request.injEq, exists_eq_right]

/-- A line in which the server sees another request. -/
theorem not_agrees_of_reads (fields : Int → LineM Request)
    (hfields : ∀ server noreply, ascRequestFields server noreply (call.bytes.line cfg)
      (ascTokenize (call.bytes.line cfg)) call.bytes.command = some (fields server))
    (hreads : ∀ server r, (fields server).result = .ok r → r.wire ≠ call.bytes.wire cfg) :
    ¬ Agrees cfg call.bytes := by
  rintro ⟨noreply, -, h⟩
  obtain ⟨server, hserver⟩ := exists_server cfg.toInt
  obtain ⟨r, hr, hwire⟩ := h {} server hserver
  exact hreads server r ((result_ascFields_iff (hfields server noreply)).mp hr) hwire

/-- A line whose words the server accepts in this number. -/
theorem agrees_iff_of_reads (hws : (call.bytes.args cfg).filter (· ≠ []) = ws)
    (hnoreply : noreply = (call.bytes.command.setsNoreply &&
      decide (ws.getLast? = some noreplyWord)))
    (hcount : call.bytes.command.accepts noreply (ws.length + 2) = true)
    (hfields : ∀ server noreply, ascRequestFields server noreply (call.bytes.line cfg)
      (ascTokenize (call.bytes.line cfg)) call.bytes.command = some (fields server))
    (hreads : ReadsOff cfg.toInt fields P req) : Agrees cfg call.bytes ↔
      P ∧ req.wire = call.bytes.wire cfg := by
  constructor
  · rintro ⟨noreply, -, h⟩
    obtain ⟨server, hserver⟩ := exists_server cfg.toInt
    obtain ⟨r, hr, hwire⟩ := h {} server hserver
    obtain ⟨hP, rfl⟩ := (hreads server hserver r).mp
      ((result_ascFields_iff (hfields server noreply)).mp hr)
    exact ⟨hP, hwire⟩
  · rintro ⟨hP, hwire⟩
    refine ⟨noreply, by rw [ascHandler_line hws hnoreply, hcount, if_pos rfl],
      fun admin server hserver => ⟨req, ?_, hwire⟩⟩
    exact (result_ascFields_iff (hfields server _)).mpr ((hreads server hserver req).mpr ⟨hP, rfl⟩)

end Agrees

/-! ## Handlers -/

section Handlers

variable {t : List Token} {cfg frag : Int32} {key tid name : Bytes} {value : Payload}
  {expiry number : Int64} {b : Bool}

theorem Table.numberAt_none {i : Nat} (h : Table t ws) (hi : ws.length ≤ i) :
    numberAt read t i = none := by
  rw [numberAt, List.getElem?_eq_none (h.length_eq.le.trans hi), bind_none]

theorem result_pure_zero (x : UInt64) : (pure 0 : LineM UInt64).result = .ok x ↔ 0 = x := by
  rw [result_pure, Except.ok.injEq]

theorem readsOff_update {token id : LineM UInt64} {cmd : UInt64 → UInt64 → Update} {a a' : UInt64}
    (h : Table t (name :: intText cfg.toInt :: intText frag.toInt :: key :: intText value.flags ::
      intText expiry.toInt :: intText value.length :: ws))
    (htoken : ∀ x, token.result = .ok x ↔ a = x) (hid : ∀ x, id.result = .ok x ↔ a' = x) :
    ReadsOff cfg.toInt (ascUpdateFields token id cmd · t) (key.length ≤ keyMaxLen)
      (.update (cmd a a') cfg.toInt frag.toInt key value.flags (expiry.toInt.bmod (2 ^ 32))
        value.length) := by
  intro server hserver r
  simp [ascUpdateFields, result_bind_eq_ok_iff, h.int32 (i := 1) rfl, h.int32 (i := 2) rfl,
    h.wordAt_eq, h.length_eq, h.nat (i := 4) rfl value.flags_lt, h.expiry (i := 5) rfl,
    h.nat (i := 6) rfl value.length_lt, htoken, hid, hserver]

theorem readsOff_swap (h : Table t
      [name, intText cfg.toInt, intText frag.toInt, key, intText value.flags, intText 0,
      intText value.length, intText number.toInt]) :
    ReadsOff cfg.toInt (ascSwapFields · t) (key.length ≤ keyMaxLen)
      (.swap cfg.toInt frag.toInt key value.flags 0 value.length (.ofInt number.toInt)) := by
  have hexptime : numberAt mcStrtol t 5 = some 0 := h.int32 (n := 0) rfl
  intro server hserver r
  simp [ascSwapFields, result_bind_eq_ok_iff, h.int32 (i := 1) rfl, h.int32 (i := 2) rfl,
    h.wordAt_eq, h.length_eq, h.nat (i := 4) rfl value.flags_lt, hexptime,
    h.nat (i := 6) rfl value.length_lt, h.int64 (i := 7) rfl, hserver]

theorem readsOff_unlease (h : Table t [name, intText cfg.toInt, key, intText number.toInt]) :
    ReadsOff cfg.toInt (ascUnleaseFields · t) (key.length ≤ keyMaxLen)
      (.unlease cfg.toInt key (.ofInt number.toInt)) := by
  intro server hserver r
  simp [ascUnleaseFields, result_bind_eq_ok_iff, h.int32 (i := 1) rfl, h.wordAt_eq, h.length_eq,
    h.int64 (i := 3) rfl, hserver]

theorem readsOff_qareg (h : Table t [name, intText cfg.toInt, key, tid]) :
    ReadsOff cfg.toInt (ascQaregFields · t) (key.length ≤ keyMaxLen ∧ tid.length ≤ tidMaxLen)
      (.qareg cfg.toInt key tid) := by
  intro server hserver r
  simp [ascQaregFields, result_bind_eq_ok_iff, h.int32 (i := 1) rfl, h.wordAt_eq, h.length_eq,
    hserver, and_assoc]

theorem readsOff_dar (h : Table t [name, intText cfg.toInt, tid]) :
    ReadsOff cfg.toInt (ascDarFields · t) (tid.length ≤ tidMaxLen) (.dar cfg.toInt tid) := by
  intro server hserver r
  simp [ascDarFields, result_bind_eq_ok_iff, h.int32 (i := 1) rfl, h.wordAt_eq,
    h.length_eq, hserver]

theorem readsOff_qaread {rest : List Bytes}
    (h : Table t ([name, intText cfg.toInt, key, flagText b, intText number.toInt] ++ rest)) :
    ReadsOff cfg.toInt (ascQareadFields · t) (key.length ≤ keyMaxLen)
      (.qaread cfg.toInt key (if b then 1 else 0) (.ofInt number.toInt) (rest.head?.getD [])) := by
  intro server hserver r
  have hlen : 5 ≤ t.length := by
    rw [h.length_eq, length_append]
    exact Nat.le_add_right _ _
  have htwo : 2 ≤ t.length := le_trans (by decide) hlen
  have hfour : decide (4 < t.length + 1) = true := decide_eq_true (Nat.lt_succ_of_lt hlen)
  have hfive : decide (5 < t.length + 1) = true := decide_eq_true (Nat.lt_succ_of_le hlen)
  have htid : wordAt t 5 = rest.head?.getD [] := by
    rw [h.wordAt_eq, List.head?_eq_getElem?]
    rfl
  have hflag : numberAt mcStrtol t 3 = some (if b then 1 else 0) := h.flag rfl
  have htoken : numberAt mcStrtoll t 4 = some number.toInt := h.int64 rfl
  have hkey : wordAt t 2 = key := h.wordAt_eq
  show (ascQareadFields server t).result = .ok r ↔ _
  rw [ascQareadFields, hfour, hfive, optional_true, optional_true]
  simp [result_bind_eq_ok_iff, h.int32 (i := 1) rfl, hkey, htwo, hflag, htoken, hlen, htid, hserver]

theorem readsOff_iqConcat {append : Bool}
    (h : Table t [name, intText cfg.toInt, key, intText value.length, tid]) :
    ReadsOff cfg.toInt (ascIqConcatFields append · t) (key.length ≤ keyMaxLen)
      (.iqConcat append cfg.toInt key value.length tid) := by
  intro server hserver r
  simp [ascIqConcatFields, result_bind_eq_ok_iff, h.int32 (i := 1) rfl, h.wordAt_eq, h.length_eq,
    h.nat (i := 3) rfl value.length_lt, hserver]

theorem readsOff_commit (h : Table t
      [name, intText cfg.toInt, intText frag.toInt, tid, flagText b]) :
    ReadsOff cfg.toInt (ascCommitFields · t) (tid.length ≤ tidMaxLen)
      (.commit cfg.toInt frag.toInt tid (if b then 1 else 0)) := by
  intro server hserver r
  simp [ascCommitFields, result_bind_eq_ok_iff, h.int32 (i := 1) rfl, h.int32 (i := 2) rfl,
    h.wordAt_eq, h.length_eq, h.flag (i := 4) rfl, hserver]

theorem readsOff_iqget (h : Table t
      [name, intText cfg.toInt, key, intText number.toInt, flagText b]) :
    ReadsOff cfg.toInt (ascIqgetFields · t) (key.length ≤ keyMaxLen)
      (.iqget cfg.toInt key (.ofInt number.toInt)) := by
  intro server hserver r
  simp [ascIqgetFields, result_bind_eq_ok_iff, h.int32 (i := 1) rfl, h.wordAt_eq, h.length_eq,
    h.int64 (i := 3) rfl, h.flag (i := 4) rfl, hserver]

theorem readsOff_get (h : Table (ascTokenize command) [name, intText cfg.toInt, key])
    (hwords : words command = [name, intText cfg.toInt, key]) :
    ReadsOff cfg.toInt (ascReadFields false · command (ascTokenize command)) True
      (.get false cfg.toInt [key]) := by
  intro server hserver r
  have hkeys : ascKeys (command.length + 1) command 2 = [key] := by
    rw [ascKeys_eq (by decide) (Nat.lt_succ_self _), hwords]
    rfl
  simp [ascReadFields, result_bind_eq_ok_iff, h.int32 (i := 1) rfl, hkeys, hserver]

theorem readsOff_delete (h : Table (ascTokenize command)
      (name :: intText cfg.toInt :: flagText b :: ws))
    (hwords : words command = name :: intText cfg.toInt :: flagText b :: ws) :
    ReadsOff cfg.toInt (ascDeleteFields · command (ascTokenize command)) True
      (.delete cfg.toInt (if b then 1 else 0) ws) := by
  intro server hserver r
  have hkeys : ascKeys (command.length + 1) command 3 = ws := by
    rw [ascKeys_eq (by decide) (Nat.lt_succ_self _), hwords]
    rfl
  simp [ascDeleteFields, result_bind_eq_ok_iff, h.int32 (i := 1) rfl, h.flag (i := 2) rfl,
    hkeys, hserver]

end Handlers

/-! ## Calls -/

section Calls

variable {cfg frag : Int32} {key tid : Name} {value : Payload} {expiry number : Int64} {b : Bool}

/-- Client and server agree on the line of a call if the server understands it, and only then. -/
abbrev Call.Clear (cfg : Int32) (call : Call Name) : Prop := Agrees cfg call.bytes ↔
      call.bytes.Understood

/-- The one name of a call. -/
theorem forall_mem_names_one {call : Call Name} (h : call.names = [key]) :
    (∀ name ∈ call.names, name.bytes ≠ []) ↔ key.bytes ≠ [] := by
  rw [h, forall_mem_singleton]

/-- The two names of a call. -/
theorem forall_mem_names_two {call : Call Name} (h : call.names = [key, tid]) :
    (∀ name ∈ call.names, name.bytes ≠ []) ↔ key.bytes ≠ [] ∧ tid.bytes ≠ [] := by
  rw [h, forall_mem_cons, forall_mem_singleton]

theorem agrees_get : (Call.get key).Clear cfg := by
  refine agrees_iff_of_names .get (n := 2) rfl le_rfl (by decide) (forall_mem_names_one rfl).mpr
    fun hnames hws => ?_
  have hreads := readsOff_get (Call.table_of hws) ((Call.words_line _).trans (congrArg _ hws))
  rw [agrees_iff_of_reads hws rfl rfl (fun _ _ => rfl) hreads]
  exact iff_of_true ⟨trivial, rfl⟩ ((forall_mem_names_one rfl).mp hnames)

theorem agrees_delete : (Call.delete key b).Clear cfg := by
  by_cases hkey : key.bytes = []
  · -- the line is accepted, as a deletion of nothing
    have hws : ((Call.delete key b).bytes.args cfg).filter (· ≠ []) =
      [intText cfg.toInt, flagText b] := by
      simp [Call.bytes, Call.map, Call.args, flagText, intText_ne_nil, hkey]
    have hreads := readsOff_delete (Call.table_of hws) ((Call.words_line _).trans (congrArg _ hws))
    rw [Call.Clear, agrees_iff_of_reads hws (noreply_of_number rfl) rfl (fun _ _ => rfl) hreads]
    exact iff_of_false (fun h => nomatch congrArg Wire.keys h.2) fun h => h hkey
  · have hws := Call.filter_args (.delete key b) cfg ((forall_mem_names_one rfl).mpr hkey)
    have hreads := readsOff_delete (Call.table_of hws) ((Call.words_line _).trans (congrArg _ hws))
    have hcount : ∀ noreply, Command.delete.accepts noreply 5 = true := by decide
    rw [Call.Clear, agrees_iff_of_reads hws rfl (hcount _) (fun _ _ => rfl) hreads]
    exact iff_of_true ⟨trivial, rfl⟩ hkey

theorem agrees_swap : (Call.swap frag key value number).Clear cfg := by
  refine agrees_iff_of_names (.storage .swap) (n := 7) rfl le_rfl (by decide) (fun h =>
    (forall_mem_names_one rfl).mpr h.1)
    fun hnames hws => ?_
  rw [agrees_iff_of_reads hws (noreply_of_number rfl) rfl (fun _ _ => rfl)
    (readsOff_swap (Call.table_of hws))]
  exact (and_iff_left rfl).trans (and_iff_right ((forall_mem_names_one rfl).mp hnames)).symm

theorem agrees_releaseX : (Call.releaseX key number).Clear cfg := by
  refine agrees_iff_of_names .unlease (n := 3) rfl le_rfl (by decide) (fun h =>
    (forall_mem_names_one rfl).mpr h.1)
    fun hnames hws => ?_
  rw [agrees_iff_of_reads hws (noreply_of_number rfl) rfl (fun _ _ => rfl)
    (readsOff_unlease (Call.table_of hws))]
  exact (and_iff_left rfl).trans (and_iff_right ((forall_mem_names_one rfl).mp hnames)).symm

theorem agrees_iqget : (Call.iqget key number b).Clear cfg := by
  by_cases hkey : key.bytes = []
  · -- the line is accepted, and read past its end
    have hws : ((Call.iqget key number b).bytes.args cfg).filter (· ≠ []) =
        [intText cfg.toInt, intText number.toInt, flagText b] := by
      simp [Call.bytes, Call.map, Call.args, flagText, intText_ne_nil, hkey]
    have hnone : numberAt mcStrtol
      (ascTokenize ((Call.iqget key number b).bytes.line cfg)) 4 = none :=
      (Call.table_of hws).numberAt_none le_rfl
    refine iff_of_false (not_agrees_of_reads (ascIqgetFields · _) (fun _ _ => rfl)
      fun server r hr => ?_) fun h => h.1 hkey
    simp [ascIqgetFields, result_bind_eq_ok_iff, hnone] at hr
  · have hws := Call.filter_args (.iqget key number b) cfg ((forall_mem_names_one rfl).mpr hkey)
    rw [Call.Clear, agrees_iff_of_reads hws (noreply_of_number rfl) rfl (fun _ _ => rfl)
      (readsOff_iqget (Call.table_of hws))]
    exact (and_iff_left rfl).trans (and_iff_right hkey).symm

theorem agrees_set {cmdname : SetCommand} : (Call.set cmdname frag key expiry value).Clear cfg := by
  by_cases hkey : key.bytes = []
  · have hws : ((Call.set cmdname frag key expiry value).bytes.args cfg).filter (· ≠ []) =
        [intText cfg.toInt, intText frag.toInt, intText value.flags, intText expiry.toInt,
          intText value.length] := by
      simp [Call.bytes, Call.map, Call.args, intText_ne_nil, hkey]
    refine iff_of_false ?_ fun h => h.2.1 hkey
    have hnone : numberAt mcStrtoul
        (ascTokenize ((Call.set cmdname frag key expiry value).bytes.line cfg)) 6 = none :=
      (Call.table_of hws).numberAt_none le_rfl
    -- `replace`, `append` and `prepend` are accepted with so many words, and read past their end
    have hpast : ∀ cmd server r, (ascUpdateFields (pure 0) (pure 0) cmd server
        (ascTokenize ((Call.set cmdname frag key expiry value).bytes.line cfg))).result ≠
          .ok r := by
      intro cmd server r
      simp [ascUpdateFields, result_bind_eq_ok_iff, hnone]
    cases cmdname with
    | set => exact not_agrees_of_count hws (noreply_of_number (n := value.length) rfl) rfl
    | add => exact not_agrees_of_count hws (noreply_of_number (n := value.length) rfl) rfl
    | replace | append | prepend =>
      exact not_agrees_of_reads (ascUpdateFields (pure 0) (pure 0) _ · _) (fun _ _ => rfl)
        fun server r hr =>
        absurd hr (hpast _ server r)
  · have hws := Call.filter_args (.set cmdname frag key expiry value) cfg
      ((forall_mem_names_one rfl).mpr hkey)
    cases cmdname with
    | set | add =>
      rw [Call.Clear, agrees_iff_of_reads hws (noreply_of_number (n := value.length) rfl) rfl
        (fun _ _ => rfl) (readsOff_update (Call.table_of hws) result_pure_zero result_pure_zero)]
      refine (and_iff_left rfl).trans ?_
      simp [Call.Understood, Call.bytes, Call.map, hkey]
    | replace | append | prepend =>
      refine iff_of_false (not_agrees_of_count hws (noreply_of_number (n := value.length) rfl) rfl)
        fun h => ?_
      cases h.1 with
      | inl h => cases h
      | inr h => cases h

theorem agrees_iqset : (Call.iqset frag key expiry value number).Clear cfg := by
  refine agrees_iff_of_names (.storage .iqset) (n := 7) rfl le_rfl (by decide) (fun h =>
    (forall_mem_names_one rfl).mpr h.1)
    fun hnames hws => ?_
  have htable := Call.table_of hws
  have htoken : ∀ x, (lineToken
    (ascTokenize ((Call.iqset frag key expiry value number).bytes.line cfg)) 7).result = .ok x ↔
    UInt64.ofInt number.toInt = x := by
    intro x
    simp [htable.int64 (i := 7) rfl]
  rw [agrees_iff_of_reads hws (noreply_of_number rfl) rfl (fun _ _ => rfl)
    (readsOff_update htable htoken result_pure_zero)]
  exact (and_iff_left rfl).trans (and_iff_right ((forall_mem_names_one rfl).mp hnames)).symm

theorem ofInt_eq_ofNat_iff (hn : n < 2 ^ 31) : UInt64.ofInt number.toInt = UInt64.ofNat n ↔
      number.toInt = n := by
  have hlo := number.le_toInt
  have hhi := number.toInt_lt
  rw [← UInt64.toNat_inj, UInt64.ofInt, UInt64.toNat_ofNat', UInt64.toNat_ofNat']
  omega

theorem agrees_cas : (Call.cas frag key expiry value number).Clear cfg := by
  refine agrees_iff_of_names (.storage .cas) (n := 7) rfl le_rfl (by decide) (fun h =>
    (forall_mem_names_one rfl).mpr h.1)
    fun hnames hws => ?_
  have hkey := (forall_mem_names_one rfl).mp hnames
  have htable := Call.table_of hws
  -- the length stands where the server looks for the number
  have hid : ∀ x, (lineNumber mcStrtoullAt
      (ascTokenize ((Call.cas frag key expiry value number).bytes.line cfg)) 6).result = .ok x ↔
        UInt64.ofNat value.length = x := by
    intro x
    simp [htable.nat64 (i := 6) rfl value.length_lt]
  rw [agrees_iff_of_reads hws (noreply_of_number rfl) rfl (fun _ _ => rfl)
    (readsOff_update htable result_pure_zero hid)]
  simp [Call.Understood, Call.bytes, Call.map, Request.wire, Call.wire, Update.number, hkey,
    ← ofInt_eq_ofNat_iff value.length_lt, eq_comm]

theorem agrees_qareg : (Call.quarantineAndRegister tid key).Clear cfg := by
  refine agrees_iff_of_names .qareg (n := 3) rfl le_rfl (by decide) (fun h =>
    (forall_mem_names_two rfl).mpr ⟨h.1, h.2.2.1⟩)
    fun hnames hws => ?_
  obtain ⟨hkey, htid⟩ := (forall_mem_names_two rfl).mp hnames
  by_cases hword : tid.bytes = noreplyWord
  · refine iff_of_false (not_agrees_of_count hws (noreply_of_last rfl (congrArg some hword)) rfl) ?_
    exact fun h => h.2.2.2.2 hword
  · rw [agrees_iff_of_reads hws (noreply_of_ne rfl hword) rfl (fun _ _ => rfl)
      (readsOff_qareg (Call.table_of hws))]
    refine (and_iff_left rfl).trans ?_
    simp [Call.Understood, Call.bytes, Call.map, hkey, htid, hword]

theorem agrees_dar : (Call.deleteAndRelease tid).Clear cfg := by
  refine agrees_iff_of_names .dar (n := 2) rfl le_rfl (by decide) (fun h =>
    (forall_mem_names_one rfl).mpr h.1)
    fun hnames hws => ?_
  have htid := (forall_mem_names_one rfl).mp hnames
  by_cases hword : tid.bytes = noreplyWord
  · refine iff_of_false (not_agrees_of_count hws (noreply_of_last rfl (congrArg some hword)) rfl) ?_
    exact fun h => h.2.2 hword
  · rw [agrees_iff_of_reads hws (noreply_of_ne rfl hword) rfl (fun _ _ => rfl)
      (readsOff_dar (Call.table_of hws))]
    refine (and_iff_left rfl).trans ?_
    simp [Call.Understood, Call.bytes, Call.map, htid, hword]

/-- An identifier is read back if its length fits into a byte. -/
theorem nonempty_u8Name_iff {tid : Bytes} (h : tid ≠ []) : nonempty (u8Name tid) = nonempty tid ↔
      tid.length < 256 := by
  refine ⟨fun heq => ?_, fun hlen => by rw [u8Name_of_lt hlen]⟩
  rw [nonempty, nonempty, if_neg h] at heq
  split at heq
  · cases heq
  · exact Option.some.inj heq ▸ length_u8Name_lt tid

theorem agrees_iqappend : (Call.iqappendorprepend true key value tid).Clear cfg := by
  refine agrees_iff_of_names (.storage .iqappend) (n := 4) rfl le_rfl (by decide) (fun h =>
    (forall_mem_names_two rfl).mpr ⟨h.1, h.2.2.1⟩)
    fun hnames hws => ?_
  obtain ⟨hkey, htid⟩ := (forall_mem_names_two rfl).mp hnames
  by_cases hword : tid.bytes = noreplyWord
  · refine iff_of_false (not_agrees_of_count hws (noreply_of_last rfl (congrArg some hword)) rfl) ?_
    exact fun h => h.2.2.2.2 hword
  · rw [agrees_iff_of_reads hws (noreply_of_ne rfl hword) rfl (fun _ _ => rfl)
      (readsOff_iqConcat (Call.table_of hws))]
    simp [Call.Understood, Call.bytes, Call.map, Request.wire, Call.wire, nonempty_u8Name_iff htid,
      hkey, htid, hword]

/-- The bounds of `iqprepend` accept nothing without `noreply`, and with it what has no room for
it. -/
theorem agrees_iqprepend : (Call.iqappendorprepend false key value tid).Clear cfg := by
  refine agrees_iff_of_names (.storage .iqprepend) (n := 4) rfl le_rfl (by decide)
    (fun h => (forall_mem_names_two rfl).mpr ⟨h.1, h.2.2.trans_ne (by decide)⟩) fun hnames hws => ?_
  have hkey := ((forall_mem_names_two rfl).mp hnames).1
  by_cases hword : tid.bytes = noreplyWord
  · rw [agrees_iff_of_reads hws (noreply_of_last rfl (congrArg some hword)) rfl (fun _ _ => rfl)
      (readsOff_iqConcat (Call.table_of hws))]
    have hread : u8Name noreplyWord = noreplyWord := u8Name_of_lt (by decide)
    simp [Call.Understood, Call.bytes, Call.map, Request.wire, Call.wire, hread, hkey, hword]
  · exact iff_of_false (not_agrees_of_count hws (noreply_of_ne rfl hword) rfl) fun h => hword h.2.2

theorem agrees_ewcommit : (Call.ewcommit tid frag b).Clear cfg := by
  by_cases htid : tid.bytes = []
  · -- the line is accepted, and read past its end
    have hws : ((Call.ewcommit tid frag b).bytes.args cfg).filter (· ≠ []) =
        [intText cfg.toInt, intText frag.toInt, flagText b] := by
      simp [Call.bytes, Call.map, Call.args, flagText, intText_ne_nil, htid]
    have hnone : numberAt mcStrtol
      (ascTokenize ((Call.ewcommit tid frag b).bytes.line cfg)) 4 = none :=
      (Call.table_of hws).numberAt_none le_rfl
    refine iff_of_false (not_agrees_of_reads (ascCommitFields · _) (fun _ _ => rfl)
      fun server r hr => ?_) fun h => h.1 htid
    simp [ascCommitFields, result_bind_eq_ok_iff, hnone] at hr
  · have hws := Call.filter_args (.ewcommit tid frag b) cfg ((forall_mem_names_one rfl).mpr htid)
    rw [Call.Clear, agrees_iff_of_reads hws (noreply_of_number rfl) rfl (fun _ _ => rfl)
      (readsOff_commit (Call.table_of hws))]
    exact (and_iff_left rfl).trans (and_iff_right htid).symm

theorem agrees_qaread {tid : Option Name} :
    (Call.quarantineAndRead tid key b number).Clear cfg := by
  by_cases hkey : key.bytes = []
  · -- the flag stands where the server looks for the key
    obtain ⟨ws, hws⟩ : ∃ ws, ((Call.quarantineAndRead tid key b number).bytes.args cfg).filter
      (· ≠ []) = intText cfg.toInt :: flagText b :: ws := by
      simp [Call.bytes, Call.map, Call.args, flagText, intText_ne_nil, hkey]
    have hword : wordAt (ascTokenize ((Call.quarantineAndRead tid key b number).bytes.line cfg)) 2 =
      flagText b :=
      (Call.table_of hws).wordAt_eq
    refine iff_of_false (not_agrees_of_reads (ascQareadFields · _) (fun _ _ => rfl)
      fun server r hr hwire => ?_) fun h => h.1 hkey
    have hkeys : r.wire.keys = [flagText b] := by
      simp only [ascQareadFields, result_bind_eq_ok_iff, result_lineName, result_pure, hword] at hr
      obtain ⟨_, -, _, -, _, ⟨-, -, rfl⟩, _, -, _, -, _, -, ⟨⟩⟩ := hr
      rfl
    rw [hwire] at hkeys
    exact intText_ne_nil _ ((cons.inj hkeys).1.symm.trans hkey)
  · have hws : ((Call.quarantineAndRead tid key b number).bytes.args cfg).filter (· ≠ []) =
        [intText cfg.toInt, key.bytes, flagText b, intText number.toInt] ++
          (tid.map Name.bytes).toList.filter (· ≠ []) := by
      simp [Call.bytes, Call.map, Call.args, flagText, intText_ne_nil, hkey]
    have hcount : ∀ noreply, ∀ n ≤ 1, Command.accepts .qaread noreply
      (n + 4 + 2) = true := by decide
    have hrest : ((tid.map Name.bytes).toList.filter (· ≠ [])).length ≤ 1 :=
      (length_filter_le _ _).trans (length_toList_le)
    have htid : nonempty (((tid.map Name.bytes).toList.filter (· ≠ [])).head?.getD []) =
        (tid.map Name.bytes).bind nonempty := by
      cases tid with
      | none => rfl
      | some tid =>
        by_cases h : tid.bytes = []
        · simp [nonempty, h]
        · simp [nonempty, h]
    rw [Call.Clear, agrees_iff_of_reads hws rfl (hcount _ _ hrest) (fun _ _ => rfl)
      (readsOff_qaread (Call.table_of hws))]
    refine (and_iff_left ?_).trans (and_iff_right hkey).symm
    rw [Request.wire, htid]
    rfl

/-- The server takes the last word of `iset` for a transaction. -/
theorem not_agrees_iset : ¬ Agrees cfg (Call.iset key number).bytes := by
  apply not_agrees_of_reads (ascIsetFields · _) (fun _ _ => rfl)
  intro server r hr hwire
  simp only [ascIsetFields, result_bind_eq_ok_iff, result_lineName, result_optional_eq_ok,
    result_lineWord, result_pure, decide_eq_true_eq, decide_eq_false_iff_not] at hr
  obtain ⟨cfg', -, _, -, _, ⟨-, -, rfl⟩, token, -, tid', htid, ⟨⟩⟩ := hr
  by_cases hkey : key.bytes = []
  · have hws : ((Call.iset key number).bytes.args cfg).filter (· ≠ []) =
        [intText cfg.toInt, intText number.toInt, flagText true] := by
      simp [Call.bytes, Call.map, Call.args, flagText, intText_ne_nil, hkey]
    have hword := (Call.table_of hws).wordAt_eq (i := 2)
    have hkeys := congrArg Wire.keys hwire
    exact intText_ne_nil _ (hword.symm.trans ((cons.inj hkeys).1.trans hkey))
  · have hws := Call.filter_args (.iset key number) cfg ((forall_mem_names_one rfl).mpr hkey)
    have htable := Call.table_of hws
    have hword : wordAt (ascTokenize ((Call.iset key number).bytes.line cfg)) 4 = flagText true :=
      htable.wordAt_eq
    have hlen : (ascTokenize ((Call.iset key number).bytes.line cfg)).length = 5 := htable.length_eq
    rcases htid with ⟨-, -, rfl⟩ | ⟨hshort, -⟩
    · rw [hword] at hwire
      have hnone : nonempty (flagText true) = none := congrArg Wire.tid hwire
      rw [nonempty, flagText, if_neg (intText_ne_nil _)] at hnone
      cases hnone
    · rw [hlen] at hshort
      exact hshort (by decide)

end Calls

end Rejig
