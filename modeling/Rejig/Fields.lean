import Rejig.Line
import Rejig.Lib.Walk

/-!
# The fields of a request line

`asc_dispatch` picks the handler of a line by its first word.  The handler counts the words, with a
table that has bounds for each command, and takes its fields from fixed positions of the table of
tokens.  Behind the words this table has one more entry, the terminal token, which is counted with
them: it has length zero, and its pointer is null if the whole line has been scanned.  A handler
that takes a key from there gets an empty key, and one that reads a number from there follows a null
pointer.

A handler is modelled as a walk over the table of tokens.  What it leaves is the request that the
rest of the handler starts from, as in `Rejig.Ascii`, or, for the commands that do not touch the
store, the answer. The walk stops where the handler returns.

Statistics and logs are not modelled, only that they are asked for.
-/

namespace Rejig

open Prog

/-! ## Commands -/

/-- `req_type_t` -/
inductive Command where
  | storage (type : Storage)
  | iqget
  | get
  | gets
  | incr
  | decr
  | delete
  | quit
  | stats
  | config
  | version
  | flushall
  | verbosity
  | unlease
  | qareg
  | dar
  | qaread
  | iqincr
  | iqdecr
  | commit
  | release
  | ciget
  | counlease
  | oqreg
  | dcommit
  | check
  | ftrans
  | getprik
  | oqread
  | validate
  | oqincr
  | oqdecr
  | updateconf
  | iset
deriving DecidableEq, Repr

/-- `INT_MAX` -/
def intMax : Nat := 2 ^ 31 - 1

namespace Command

/-- `ntoken_bound`: the least and the largest number of tokens, without and with `noreply`. -/
def bounds : Command → (Nat × Nat) × (Nat × Nat)
  | storage type => type.bounds
  | iqget => ((5, intMax), (5, intMax))
  | get => ((4, intMax), (43, intMax))
  | gets => ((4, intMax), (4, intMax))
  | incr | decr => ((5, 5), (6, 6))
  | delete => ((4, intMax), (4, intMax))
  | quit => ((2, 2), (2, 2))
  | stats => ((2, 5), (2, 5))
  | config => ((3, 5), (3, 5))
  | version => ((2, 2), (2, 2))
  | flushall => ((2, 3), (3, 4))
  | verbosity => ((4, 4), (3, 4))
  | unlease => ((5, 5), (6, 6))
  | qareg => ((5, 5), (6, 6))
  | dar => ((4, 4), (5, 5))
  | qaread => ((5, 7), (5, 7))
  | iqincr | iqdecr => ((6, 6), (7, 7))
  | commit => ((5, 7), (8, 8))
  | release => ((4, 4), (5, 5))
  | ciget => ((5, intMax), (5, intMax))
  | counlease => ((3, 4), (3, 4))
  | oqreg => ((5, 5), (5, 5))
  | dcommit => ((3, 3), (3, 4))
  | check => ((4, intMax), (4, intMax))
  | ftrans => ((4, intMax), (4, intMax))
  | getprik => ((3, 2), (3, 3))
  | oqread => ((3, 5), (4, 6))
  | validate => ((3, 5), (4, 6))
  | oqincr | oqdecr => ((5, 5), (6, 6))
  | updateconf => ((3, intMax), (3, intMax))
  | iset => ((4, intMax), (4, intMax))

/-- The name of the command. -/
def name : Command → List Char
  | storage type => type.name
  | iqget => ['i', 'q', 'g', 'e', 't']
  | get => ['g', 'e', 't']
  | gets => ['g', 'e', 't', 's']
  | incr => ['i', 'n', 'c', 'r']
  | decr => ['d', 'e', 'c', 'r']
  | delete => ['d', 'e', 'l', 'e', 't', 'e']
  | quit => ['q', 'u', 'i', 't']
  | stats => ['s', 't', 'a', 't', 's']
  | config => ['c', 'o', 'n', 'f', 'i', 'g']
  | version => ['v', 'e', 'r', 's', 'i', 'o', 'n']
  | flushall => ['f', 'l', 'u', 's', 'h', '_', 'a', 'l', 'l']
  | verbosity => ['v', 'e', 'r', 'b', 'o', 's', 'i', 't', 'y']
  | unlease => ['u', 'n', 'l', 'e', 'a', 's', 'e']
  | qareg => ['q', 'a', 'r', 'e', 'g']
  | dar => ['d', 'a', 'r']
  | qaread => ['q', 'a', 'r', 'e', 'a', 'd']
  | iqincr => ['i', 'q', 'i', 'n', 'c', 'r']
  | iqdecr => ['i', 'q', 'd', 'e', 'c', 'r']
  | commit => ['c', 'o', 'm', 'm', 'i', 't']
  | release => ['r', 'e', 'l', 'e', 'a', 's', 'e']
  | ciget => ['c', 'i', 'g', 'e', 't']
  | counlease => ['c', 'o', 'u', 'n', 'l', 'e', 'a', 's', 'e']
  | oqreg => ['o', 'q', 'r', 'e', 'g']
  | dcommit => ['d', 'c', 'o', 'm', 'm', 'i', 't']
  | check => ['c', 'h', 'e', 'c', 'k']
  | ftrans => ['f', 't', 'r', 'a', 'n', 's']
  | getprik => ['g', 'e', 't', 'p', 'r', 'i', 'k']
  | oqread => ['o', 'q', 'r', 'e', 'a', 'd']
  | validate => ['v', 'a', 'l', 'i', 'd', 'a', 't', 'e']
  | oqincr => ['o', 'q', 'i', 'n', 'c', 'r']
  | oqdecr => ['o', 'q', 'd', 'e', 'c', 'r']
  | updateconf => ['u', 'p', 'd', 'a', 't', 'e', 'c', 'o', 'n', 'f']
  | iset => ['i', 's', 'e', 't']

/-- The commands of `asc_parse_type`.  No two have the same name, so that the order does not
matter. -/
def all : List Command :=
  [.get, .storage .set, .storage .add, .storage .cas, .dar, .storage .sar, .gets, .incr,
    .decr, .quit, .storage .swap, .iset, .iqget, .storage .iqset, .stats, .qareg, .ciget, .oqreg,
    .check, .storage .append, .delete, .config, .qaread, .iqincr, .iqdecr, .commit, .ftrans,
    .oqread, .storage .oqswap, .oqincr, .oqdecr, .storage .replace, .storage .prepend, .version,
    .unlease, .release, .dcommit, .getprik, .storage .oqwrite, .storage .iqappend, .validate,
    .storage .oqappend, .flushall, .verbosity, .storage .iqprepend, .counlease, .storage .oqprepend,
    .updateconf]

/-- The names that are compared together with the blank behind them. -/
def blankTested (cmd : Command) : Bool :=
  cmd.name.length = 3 || cmd = .storage .replace || cmd = .storage .prepend

/-- Whether the handler calls `asc_set_noreply_maybe`. -/
def setsNoreply : Command → Bool
  | get | gets | quit | stats | config | version | check | getprik => false
  | _ => true

/-- The test of the number of tokens.  `verbosity` has a test of its own, the subcommands of
`config` make theirs, and `version` and `quit` make none; there is no handler of `getprik`. -/
def accepts (cmd : Command) (noreply : Bool) (ntoken : Nat) : Bool :=
  match cmd with
  | verbosity => ntoken = 3 || ntoken = 4
  | config | version | quit => true
  | getprik => false
  | cmd =>
    let (min, max) := if noreply then cmd.bounds.2 else cmd.bounds.1
    min ≤ ntoken && ntoken ≤ max

end Command

/-- `asc_parse_type` -/
def ascReqType (t : List Token) : Option Command := do
  let w ← t.head?
  Command.all.find? fun cmd =>
    w.text = ofChars cmd.name && (!cmd.blankTested || (w.val.drop w.len).head? = some 0x20)

/-! ## Words and numbers -/

/-- Why a handler returns before it has all its fields. -/
inductive Halt where
  | clientError
  | serverError
  /-- The configuration number is refused. -/
  | crash
  /-- The configuration number of the server is `-1`, and nothing is written. -/
  | silent
  /-- Memory is read that is no word of the line. -/
  | fault
deriving DecidableEq, Repr

/-- A handler, as far as it looks at its line. -/
abbrev LineM := Walk Halt

/-- The text at a position; that of the terminal token is empty. -/
def wordAt (t : List Token) (i : Nat) : Bytes := t[i]?.elim [] Token.text

/-- The number at a position. -/
def numberAt {A : Type} (read : Bytes → Option A) (t : List Token) (i : Nat) : Option A :=
  t[i]?.bind fun w => read w.val

/-- The entry of the table at a position; behind the terminal token there is none. -/
def entry (t : List Token) (i : Nat) : Except Halt Bytes :=
  if i ≤ t.length then .ok (wordAt t i) else .error .fault

/-- Use a word as a key or an identifier. -/
def lineWord (t : List Token) (i : Nat) : LineM Bytes := .use i (entry t i)

/-- Use a word as the name of a subcommand. -/
def lineSubcommand (t : List Token) (i : Nat) : LineM Bytes := ⟨[], entry t i⟩

/-- Use a word as a number. -/
def lineNumber {A : Type} (read : Bytes → Option A) (t : List Token) (i : Nat) : LineM A :=
  .use i <| match numberAt read t i with
    | some a => .ok a
    | none => .error (if i < t.length then .clientError else .fault)

/-- `asc_check_config`, for the number `server`. -/
def lineConfig (server cfg : Int) : LineM Unit :=
  if cfg ≠ -1 && cfg ≠ server then .stop .crash else .guard (server ≠ -1) .silent

/-- Use a word as a name of at most `max` bytes. -/
def lineName (max : Nat) (t : List Token) (i : Nat) : LineM Bytes := do
  let name ← lineWord t i
  .guard (name.length ≤ max) .clientError
  return name

/-- Use `k` words from position `i` on as keys. -/
def lineWords (t : List Token) : (i k : Nat) → LineM (List Bytes)
  | _, 0 => return []
  | i, k + 1 => do
    let key ← lineWord t i
    return key :: (← lineWords t (i + 1) k)

/-- The lease token at a position. -/
def lineToken (t : List Token) (i : Nat) : LineM UInt64 :=
  do return .ofInt (← lineNumber mcStrtoll t i)

/-- The pointer of the terminal token: the line behind the words of the table, if there is more. -/
def terminal (command : Bytes) : Option Bytes :=
  ((ascTokenize command)[tokenMax - 2]?).bind fun w =>
    let rest := (w.val.drop w.len).tail
    if rest = [] then none else some rest

/-- The loops of `asc_process_read` and `asc_process_delete` over the keys from position `i` on: at
the terminal token they go on with the tokens of the line behind it. -/
def ascKeys : (fuel : Nat) → (command : Bytes) → (i : Nat) → List Bytes
  | 0, _, _ => []
  | fuel + 1, command, i =>
    ((ascTokenize command).drop i).map Token.text ++ (terminal command).elim [] (ascKeys fuel · 0)

/-! ## Handlers -/

/-- What the handler of a line goes on to do. -/
inductive Action where
  /-- A request to the store. -/
  | request (r : Request)
  /-- Look for keys and list those that are missing. -/
  | check (keys : List Bytes)
  | ftrans (tid : Bytes) (keys : List Bytes)
  /-- Answer, after a setting of the server has been changed. -/
  | answer (r : Reply)
  /-- Write statistics. -/
  | report
  | version
  | close
deriving DecidableEq, Repr

/-- The settings that the administrative commands look at. -/
structure Admin where
  /-- `stats_enabled` -/
  stats : Bool := true
  /-- `klog_name` is set. -/
  klog : Bool := true
deriving DecidableEq, Repr, Inhabited

/-- The fields of `asc_process_read`. -/
def ascReadFields (cas : Bool) (server : Int) (command : Bytes) (t : List Token) :
    LineM Request := do
  let cfg ← lineNumber mcStrtol t 1
  lineConfig server cfg
  return .get cas cfg (ascKeys (command.length + 1) command 2)

/-- The fields of `asc_process_update`; `token` is the lease token, for `iqset`, and `id` the number
of `cas`. -/
def ascUpdateFields (token id : LineM UInt64) (cmd : (token id : UInt64) → Update) (server : Int)
    (t : List Token) : LineM Request := do
  let cfg ← lineNumber mcStrtol t 1
  let frag ← lineNumber mcStrtol t 2
  let key ← lineName keyMaxLen t 3
  let flags ← lineNumber mcStrtoul t 4
  let exptime ← lineNumber mcStrtol t 5
  let vlen ← lineNumber mcStrtoul t 6
  let leaseToken ← token
  lineConfig server cfg
  let casId ← id
  return .update (cmd leaseToken casId) cfg frag key flags exptime vlen

/-- The fields of `asc_process_arithmetic`.  The amount goes on as the text of the number. -/
def ascArithmeticFields (incr : Bool) (server : Int) (t : List Token) : LineM Request := do
  let cfg ← lineNumber mcStrtol t 1
  lineConfig server cfg
  let key ← lineName keyMaxLen t 2
  let delta ← lineNumber mcStrtoullAt t 3
  return .arithmetic incr cfg key (decimal delta)

/-- The fields of `asc_process_delete`. -/
def ascDeleteFields (server : Int) (command : Bytes) (t : List Token) : LineM Request := do
  let cfg ← lineNumber mcStrtol t 1
  lineConfig server cfg
  let deleteLease ← lineNumber mcStrtol t 2
  return .delete cfg deleteLease (ascKeys (command.length + 1) command 3)

/-- The fields of `asc_process_unlease`. -/
def ascUnleaseFields (server : Int) (t : List Token) : LineM Request := do
  let cfg ← lineNumber mcStrtol t 1
  lineConfig server cfg
  let key ← lineName keyMaxLen t 2
  let leaseToken ← lineToken t 3
  return .unlease cfg key leaseToken

/-- The fields of `asc_process_qareg`. -/
def ascQaregFields (server : Int) (t : List Token) : LineM Request := do
  let cfg ← lineNumber mcStrtol t 1
  lineConfig server cfg
  let key ← lineName keyMaxLen t 2
  let tid ← lineName tidMaxLen t 3
  return .qareg cfg key tid

/-- The fields of `asc_process_dar`. -/
def ascDarFields (server : Int) (t : List Token) : LineM Request := do
  let cfg ← lineNumber mcStrtol t 1
  lineConfig server cfg
  let tid ← lineName tidMaxLen t 2
  return .dar cfg tid

/-- The fields of `asc_process_qaread`.  The tests compare the number of tokens, the terminal one
included. -/
def ascQareadFields (server : Int) (t : List Token) : LineM Request := do
  let cfg ← lineNumber mcStrtol t 1
  lineConfig server cfg
  let key ← lineName keyMaxLen t 2
  let readValue ← lineNumber mcStrtol t 3
  let leaseToken ← .optional (4 < t.length + 1) 0 (lineToken t 4)
  let tid ← .optional (5 < t.length + 1) [] (lineWord t 5)
  return .qaread cfg key readValue leaseToken tid

/-- The fields of `asc_process_sar`. -/
def ascSarFields (server : Int) (t : List Token) : LineM Request := do
  let cfg ← lineNumber mcStrtol t 1
  lineConfig server cfg
  let key ← lineName keyMaxLen t 2
  let flags ← lineNumber mcStrtoul t 3
  let exptime ← lineNumber mcStrtol t 4
  let vlen ← lineNumber mcStrtoul t 5
  let leaseToken ← lineToken t 6
  return .sar cfg key flags exptime vlen leaseToken

/-- The fields of `asc_process_swap`. -/
def ascSwapFields (server : Int) (t : List Token) : LineM Request := do
  let cfg ← lineNumber mcStrtol t 1
  let frag ← lineNumber mcStrtol t 2
  let key ← lineName keyMaxLen t 3
  let flags ← lineNumber mcStrtoul t 4
  let exptime ← lineNumber mcStrtol t 5
  let vlen ← lineNumber mcStrtoul t 6
  let leaseToken ← lineToken t 7
  lineConfig server cfg
  return .swap cfg frag key flags exptime vlen leaseToken

/-- The fields of `asc_process_iqincr_iqdecr`: the transaction is taken from the position of the
amount, and what the client sent behind it is not looked at. -/
def ascIqDeltaFields (incr : Bool) (server : Int) (t : List Token) : LineM Request := do
  let cfg ← lineNumber mcStrtol t 1
  lineConfig server cfg
  let key ← lineName keyMaxLen t 2
  let _ ← lineNumber mcStrtoullAt t 3
  let tid ← lineWord t 3
  return .iqDelta incr cfg key tid (wordAt t 4)

/-- The fields of `asc_process_iqappend_iqprepend`. -/
def ascIqConcatFields (append : Bool) (server : Int) (t : List Token) : LineM Request := do
  let cfg ← lineNumber mcStrtol t 1
  let key ← lineName keyMaxLen t 2
  let vlen ← lineNumber mcStrtoul t 3
  let tid ← lineWord t 4
  lineConfig server cfg
  return .iqConcat append cfg key vlen tid

/-- The fields of `asc_process_oqincr_oqdecr`. -/
def ascOqDeltaFields (incr : Bool) (server : Int) (t : List Token) : LineM Request := do
  let cfg ← lineNumber mcStrtol t 1
  lineConfig server cfg
  let sid ← lineWord t 2
  let key ← lineName keyMaxLen t 3
  let delta ← lineNumber mcStrtoullAt t 4
  return .oqDelta incr cfg sid key (decimal delta)

/-- The fields of `asc_process_oqappend_oqprepend`. -/
def ascOqConcatFields (append : Bool) (t : List Token) : LineM Request := do
  let sid ← lineWord t 1
  let key ← lineName keyMaxLen t 2
  let vlen ← lineNumber mcStrtoul t 3
  return .oqConcat append sid key vlen

/-- The fields of `asc_process_oqswap` and `asc_process_oqwrite`. -/
def ascOqwriteFields (request : (sid key : Bytes) → (flags : Nat) → (exptime : Int) →
      (vlen : Nat) → Request) (t : List Token) : LineM Request := do
  let sid ← lineWord t 1
  let key ← lineName keyMaxLen t 2
  let flags ← lineNumber mcStrtoul t 3
  let exptime ← lineNumber mcStrtol t 4
  let vlen ← lineNumber mcStrtoul t 5
  return request sid key flags exptime vlen

/-- The fields of `asc_process_commit`. -/
def ascCommitFields (server : Int) (t : List Token) : LineM Request := do
  let cfg ← lineNumber mcStrtol t 1
  let frag ← lineNumber mcStrtol t 2
  let tid ← lineName tidMaxLen t 3
  let pending ← lineNumber mcStrtol t 4
  lineConfig server cfg
  return .commit cfg frag tid pending

/-- The fields of `asc_process_release`: the transaction is taken from where the other commands have
their configuration number. -/
def ascReleaseFields (t : List Token) : LineM Request := do
  let tid ← lineName tidMaxLen t 1
  return .release tid

/-- The fields of `asc_process_iqget`; `foreground` only decides which counters are increased. -/
def ascIqgetFields (server : Int) (t : List Token) : LineM Request := do
  let cfg ← lineNumber mcStrtol t 1
  lineConfig server cfg
  let key ← lineName keyMaxLen t 2
  let leaseToken ← lineToken t 3
  let _foreground ← lineNumber mcStrtol t 4
  return .iqget cfg key leaseToken

/-- The fields of `asc_process_iset`. -/
def ascIsetFields (server : Int) (t : List Token) : LineM Request := do
  let cfg ← lineNumber mcStrtol t 1
  lineConfig server cfg
  let key ← lineName keyMaxLen t 2
  let leaseToken ← lineToken t 3
  let tid ← .optional (4 < t.length + 1) [] (lineWord t 4)
  return .iset cfg key leaseToken tid

/-- The fields of `asc_process_ciget`. -/
def ascCigetFields (t : List Token) : LineM Request := do
  let sid ← lineWord t 1
  let key ← lineName keyMaxLen t 2
  let leaseToken ← lineToken t 3
  return .ciget sid key leaseToken

/-- The fields of `asc_process_oqread`. -/
def ascOqreadFields (t : List Token) : LineM Request := do
  let sid ← lineWord t 1
  let key ← lineName keyMaxLen t 2
  return .oqread sid key

/-- The fields of `asc_process_oqreg`. -/
def ascOqregFields (t : List Token) : LineM Request := do
  let sid ← lineName keyMaxLen t 1
  let key ← lineName tidMaxLen t 2
  return .oqreg sid key

/-- The fields of `asc_process_flushall`: without a delay if the number of tokens is the least
one. -/
def ascFlushallFields (noreply : Bool) (t : List Token) : LineM Request := do
  let bounds := if noreply then Command.flushall.bounds.2 else Command.flushall.bounds.1
  if t.length + 1 = bounds.1 then return .flushall 0
  else return .flushall (← lineNumber mcStrtol t 2)

/-- `asc_process_check` -/
def ascCheckFields (t : List Token) : LineM Action := do
  let num ← lineNumber mcStrtoll t 1
  return .check (← lineWords t 2 num.toNat)

/-- `asc_process_ftrans` -/
def ascFtransFields (t : List Token) : LineM Action := do
  let tid ← lineWord t 1
  let num ← lineNumber mcStrtoll t 2
  return .ftrans tid (← lineWords t 3 num.toNat)

/-- `strncmp(t->val, word, t->len) == 0`: the token is the beginning of a word. -/
def abbreviates (token : Bytes) (word : List Char) : Bool := token.isPrefixOf (ofChars word)

/-- `asc_process_stats` -/
def ascStatsFields (admin : Admin) (t : List Token) : LineM Action := do
  .guard admin.stats .serverError
  if t.length + 1 = 2 then return .report
  else
    let sub ← lineSubcommand t 1
    if abbreviates sub ['r', 'e', 's', 'e', 't'] then .stop .serverError
    else if abbreviates sub ['s', 'e', 't', 't', 'i', 'n', 'g', 's'] then return .report
    else if abbreviates sub ['c', 'a', 'c', 'h', 'e', 'd', 'u', 'm', 'p'] then
      .guard (5 ≤ t.length + 1) .clientError
      let id ← lineNumber mcStrtoul t 3
      let _limit ← lineNumber mcStrtoul t 4
      -- `SLABCLASS_MIN_ID` and `SLABCLASS_MAX_ID`
      .guard (1 ≤ id && id ≤ 254) .clientError
      return .report
    else if abbreviates sub ['s', 'l', 'a', 'b', 's'] ||
      abbreviates sub ['s', 'i', 'z', 'e', 's'] then
      return .report
    else .stop .clientError

/-- The numbers of `asc_process_klog`: `reset`, or a number that is not too small. -/
def ascKlogNumber (t : List Token) (least : Int) : LineM Action := do
  let sub ← lineSubcommand t 4
  if abbreviates sub ['r', 'e', 's', 'e', 't'] then return .answer .ok
  else
    let number ← lineNumber mcStrtol t 4
    .guard (least ≤ number) .clientError
    return .answer .ok

/-- `asc_process_klog`; `KLOG_MIN_INTVL` is `100`. -/
def ascKlogFields (admin : Admin) (t : List Token) : LineM Action := do
  .guard (Command.config.bounds.1.1 ≤ t.length + 1 && t.length + 1 ≤ Command.config.bounds.1.2)
    .clientError
  let cmd ← lineSubcommand t 3
  if abbreviates cmd ['r', 'u', 'n'] then
    .guard admin.klog .clientError
    let sub ← lineSubcommand t 4
    .guard (abbreviates sub ['s', 't', 'a', 'r', 't'] || abbreviates sub ['s', 't', 'o', 'p'])
      .clientError
    return .answer .ok
  else if abbreviates cmd ['i', 'n', 't', 'e', 'r', 'v', 'a', 'l'] then ascKlogNumber t 100
  else if abbreviates cmd ['s', 'a', 'm', 'p', 'l', 'i', 'n', 'g'] then ascKlogNumber t 1
  else .stop .clientError

/-- `asc_process_aggregate` -/
def ascAggregateFields (t : List Token) : LineM Action := do
  .guard (t.length + 1 = 4) .clientError
  let _interval ← lineNumber mcStrtol t 3
  return .answer .ok

/-- `asc_process_evict`; `EVICT_NONE` is `0` and `EVICT_INVALID` is `16`. -/
def ascEvictFields (t : List Token) : LineM Action := do
  .guard (t.length + 1 = 4) .clientError
  let option ← lineNumber mcStrtol t 3
  .guard (0 ≤ option && option < 16) .clientError
  return .answer .ok

/-- `asc_process_config`: nothing is written if there is no such subcommand. -/
def ascConfigFields (admin : Admin) (t : List Token) : LineM Action := do
  let sub ← lineSubcommand t 2
  if abbreviates sub ['a', 'g', 'g', 'r', 'e', 'g', 'a', 't', 'e'] then ascAggregateFields t
  else if abbreviates sub ['k', 'l', 'o', 'g'] then ascKlogFields admin t
  else if abbreviates sub ['e', 'v', 'i', 'c', 't'] then ascEvictFields t
  else .stop .silent

/-- `asc_process_verbosity` -/
def ascVerbosityFields (t : List Token) : LineM Action := do
  let _level ← lineNumber mcStrtoul t 2
  return .answer .ok

/-- The fields of a command with a body. -/
def ascStorageFields (server : Int) (t : List Token) : Storage → LineM Request
  | .set => ascUpdateFields (pure 0) (pure 0) (fun _ _ => .set) server t
  | .add => ascUpdateFields (pure 0) (pure 0) (fun _ _ => .add) server t
  | .replace => ascUpdateFields (pure 0) (pure 0) (fun _ _ => .replace) server t
  | .append => ascUpdateFields (pure 0) (pure 0) (fun _ _ => .append) server t
  | .prepend => ascUpdateFields (pure 0) (pure 0) (fun _ _ => .prepend) server t
  -- `TOKEN_CAS` was not moved on, and is the position of the length
  | .cas => ascUpdateFields (pure 0) (lineNumber mcStrtoullAt t 6) (fun _ id => .cas id) server t
  | .iqset => ascUpdateFields (lineToken t 7) (pure 0) (fun token _ => .iqset token) server t
  | .sar => ascSarFields server t
  | .swap => ascSwapFields server t
  | .iqappend => ascIqConcatFields true server t
  | .iqprepend => ascIqConcatFields false server t
  | .oqswap => ascOqwriteFields .oqswap t
  | .oqwrite => ascOqwriteFields .oqwrite t
  | .oqappend => ascOqConcatFields true t
  | .oqprepend => ascOqConcatFields false t

/-- The fields of a request to the store. -/
def ascRequestFields (server : Int) (noreply : Bool) (command : Bytes) (t : List Token) :
    Command → Option (LineM Request)
  | .storage type => ascStorageFields server t type
  | .iqget => ascIqgetFields server t
  | .get => ascReadFields false server command t
  | .gets => ascReadFields true server command t
  | .incr => ascArithmeticFields true server t
  | .decr => ascArithmeticFields false server t
  | .delete => ascDeleteFields server command t
  | .flushall => ascFlushallFields noreply t
  | .unlease => ascUnleaseFields server t
  | .qareg => ascQaregFields server t
  | .dar => ascDarFields server t
  | .qaread => ascQareadFields server t
  | .iqincr => ascIqDeltaFields true server t
  | .iqdecr => ascIqDeltaFields false server t
  | .commit => ascCommitFields server t
  | .release => ascReleaseFields t
  | .ciget => ascCigetFields t
  | .counlease => some do return .coUnlease (← lineName keyMaxLen t 1)
  | .oqreg => ascOqregFields t
  | .dcommit => some do return .dcommit (← lineName keyMaxLen t 1)
  | .oqread => ascOqreadFields t
  | .validate => some do return .validate (← lineWord t 1)
  | .oqincr => ascOqDeltaFields true server t
  | .oqdecr => ascOqDeltaFields false server t
  | .updateconf => some do return .updateConfiguration (← lineNumber mcStrtol t 1)
  | .iset => ascIsetFields server t
  | .quit | .stats | .config | .version | .verbosity | .check | .ftrans | .getprik => none

/-- The command whose handler `asc_dispatch` calls, if the handler accepts the number of tokens, and
the flag `noreply` of the connection when it has tested it.  The flag may still be set from an
earlier line. -/
def ascHandler (flag : Bool) (command : Bytes) : Option (Command × Bool) := do
  let t := ascTokenize command
  let cmd ← ascReqType t
  let noreply := flag || (cmd.setsNoreply && ascNoreply t)
  if cmd.accepts noreply (t.length + 1) then some (cmd, noreply) else none

/-- `asc_dispatch`, for a line whose number of tokens the handler accepts. -/
def ascFields (admin : Admin) (server : Int) (noreply : Bool) (command : Bytes) (cmd : Command) :
    LineM Action :=
  let t := ascTokenize command
  match ascRequestFields server noreply command t cmd, cmd with
  | some fields, _ => return .request (← fields)
  | none, .quit => return .close
  | none, .stats => ascStatsFields admin t
  | none, .config => ascConfigFields admin t
  | none, .version => return .version
  | none, .verbosity => ascVerbosityFields t
  | none, .check => ascCheckFields t
  | none, .ftrans => ascFtransFields t
  | none, _ => .stop .clientError

end Rejig
