import Rejig.Co

/-!
# Requests and replies

The handlers of `mc_ascii.c`.  A `Request` is a request line whose words have been counted and whose
numbers have been read; a line that fails those tests is answered `CLIENT_ERROR` and does nothing,
and is left to `Rejig.Fields`.  The one word whose text matters after its number has been read is
the amount of an increment, so that one is kept as text.

A command that carries a body is handled in two parts, and other connections may be served between
them: the handler of the line checks the line and allocates an item (`Pending`), and
`asc_complete_nread` runs when the body has arrived.

A `Reply` is what is written to the client.  An item in a reply stands for what is printed of it.
-/

namespace Rejig

open Prog

/-- The commands of `asc_process_update`. -/
inductive Update where
  | set
  | add
  | replace
  | append
  | prepend
  | cas (id : UInt64)
  | iqset (leaseToken : UInt64)
deriving DecidableEq, Repr

namespace Update

/-- The request type of the command. -/
def type : Update → ReqType
  | set => .set
  | add => .add
  | replace => .replace
  | append => .append
  | prepend => .prepend
  | cas _ => .cas
  | iqset _ => .iqset

/-- The token that the command leaves in the connection. -/
def leaseToken : Update → UInt64
  | iqset leaseToken => leaseToken
  | _ => 0

/-- Whether the old value goes when there is no memory for the new one. -/
def dropsValue : Update → Bool
  | set | iqset _ => true
  | _ => false

end Update

/-- The requests, with their words in the order of the line. -/
inductive Request where
  | get (cas : Bool) (cfg : Int) (keys : List Bytes)
  | update (cmd : Update) (cfg frag : Int) (key : Bytes) (flags : Nat) (exptime : Int) (vlen : Nat)
  | arithmetic (incr : Bool) (cfg : Int) (key delta : Bytes)
  | delete (cfg deleteLease : Int) (keys : List Bytes)
  | unlease (cfg : Int) (key : Bytes) (leaseToken : UInt64)
  | qareg (cfg : Int) (key tid : Bytes)
  | dar (cfg : Int) (tid : Bytes)
  | qaread (cfg : Int) (key : Bytes) (readValue : Int) (leaseToken : UInt64) (tid : Bytes)
  | sar (cfg : Int) (key : Bytes) (flags : Nat) (exptime : Int) (vlen : Nat) (leaseToken : UInt64)
  | swap (cfg frag : Int) (key : Bytes) (flags : Nat) (exptime : Int) (vlen : Nat)
      (leaseToken : UInt64)
  | iqDelta (incr : Bool) (cfg : Int) (key delta tid : Bytes)
  | iqConcat (append : Bool) (cfg : Int) (key : Bytes) (vlen : Nat) (tid : Bytes)
  | commit (cfg frag : Int) (tid : Bytes) (pending : Int)
  | release (tid : Bytes)
  | iqget (cfg : Int) (key : Bytes) (leaseToken : UInt64)
  | iset (cfg : Int) (key : Bytes) (leaseToken : UInt64) (tid : Bytes)
  | updateConfiguration (number : Int)
  | flushall (exptime : Int)
  | ciget (sid key : Bytes) (leaseToken : UInt64)
  | oqread (sid key : Bytes)
  | oqswap (sid key : Bytes) (flags : Nat) (exptime : Int) (vlen : Nat)
  | oqwrite (sid key : Bytes) (flags : Nat) (exptime : Int) (vlen : Nat)
  | oqDelta (incr : Bool) (cfg : Int) (sid key delta : Bytes)
  | oqConcat (append : Bool) (sid key : Bytes) (vlen : Nat)
  | oqreg (sid key : Bytes)
  | dcommit (sid : Bytes)
  | coUnlease (sid : Bytes)
  | validate (sid : Bytes)
deriving DecidableEq, Repr

/-- What the client is told. -/
inductive Reply where
  | clientError
  | serverError
  /-- `FAIL`, the answer to a wrong configuration number. -/
  | crash
  /-- Nothing is written. -/
  | silent
  | stored
  | notStored
  | exists
  | notFound
  | deleted
  | invalid
  | ok
  | okNovalue
  | novalue
  | abort
  | retry
  /-- The values of `get` and `gets`. -/
  | values (its : List Item)
  /-- The text of a number. -/
  | number (buf : Bytes)
  /-- The value of `iqget`, `ciget` or `oqread`. -/
  | value (it : Item)
  /-- `LVALUE`: a token, from `iqget` or `ciget`; `LEASE_HOTMISS` is no lease. -/
  | lvalue (leaseToken : UInt64) (p : UInt8)
  /-- `LEASE 1`, the answer to `qareg`. -/
  | qInvLeasehold
  /-- The answer to `qaread`. -/
  | qaread (it : Option Item) (leaseToken : UInt64) (p : UInt8)
  /-- `OK` with the pending bit and the token of an incremental update. -/
  | okPending (p : UInt8) (leaseToken : UInt64)
  /-- `OK_NOVALUE` with the pending bit and the token of an incremental update. -/
  | okNovaluePending (p : UInt8) (leaseToken : UInt64)
deriving DecidableEq, Repr

/-- What `asc_complete_nread` will do with a body.  An identifier is kept on the connection with its
length in one byte (`c->ntid`), so that it is cut as the name of an item is. -/
inductive Completion where
  | store (cmd : Update)
  | iqConcat (append : Bool) (tid : Bytes)
  | oqConcat (append : Bool) (sid : Bytes)
  | sar (leaseToken : UInt64)
  | swap (leaseToken : UInt64)
  | oqswap (sid : Bytes)
  | oqwrite (sid : Bytes)
deriving DecidableEq, Repr

/-- The number that `item_set_cas` leaves in the item of a request. -/
def Completion.casId : Completion → UInt64
  | store (.cas id) => id
  | _ => 0

/-- A request that waits for its body: the item that was allocated for it, still without payload. -/
structure Pending where
  completion : Completion
  item : Item
  vlen : Nat
deriving DecidableEq, Repr

/-- How the handler of a request line ends. -/
inductive Outcome where
  | reply (r : Reply)
  | nread (p : Pending)
deriving DecidableEq, Repr

/-- `KEY_MAX_LEN` -/
def keyMaxLen : Nat := 250

/-- `TID_MAX_LEN` -/
def tidMaxLen : Nat := 250

/-- `asc_check_config`, for a handler that goes on with the number of the server.  The handlers take
`-1` for a refusal, so that nothing is written when it is the number of the server itself.  The test
is made under a lock of its own: `service` takes it and the rest of the handler in one step,
`threads` in two. -/
def ascCheckConfig (cfg : Int) (handler : Int → ServerM Outcome) : ServerM Outcome := do
  let server := (← get).configurationNumber
  if cfg ≠ -1 && cfg ≠ server then return .reply .crash
  else if server = -1 then return .reply .silent
  else handler server

/-- The test of the length of a key or an identifier. -/
def ascCheckLength (max : Nat) (name : Bytes) (handler : ServerM Outcome) : ServerM Outcome :=
  if max < name.length then return .reply .clientError else handler

/-! ## Commands with a body -/

/-- Allocate the item for a body.  When there is no memory the body is swallowed, and `dropsValue`
says whether the value of the key goes. -/
def ascAllocBody (key : Bytes) (flags : Nat) (exptime : Int) (vlen : Nat) (configNum : Int)
    (dropsValue : Bool) (completion : Completion) : ServerM Outcome := do
  if !(← itemSlabid key.length vlen) then return .reply .clientError
  else
    let exptime ← timeReltime exptime
    match ← itemAllocConfig key flags exptime vlen configNum with
    | none =>
      when dropsValue do whenSome (← itemGet key) itemUnlink
      return .reply .serverError
    | some it =>
      let c ← ask
      return .nread ⟨completion, { it with cas := if c.useCas then completion.casId else 0 }, vlen⟩

/-- Allocate the item for the body of an incremental update. -/
def ascAllocConcat (key : Bytes) (vlen : Nat) (completion : Completion) : ServerM Outcome := do
  match ← itemAlloc key 0 0 vlen with
  | none => return .reply .serverError
  | some it => return .nread ⟨completion, it, vlen⟩

/-- The configuration number of a value: that of the fragment, if the request has one. -/
def fragConfig (frag server : Int) : Int := if frag ≠ -1 then frag else server

/-- `asc_process_update` -/
def ascProcessUpdate (cmd : Update) (cfg frag : Int) (key : Bytes) (flags : Nat) (exptime : Int)
    (vlen : Nat) : ServerM Outcome :=
  ascCheckLength keyMaxLen key <| ascCheckConfig cfg fun server =>
    ascAllocBody key flags exptime vlen (fragConfig frag server) cmd.dropsValue (.store cmd)

/-- `asc_process_sar` -/
def ascProcessSar (cfg : Int) (key : Bytes) (flags : Nat) (exptime : Int) (vlen : Nat)
    (leaseToken : UInt64) : ServerM Outcome :=
  ascCheckConfig cfg fun _ => ascCheckLength keyMaxLen key <|
    ascAllocBody key flags exptime vlen (-1) true (.sar leaseToken)

/-- `asc_process_swap` -/
def ascProcessSwap (cfg frag : Int) (key : Bytes) (flags : Nat) (exptime : Int) (vlen : Nat)
    (leaseToken : UInt64) : ServerM Outcome :=
  ascCheckLength keyMaxLen key <| ascCheckConfig cfg fun server =>
    ascAllocBody key flags exptime vlen (fragConfig frag server) true (.swap leaseToken)

/-- `asc_process_iqappend_iqprepend` -/
def ascProcessIqConcat (append : Bool) (cfg : Int) (key : Bytes) (vlen : Nat) (tid : Bytes) :
    ServerM Outcome :=
  ascCheckLength keyMaxLen key <| ascCheckConfig cfg fun _ =>
    ascAllocConcat key vlen (.iqConcat append (u8Name tid))

/-- `asc_process_oqswap` and `asc_process_oqwrite` -/
def ascProcessOqwrite (key : Bytes) (flags : Nat) (exptime : Int) (vlen : Nat)
    (completion : Completion) : ServerM Outcome :=
  ascCheckLength keyMaxLen key (ascAllocBody key flags exptime vlen (-1) true completion)

/-- `asc_process_oqappend_oqprepend` -/
def ascProcessOqConcat (append : Bool) (sid key : Bytes) (vlen : Nat) : ServerM Outcome :=
  ascCheckLength keyMaxLen key (ascAllocConcat key vlen (.oqConcat append (u8Name sid)))

/-- The answer to the result of `_item_store`. -/
def ascStoreReply : StoreResult → Reply
  | .stored => .stored
  | .exists => .exists
  | .notFound => .notFound
  | .notStored => .notStored
  | .storeError => .serverError

/-- The answer to an incremental update. -/
def ascIqDeltaReply (res : IqDeltaResult) : Reply :=
  match res.status with
  | .lease => .okPending res.pending res.newLeaseToken
  | .leaseNoValue => .okNovaluePending res.pending res.newLeaseToken
  | .abort => .abort
  | .serverError => .serverError
  | .clientError => .clientError
  | _ => .silent

/-- The answer to `oqswap` and `oqwrite`. -/
def ascOqwriteReply : CoResult → Reply
  | .ok => .stored
  | .abort => .abort
  | _ => .invalid

/-- What `asc_complete_nread` does with a body that ends as it should. -/
def ascComplete (completion : Completion) (it : Item) : ServerM Reply := do
  match completion with
  | .store cmd => return ascStoreReply (← itemStore it cmd.type cmd.leaseToken)
  | .iqConcat append tid =>
    return ascIqDeltaReply (← itemIqappendIqprepend append it.key it.data tid)
  | .oqConcat append sid =>
    match ← itemOqappendOqprepend append sid it.key it.data with
    | .ok => return .ok
    | .abort => return .okNovalue
    | _ => return .silent
  | .sar leaseToken =>
    match ← itemSwapAndRelease it leaseToken with
    | .stored => return .stored
    | .notStored => return .notStored
    | _ => return .invalid
  | .swap leaseToken =>
    match ← itemSwap it leaseToken with
    | .stored => return .stored
    | .notStored => return .abort
    | _ => return .invalid
  | .oqswap sid => return ascOqwriteReply (← itemOqswap sid it)
  | .oqwrite sid => return ascOqwriteReply (← itemOqwrite sid it)

/-- `asc_complete_nread`; `body` is what was read into the item, with the line end. -/
def ascCompleteNread (p : Pending) (body : Bytes) : ServerM Reply :=
  if body.drop p.vlen ≠ [0x0d, 0x0a] then return .clientError
  else ascComplete p.completion { p.item with data := body.take p.vlen }

/-! ## Commands without a body -/

/-- The loop of `asc_process_read`: the items found, or `none` at a key that is too long. -/
def ascReadKeys : List Bytes → ServerM (Option (List Item))
  | [] => return some []
  | key :: keys => do
    if keyMaxLen < key.length then return none
    else
      let it ← itemGet key
      whenSome it itemTouch
      return (← ascReadKeys keys).map (it.toList ++ ·)

/-- `asc_process_read` -/
def ascProcessRead (cfg : Int) (keys : List Bytes) : ServerM Outcome :=
  ascCheckConfig cfg fun _ => do
    match ← ascReadKeys keys with
    | none => return .reply .clientError
    | some its => return .reply (.values its)

/-- `asc_process_arithmetic` -/
def ascProcessArithmetic (incr : Bool) (cfg : Int) (key delta : Bytes) : ServerM Outcome :=
  ascCheckConfig cfg fun _ => ascCheckLength keyMaxLen key do
    match mcStrtoull delta with
    | none => return .reply .clientError
    | some delta =>
      match ← itemAddDelta key incr delta with
      | .ok buf => return .reply (.number buf)
      | .nonNumeric => return .reply .clientError
      | .eom => return .reply .serverError
      | .notFound => return .reply .notFound

/-- The loop of `asc_process_delete`, with the result for the last key so far. -/
def ascDeleteKeys (deleteLease : Bool) (res : Option StoreResult) : List Bytes → ServerM Outcome
  | [] => do
    -- without a key the result has no value
    match ← deref res with
    | .exists | .stored => return .reply .deleted
    | .notFound => return .reply .notFound
    | _ => return .reply .serverError
  | key :: keys => do
    if keyMaxLen < key.length then return .reply .clientError
    else ascDeleteKeys deleteLease (← itemGetAndDelete key deleteLease) keys

/-- `asc_process_delete` -/
def ascProcessDelete (cfg deleteLease : Int) (keys : List Bytes) : ServerM Outcome :=
  ascCheckConfig cfg fun _ => ascDeleteKeys (deleteLease = 1) none keys

/-- `asc_process_unlease` -/
def ascProcessUnlease (cfg : Int) (key : Bytes) (leaseToken : UInt64) : ServerM Outcome :=
  ascCheckConfig cfg fun _ => ascCheckLength keyMaxLen key do
    itemGetAndUnlease key leaseToken
    return .reply .deleted

/-- `asc_process_qareg` -/
def ascProcessQareg (cfg : Int) (key tid : Bytes) : ServerM Outcome :=
  ascCheckConfig cfg fun _ => ascCheckLength keyMaxLen key <| ascCheckLength tidMaxLen tid do
    itemQuarantineAndRegister tid key
    return .reply .qInvLeasehold

/-- `asc_process_dar` -/
def ascProcessDar (cfg : Int) (tid : Bytes) : ServerM Outcome :=
  ascCheckConfig cfg fun _ => ascCheckLength tidMaxLen tid do
    if ← itemDeleteAndRelease tid then return .reply .deleted else return .reply .invalid

/-- `asc_process_qaread` -/
def ascProcessQaread (cfg : Int) (key : Bytes) (readValue : Int) (leaseToken : UInt64)
    (tid : Bytes) : ServerM Outcome :=
  ascCheckConfig cfg fun _ => ascCheckLength keyMaxLen key do
    let res ← itemQuarantineAndRead tid key leaseToken
    return .reply (.qaread (if readValue = 0 then none else res.it) res.newLeaseToken res.pending)

/-- `asc_process_iqincr_iqdecr`.  The transaction is taken from the position of the amount, so the
identifier that the client sent is not looked at. -/
def ascProcessIqDelta (incr : Bool) (cfg : Int) (key delta : Bytes) : ServerM Outcome :=
  ascCheckConfig cfg fun _ => ascCheckLength keyMaxLen key do
    match mcStrtoull delta with
    | none => return .reply .clientError
    | some amount => return .reply (ascIqDeltaReply (← itemIqincrIqdecr incr key amount delta))

/-- `asc_process_commit` -/
def ascProcessCommit (cfg frag : Int) (tid : Bytes) (pending : Int) : ServerM Outcome :=
  ascCheckLength tidMaxLen tid <| ascCheckConfig cfg fun server => do
    match ← itemCommit tid pending (fragConfig frag server) with
    | .ok => return .reply .ok
    | .notFound => return .reply .notFound
    | _ => return .reply .serverError

/-- `asc_process_release` -/
def ascProcessRelease (tid : Bytes) : ServerM Outcome :=
  ascCheckLength tidMaxLen tid do
    match ← itemRelease tid with
    | .ok => return .reply .ok
    | .notFound => return .reply .notFound
    | _ => return .reply .silent

/-- The answer to `iqget` and `iset`. -/
def ascIqgetReply (res : IqgetResult) : Reply :=
  match res.status, res.item with
  | .value, some it => .value it
  | .noValue, _ => .novalue
  | .miss, some it => .lvalue res.newLeaseToken it.p
  | .lease, some it => .lvalue res.newLeaseToken it.p
  | .serverError, _ => .serverError
  | _, _ => .silent

/-- `asc_process_iqget` and `asc_process_iset` -/
def ascProcessIqget (cfg : Int) (key : Bytes) (leaseToken : UInt64) (tid : Bytes)
    (override : Bool) : ServerM Outcome :=
  ascCheckConfig cfg fun _ => ascCheckLength keyMaxLen key do
    return .reply (ascIqgetReply (← itemIqget key leaseToken tid override))

/-- `asc_process_update_configuration` -/
def ascProcessUpdateConfiguration (number : Int) : ServerM Outcome := do
  modify fun s => { s with configurationNumber := number }
  return .reply .ok

/-- `asc_process_flushall`; without a delay `exptime` is `0`. -/
def ascProcessFlushall (exptime : Int) : ServerM Outcome := do
  let expiry ← timeReltime exptime
  modify fun s => { s with oldestLive := (if 0 < exptime then expiry else s.now) - 1 }
  itemFlushExpired
  return .reply .ok

/-- `asc_process_ciget` -/
def ascProcessCiget (sid key : Bytes) (leaseToken : UInt64) : ServerM Outcome :=
  ascCheckLength keyMaxLen key do
    let res ← itemCiget sid key leaseToken
    match res.status with
    | .ok =>
      if res.newLeaseToken ≠ 0 then
        let it ← deref res.item
        return .reply (.lvalue res.newLeaseToken it.p)
      else
        match res.item with
        | none => return .reply .novalue
        | some it => return .reply (.value it)
    | .retry => return .reply .retry
    | .abort => return .reply .abort
    | .invalid => return .reply .invalid
    | _ => return .reply .silent

/-- `asc_process_oqread` -/
def ascProcessOqread (sid key : Bytes) : ServerM Outcome :=
  ascCheckLength keyMaxLen key do
    match ← itemOqread sid key with
    | (.ok, some it) => return .reply (.value it)
    | (.ok, none) => return .reply .novalue
    | (.abort, _) => return .reply .abort
    | (.invalid, _) => return .reply .invalid
    | _ => return .reply .silent

/-- `asc_process_oqincr_oqdecr` -/
def ascProcessOqDelta (incr : Bool) (cfg : Int) (sid key delta : Bytes) : ServerM Outcome :=
  ascCheckConfig cfg fun _ => ascCheckLength keyMaxLen key do
    match mcStrtoull delta with
    | none => return .reply .clientError
    | some delta =>
      match ← itemOqincrOqdecr incr sid key delta with
      | (.ok, val) => return .reply (.number (decimal (← deref val)))
      | (.novalue, _) => return .reply .novalue
      | (.abort, _) => return .reply .abort
      | _ => return .reply .silent

/-- The answers of `oqreg`, `dcommit` and `counlease`; the last has no case for `CO_ABORT`. -/
def ascCoReply (aborts : Bool) : CoResult → Reply
  | .ok => .ok
  | .invalid => .invalid
  | .notFound => .notFound
  | .abort => if aborts then .abort else .serverError
  | _ => .serverError

/-- `asc_process_oqreg` -/
def ascProcessOqreg (sid key : Bytes) : ServerM Outcome :=
  ascCheckLength keyMaxLen sid <| ascCheckLength tidMaxLen key do
    return .reply (ascCoReply true (← itemOqreg sid key))

/-- `asc_process_dcommit` -/
def ascProcessDcommit (sid : Bytes) : ServerM Outcome :=
  ascCheckLength keyMaxLen sid do return .reply (ascCoReply true (← itemDcommit sid))

/-- `asc_process_co_unlease` -/
def ascProcessCoUnlease (sid : Bytes) : ServerM Outcome :=
  ascCheckLength keyMaxLen sid do return .reply (ascCoReply false (← itemCoUnlease sid))

/-- `asc_process_validate` -/
def ascProcessValidate (sid : Bytes) : ServerM Outcome := do
  match ← itemValidate sid with
  | .ok => return .reply .ok
  | .abort => return .reply .abort
  | _ => return .reply .invalid

/-- `asc_dispatch`: the handler of a request line. -/
def ascDispatch : Request → ServerM Outcome
  | .get _ cfg keys => ascProcessRead cfg keys
  | .update cmd cfg frag key flags exptime vlen =>
    ascProcessUpdate cmd cfg frag key flags exptime vlen
  | .arithmetic incr cfg key delta => ascProcessArithmetic incr cfg key delta
  | .delete cfg deleteLease keys => ascProcessDelete cfg deleteLease keys
  | .unlease cfg key leaseToken => ascProcessUnlease cfg key leaseToken
  | .qareg cfg key tid => ascProcessQareg cfg key tid
  | .dar cfg tid => ascProcessDar cfg tid
  | .qaread cfg key readValue leaseToken tid => ascProcessQaread cfg key readValue leaseToken tid
  | .sar cfg key flags exptime vlen leaseToken =>
    ascProcessSar cfg key flags exptime vlen leaseToken
  | .swap cfg frag key flags exptime vlen leaseToken =>
    ascProcessSwap cfg frag key flags exptime vlen leaseToken
  | .iqDelta incr cfg key delta _ => ascProcessIqDelta incr cfg key delta
  | .iqConcat append cfg key vlen tid => ascProcessIqConcat append cfg key vlen tid
  | .commit cfg frag tid pending => ascProcessCommit cfg frag tid pending
  | .release tid => ascProcessRelease tid
  | .iqget cfg key leaseToken => ascProcessIqget cfg key leaseToken [] false
  | .iset cfg key leaseToken tid => ascProcessIqget cfg key leaseToken tid true
  | .updateConfiguration number => ascProcessUpdateConfiguration number
  | .flushall exptime => ascProcessFlushall exptime
  | .ciget sid key leaseToken => ascProcessCiget sid key leaseToken
  | .oqread sid key => ascProcessOqread sid key
  | .oqswap sid key flags exptime vlen =>
    ascProcessOqwrite key flags exptime vlen (.oqswap (u8Name sid))
  | .oqwrite sid key flags exptime vlen =>
    ascProcessOqwrite key flags exptime vlen (.oqwrite (u8Name sid))
  | .oqDelta incr cfg sid key delta => ascProcessOqDelta incr cfg sid key delta
  | .oqConcat append sid key vlen => ascProcessOqConcat append sid key vlen
  | .oqreg sid key => ascProcessOqreg sid key
  | .dcommit sid => ascProcessDcommit sid
  | .coUnlease sid => ascProcessCoUnlease sid
  | .validate sid => ascProcessValidate sid

end Rejig
