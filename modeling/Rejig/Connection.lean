import Rejig.Line
import Mathlib.Logic.Relation

/-!
# Connections

`core_drive_machine` serves a connection: it reads into a buffer, cuts a line off the buffer and
hands it to its handler, reads or swallows the body of a command, and writes the answer.  The bytes
that the client sends over the connection are a list, `stream`, and `Conn.pos` is the position in it
up to which the server has used them up.  The numbers of bytes are the `int`s of the source.

`body_consumed_iff` says for which lines the body is what follows the line.  A handler that refuses
a line sets `write_and_go`, which is looked at when the answer has been written: if the client wants
no answer, `asc_write_string` has already moved the connection on to the next command.
-/

namespace Rejig

open Prog Relation List

variable {noreply : Bool} {p : Pending} {m : Int}

/-- `conn_state_t`, for a connection that is served. -/
inductive ConnState where
  | wait
  | read
  | parse
  | newCmd
  | nread
  | swallow
  | write
  | mwrite
  | close
deriving DecidableEq, Repr

/-- The connection has not finished with the last line. -/
def ConnState.busy : ConnState → Bool
  | nread | swallow | write | mwrite => true
  | _ => false

/-- The connection is on its way to the next line. -/
def ConnState.idle : ConnState → Bool
  | wait | read | parse | newCmd => true
  | _ => false

/-- `struct conn` -/
structure Conn where
  state : ConnState := .newCmd
  /-- The state after an answer has been written. -/
  writeAndGo : ConnState := .newCmd
  noreply : Bool := false
  /-- How many bytes of the stream have been used up. -/
  pos : Int := 0
  /-- The number of bytes in the buffer that have not been used up. -/
  rbytes : Int := 0
  /-- The number of bytes that the body still needs. -/
  rlbytes : Int := 0
  /-- The number of bytes that are still to be swallowed. -/
  sbytes : Int := 0
  /-- The request that waits for its body. -/
  item : Option Pending := none
deriving DecidableEq, Repr

/-- The conversion to `int`. -/
def toInt (n : Int) : Int := n.bmod (2 ^ 32)

/-- `CRLF_LEN` -/
def crlfLen : Nat := 2

namespace Conn

/-- The bytes in the buffer. -/
def buffered (k : Conn) (stream : Bytes) : Bytes := (stream.drop k.pos.toNat).take k.rbytes.toNat

/-- `asc_write_string` -/
def writeString (k : Conn) : Conn :=
  if k.noreply then { k with noreply := false, state := .newCmd }
  else { k with state := .write, writeAndGo := .newCmd }

/-- The answers to commands with a body.  Those of the incremental updates are not written by
`asc_write_string`. -/
def reply (k : Conn) : Reply → Conn
  | .silent => k
  | .okPending .. => { k with state := .write, writeAndGo := .newCmd }
  | .okNovaluePending .. => { k with state := .mwrite }
  | _ => k.writeString

/-- How a handler leaves the connection, and `asc_parse` after it; `len` is the length of the
line. -/
def handled (k : Conn) (len : Nat) (r : Handled) : Conn :=
  let k := match r.outcome with
    | .reply reply => k.reply reply
    | .nread p => { k with state := .nread, rlbytes := toInt (p.vlen + crlfLen), item := some p }
  let k := match r.swallow with
    | some vlen => { k with writeAndGo := .swallow, sbytes := toInt (vlen + crlfLen) }
    | none => k
  { k with pos := k.pos + len, rbytes := k.rbytes - len }

/-- How many of the bytes in the buffer are taken if `left` are wanted. -/
def tocopy (k : Conn) (left : Int) : Int := if left < k.rbytes then left else k.rbytes

/-- The bytes that have been read for a body. -/
def body (k : Conn) (stream : Bytes) (p : Pending) : Bytes :=
  (stream.drop (k.pos - (p.vlen + crlfLen : Nat)).toNat).take (p.vlen + crlfLen)

end Conn

/-- `asc_parse` for the line of a command with a body; `line` is without its line feed. -/
def ascParse (type : Storage) (line : Bytes) (k : Conn) : ServerM Conn := do
  let t := ascTokenize (ascCommand line)
  let k := { k with noreply := k.noreply || ascNoreply t }
  let r ← if ascNtokenValid type k.noreply (t.length + 1) then ascStorageLine type t
    else pure .clientError
  return k.handled (line.length + 1) r

/-- The steps of `core_drive_machine`. -/
inductive Conn.Step (c : Settings) (stream : Bytes) (k : Conn) : Conn → Prop
  | wait : k.state = .wait → Step c stream k { k with state := .read }
  | read (n : Nat) : k.state = .read → 0 < n → k.pos + k.rbytes + n ≤ stream.length →
      Step c stream k { k with rbytes := k.rbytes + n, state := .parse }
  | readNothing : k.state = .read → Step c stream k { k with state := .wait }
  | newCmd : k.state = .newCmd →
      Step c stream k { k with state := if 0 < k.rbytes then .parse else .wait, item := none }
  | noLine : k.state = .parse → 0x0a ∉ k.buffered stream → Step c stream k { k with state := .wait }
  | line {type : Storage} {line : Bytes} {s s' : Server} {k' : Conn} : k.state = .parse →
      0x0a ∉ line →
      line ++ [0x0a] <+: k.buffered stream →
      ascParseType type (ascTokenize (ascCommand line)) = true →
      Prog.run (ascParse type line k) c s = some (k', s') → Step c stream k k'
  /-- The line of a command without a body; its handler answers, or closes the connection. -/
  | otherLine {line : Bytes} {state : ConnState} : k.state = .parse → 0x0a ∉ line →
      line ++ [0x0a] <+: k.buffered stream →
      (∀ type, ascParseType type (ascTokenize (ascCommand line)) = false) →
      state ∈ [.write, .mwrite, .newCmd, .parse, .close] →
      Step c stream k { k with
        state := state, writeAndGo := .newCmd
        pos := k.pos + (line.length + 1), rbytes := k.rbytes - (line.length + 1) }
  | nread : k.state = .nread → k.rlbytes ≠ 0 → 0 < k.rbytes →
      Step c stream k { k with
        rlbytes := k.rlbytes - k.tocopy k.rlbytes, pos := k.pos + k.tocopy k.rlbytes
        rbytes := k.rbytes - k.tocopy k.rlbytes }
  | nreadSocket (n : Nat) : k.state = .nread → k.rlbytes ≠ 0 → ¬ 0 < k.rbytes → 0 < n →
      n ≤ k.rlbytes →
      k.pos + k.rbytes + n ≤ stream.length →
      Step c stream k { k with rlbytes := k.rlbytes - n, pos := k.pos + n }
  | complete {p : Pending} {r : Reply} {s s' : Server} : k.state = .nread → k.rlbytes = 0 →
      k.item = some p → Prog.run (ascCompleteNread p (k.body stream p)) c s = some (r, s') →
      Step c stream k { k.reply r with item := none }
  | swallowed : k.state = .swallow → k.sbytes = 0 → Step c stream k { k with state := .newCmd }
  | swallow : k.state = .swallow → k.sbytes ≠ 0 → 0 < k.rbytes →
      Step c stream k { k with
        sbytes := k.sbytes - k.tocopy k.sbytes, pos := k.pos + k.tocopy k.sbytes
        rbytes := k.rbytes - k.tocopy k.sbytes }
  | swallowSocket (n : Nat) : k.state = .swallow → k.sbytes ≠ 0 → ¬ 0 < k.rbytes → 0 < n →
      (0 < k.sbytes → n ≤ k.sbytes) → k.pos + k.rbytes + n ≤ stream.length →
      Step c stream k { k with sbytes := k.sbytes - n, pos := k.pos + n }
  | write : k.state = .write → Step c stream k { k with state := k.writeAndGo }
  | mwrite : k.state = .mwrite → Step c stream k { k with state := .newCmd }
  /-- The client has gone, or there is an error on the socket. -/
  | close : Step c stream k { k with state := .close }

/-- The connection finishes with a line, as far as it gets. -/
def Conn.Serves (c : Settings) (stream : Bytes) : Conn → Conn → Prop :=
  ReflTransGen fun k k' => k.state.busy = true ∧ k.Step c stream k'

/-- The line of a command with a body whose tokens are counted right and whose length is a decimal
number. -/
structure IsHeader (type : Storage) (noreply : Bool) (line : Bytes) (n : Nat) : Prop where
  oneLine : 0x0a ∉ line
  command : ascParseType type (ascTokenize (ascCommand line)) = true
  count : ascNtokenValid type (noreply || ascNoreply (ascTokenize (ascCommand line)))
    ((ascTokenize (ascCommand line)).length + 1) = true
  length : ∃ w, (ascTokenize (ascCommand line))[type.vlenAt]? = some w ∧ w.IsDecimal n

/-- The handler of a line returns, and after the line a connection consumes `n` bytes before it
turns to the next line. -/
def ConsumesBody (c : Settings) (s : Server) (type : Storage) (noreply : Bool)
    (line : Bytes) (n : Nat) : Prop :=
  ∀ (stream : Bytes) (k : Conn), k.state = .parse → k.noreply = noreply →
    line ++ [0x0a] <+: k.buffered stream →
    ∃ k₁ s', Prog.run (ascParse type line k) c s = some (k₁, s') ∧
      ∀ k₂, k₁.Serves c stream k₂ → k₂.state.idle = true → k₂.pos = k.pos + (line.length + 1) + n

section Consumes

variable {c : Settings} {stream : Bytes} {k k' : Conn} {n : Nat} {r : Handled} {target : Int}

theorem toInt_of_lt (h₀ : 0 ≤ m) (h : m < 2 ^ 31) : toInt m = m := by
  rw [toInt, Int.bmod_def]
  split <;> omega

theorem toInt_of_le (h₀ : 2 ^ 31 ≤ m) (h : m < 2 ^ 32 + 2) : toInt m ≤ 1 := by
  rw [toInt, Int.bmod_def]
  split <;> omega

/-- What a connection is about to do reaches the position `target` before the next line. -/
inductive Conn.Aims (target : Int) (k : Conn) : Prop
  | nread : k.state = .nread → 0 ≤ k.rlbytes → k.pos + k.rlbytes = target → Aims target k
  | swallow : k.state = .swallow → 0 ≤ k.sbytes → k.pos + k.sbytes = target → Aims target k
  | write : k.state = .write → k.writeAndGo = .swallow → 0 ≤ k.sbytes → k.pos + k.sbytes = target →
      Aims target k
  | written : k.state = .write → k.writeAndGo = .newCmd → k.pos = target → Aims target k
  | mwrite : k.state = .mwrite → k.pos = target → Aims target k
  | newCmd : k.state = .newCmd → k.pos = target → Aims target k
  | close : k.state = .close → Aims target k

theorem Conn.tocopy_bounds {left : Int} (hleft : 0 ≤ left) (hbytes : 0 < k.rbytes) :
    0 ≤ k.tocopy left ∧ k.tocopy left ≤ left := by
  rw [tocopy]
  split <;> omega

theorem Conn.Aims.reply {r : Reply} (hstate : k.state = .nread) (hleft : k.rlbytes = 0)
    (hpos : k.pos = target) : Conn.Aims target { k.reply r with item := none } := by
  have hstring : Conn.Aims target { k.writeString with item := none } := by
    rw [Conn.writeString]
    split
    · exact .newCmd rfl hpos
    · exact .written rfl rfl hpos
  cases r with
  | silent => exact .nread hstate hleft.ge (by rw [← hpos, ← add_zero k.pos, ← hleft]; rfl)
  | okPending => exact .written rfl rfl hpos
  | okNovaluePending => exact .mwrite rfl hpos
  | _ => exact hstring

/-- A step of a busy connection keeps its aim. -/
theorem Conn.Aims.step (h : k.Aims target) (hbusy : k.state.busy = true)
    (hstep : k.Step c stream k') :
    k'.Aims target := by
  cases hstep with
  | wait hs | read _ hs | readNothing hs | newCmd hs | noLine hs | line hs | otherLine hs =>
    rw [hs] at hbusy
    cases hbusy
  | close => exact .close rfl
  | nread hs hne hbytes =>
    cases h with
    | nread _ hleft hpos =>
      obtain ⟨hcopy, hcopy'⟩ := tocopy_bounds hleft hbytes
      refine .nread hs ?_ ?_ <;> dsimp only <;> omega
    | _ hs' => rw [hs] at hs'; cases hs'
  | nreadSocket n hs hne hbytes hn hle harrived =>
    cases h with
    | nread _ hleft hpos => refine .nread hs ?_ ?_ <;> dsimp only <;> omega
    | _ hs' => rw [hs] at hs'; cases hs'
  | complete hs hleft hitem hrun =>
    cases h with
    | nread _ _ hpos => exact .reply hs hleft (by omega)
    | _ hs' => rw [hs] at hs'; cases hs'
  | swallowed hs hleft =>
    cases h with
    | swallow _ _ hpos => exact .newCmd rfl (by dsimp only; omega)
    | _ hs' => rw [hs] at hs'; cases hs'
  | swallow hs hne hbytes =>
    cases h with
    | swallow _ hleft hpos =>
      obtain ⟨hcopy, hcopy'⟩ := tocopy_bounds hleft hbytes
      refine .swallow hs ?_ ?_ <;> dsimp only <;> omega
    | _ hs' => rw [hs] at hs'; cases hs'
  | swallowSocket n hs hne hbytes hn hle harrived =>
    cases h with
    | swallow _ hleft hpos =>
      have hle := hle (by omega)
      refine .swallow hs ?_ ?_ <;> dsimp only <;> omega
    | _ hs' => rw [hs] at hs'; cases hs'
  | write hs =>
    cases h with
    | write _ hgo hleft hpos => exact .swallow hgo hleft hpos
    | written _ hgo hpos => exact .newCmd hgo hpos
    | _ hs' => rw [hs] at hs'; cases hs'
  | mwrite hs =>
    cases h with
    | mwrite _ hpos => exact .newCmd rfl hpos
    | _ hs' => rw [hs] at hs'; cases hs'

theorem Conn.Aims.serves (h : k.Aims target) (hserves : k.Serves c stream k') : k'.Aims target := by
  induction hserves with
  | refl => exact h
  | tail _ hstep ih => exact ih.step hstep.1 hstep.2

theorem Conn.Aims.pos_eq (h : k.Aims target) (hidle : k.state.idle = true) : k.pos = target := by
  cases h with
  | newCmd _ hpos => exact hpos
  | nread hs | swallow hs | write hs | written hs | mwrite hs | close hs =>
    rw [hs] at hidle
    cases hidle

/-- After a line that frames its body the connection aims at the end of the body. -/
theorem Conn.aims_handled (len : Nat) (h : r.Frames k.noreply n) (hr : r.Regular) :
    (k.handled len r).Aims (k.pos + len + n) := by
  match r with
  | ⟨.nread p, none⟩ =>
    obtain rfl : p.vlen + 2 = n := h
    have hlt : p.vlen + 2 < 2 ^ 31 := hr
    have hleft : toInt (p.vlen + crlfLen) = p.vlen + 2 :=
      toInt_of_lt (by omega) (by simp [crlfLen]; omega)
    refine .nread rfl ?_ ?_ <;> simp only [handled, hleft] <;> omega
  | ⟨.reply r, some vlen⟩ =>
    obtain ⟨hsilent, hreply, hlt, rfl⟩ := h
    obtain ⟨hr, -⟩ := hr
    have hleft : toInt (vlen + crlfLen) = vlen + 2 :=
      toInt_of_lt (by omega) (by simp [crlfLen]; omega)
    have hstate : k.reply r = { k with state := .write, writeAndGo := .newCmd } := by
      rcases hr with rfl | rfl | rfl
      · simp [reply, writeString, hreply]
      · exact absurd rfl hsilent
      · simp [reply, writeString, hreply]
    refine .write ?_ ?_ ?_ ?_ <;> simp only [handled, hstate, hleft] <;> omega

/-! ## Lines whose body is taken for something else -/

/-- A connection that writes an answer goes on. -/
theorem Conn.serves_writeString (hgo : k.state = .write → k.writeAndGo = .newCmd)
    (hs : k.state = .write ∨ k.state = .newCmd) :
    ∃ k', k.Serves c stream k' ∧ k'.state.idle = true ∧ k'.pos = k.pos := by
  rcases hs with hs | hs
  · refine ⟨_, .single ⟨by rw [hs]; rfl, .write hs⟩, ?_, rfl⟩
    show k.writeAndGo.idle = true
    rw [hgo hs]
    rfl
  · exact ⟨k, .refl, by rw [hs]; rfl, rfl⟩

/-- A connection that swallows no more than what is in its buffer. -/
theorem Conn.serves_swallow (hs : k.state = .swallow) (hbytes : 0 < k.rbytes)
    (hle : k.sbytes ≤ k.rbytes) :
    ∃ k', k.Serves c stream k' ∧ k'.state.idle = true ∧ k'.pos = k.pos + k.sbytes := by
  have hbusy : k.state.busy = true := by rw [hs]; rfl
  by_cases hzero : k.sbytes = 0
  · exact ⟨_, .single ⟨hbusy, .swallowed hs hzero⟩, rfl, by simp [hzero]⟩
  · have hcopy : k.tocopy k.sbytes = k.sbytes := by
      rw [tocopy]
      split <;> omega
    have hlast := (Step.swallow hs hzero hbytes : k.Step c stream _)
    rw [hcopy] at hlast
    exact ⟨_, .head ⟨hbusy, hlast⟩ (.single ⟨hbusy, .swallowed hs (sub_self _)⟩), rfl, rfl⟩

/-- The answer to a body that does not end as it should. -/
theorem run_ascCompleteNread_of_bad {body : Bytes} {s : Server}
    (h : body.drop p.vlen ≠ [0x0d, 0x0a]) :
    Prog.run (ascCompleteNread p body) c s = some (.clientError, s) := by
  rw [ascCompleteNread, if_pos h, run_pure]

/-- A connection that has read a bad body. -/
theorem Conn.serves_complete (hs : k.state = .nread) (hitem : k.item = some p)
    (hleft : k.rlbytes = 0) (hbad : (k.body stream p).drop p.vlen ≠ [0x0d, 0x0a]) :
    ∃ k', k.Serves c stream k' ∧ k'.state.idle = true ∧ k'.pos = k.pos := by
  have hcomplete : k.Step c stream { k.writeString with item := none } :=
    .complete hs hleft hitem (run_ascCompleteNread_of_bad hbad (s := .start))
  have hbusy : k.state.busy = true := by rw [hs]; rfl
  obtain ⟨k', hserves, hidle, hpos⟩ : ∃ k', Serves c stream { k.writeString with item := none } k' ∧
      k'.state.idle = true ∧ k'.pos = k.writeString.pos :=
    serves_writeString (by rw [writeString]; split <;> simp) (by rw [writeString]; split <;> simp)
  refine ⟨k', .head ⟨hbusy, hcomplete⟩ hserves, hidle, hpos.trans ?_⟩
  rw [writeString]
  split <;> rfl

/-- A connection that has a bad body in its buffer. -/
theorem Conn.serves_nread (hs : k.state = .nread) (hitem : k.item = some p)
    (hleft : k.rlbytes = p.vlen + 2) (hbytes : k.rbytes = p.vlen + 2)
    (hbad : ∀ k' : Conn, k'.pos = k.pos + (p.vlen + 2) →
      (k'.body stream p).drop p.vlen ≠ [0x0d, 0x0a]) :
    ∃ k', k.Serves c stream k' ∧ k'.state.idle = true ∧ k'.pos = k.pos + (p.vlen + 2) := by
  have hcopy : k.tocopy k.rlbytes = k.rlbytes := by
    rw [tocopy]
    split <;> omega
  have hread : k.Step c stream _ := .nread hs (by omega) (by omega)
  rw [hcopy, sub_self, hleft] at hread
  obtain ⟨k', hserves, hidle, hpos⟩ := serves_complete (c := c) (k := { k with
    rlbytes := 0, pos := k.pos + (p.vlen + 2), rbytes := k.rbytes - (p.vlen + 2) }) hs hitem rfl
      (hbad _ rfl)
  exact ⟨k', .head ⟨by rw [hs]; rfl, hread⟩ hserves, hidle, hpos⟩

/-- A connection that has a line and some more bytes in its buffer. -/
def Conn.before (noreply : Bool) (line rest : Bytes) : Conn :=
  { state := .parse, noreply := noreply, rbytes := line.length + 1 + rest.length }

theorem Conn.pos_reply {reply : Reply} : (k.reply reply).pos = k.pos := by
  cases reply with
  | silent | okPending | okNovaluePending => rfl
  | _ =>
    simp only [Conn.reply, writeString]
    split <;> rfl

/-- A refused line leaves an idle connection, or one that writes its answer. -/
theorem Conn.state_reply {reply : Reply} (hk : k.state = .parse)
    (hr : reply = .clientError ∨ reply = .crash ∨ reply = .silent ∨ reply = .serverError) :
    (k.reply reply).state.idle = true ∨
      reply ≠ .silent ∧ k.noreply = false ∧
      k.reply reply = { k with state := .write, writeAndGo := .newCmd } := by
  have hstring : k.writeString.state.idle = true ∨
      k.noreply = false ∧ k.writeString = { k with state := .write, writeAndGo := .newCmd } := by
    rw [writeString]
    cases k.noreply with
    | true => exact .inl rfl
    | false => exact .inr ⟨rfl, rfl⟩
  rcases hr with rfl | rfl | rfl | rfl
  · exact hstring.imp_right fun h => ⟨nofun, h⟩
  · exact hstring.imp_right fun h => ⟨nofun, h⟩
  · exact .inl (by rw [Conn.reply, hk]; rfl)
  · exact hstring.imp_right fun h => ⟨nofun, h⟩

/-- The connection can turn to the next line at another place than after `n` bytes. -/
def Conn.Misses (c : Settings) (noreply : Bool) (line : Bytes) (n : Nat) (r : Handled) : Prop :=
  ∃ (rest : Bytes) (k₂ : Conn),
    ((before noreply line rest).handled (line.length + 1) r).Serves c (line ++ 0x0a :: rest) k₂ ∧
    k₂.state.idle = true ∧ k₂.pos ≠ line.length + 1 + n

/-- The body is shorter or longer than the line says. -/
theorem Conn.misses_nread (line : Bytes) (hlt : p.vlen + 2 < 2 ^ 31) (hne : p.vlen + 2 ≠ n) :
    Misses c noreply line n ⟨.nread p, none⟩ := by
  refine ⟨.replicate (p.vlen + 2) 0, ?_⟩
  have hleft : toInt (p.vlen + crlfLen) = p.vlen + 2 :=
    toInt_of_lt (by omega) (by simp [crlfLen]; omega)
  obtain ⟨k₂, hserves, hidle, hpos⟩ : ∃ k₂, Serves c (line ++ 0x0a :: .replicate (p.vlen + 2) 0)
      ((before noreply line (.replicate (p.vlen + 2) 0)).handled (line.length + 1)
        ⟨.nread p, none⟩) k₂ ∧
      k₂.state.idle = true ∧ k₂.pos = _ + (p.vlen + 2) := by
    refine serves_nread ?_ ?_ ?_ ?_ fun k' hk' => ?_
    · simp only [handled]
    · simp only [handled]
    · simp only [handled, hleft]
    · simp [handled, before]
    · have hstart : (k'.pos - (p.vlen + crlfLen : Nat)).toNat = line.length + 1 := by
        rw [hk']
        simp [handled, before, crlfLen]
      have hdrop : (line ++ 0x0a :: List.replicate (p.vlen + 2) (0 : UInt8)).drop
        (line.length + 1) = .replicate (p.vlen + 2) 0 := by
        simp [← drop_drop]
      rw [body, hstart, hdrop]
      simp [crlfLen]
  refine ⟨k₂, hserves, hidle, ?_⟩
  rw [hpos]
  simp only [handled, before]
  omega

/-- The body is not swallowed. -/
theorem Conn.misses_reply {reply : Reply} (line : Bytes) (hn : 0 < n)
    (hr : reply = .clientError ∨ reply = .crash ∨ reply = .silent ∨ reply = .serverError) :
    Misses c noreply line n ⟨.reply reply, none⟩ := by
  refine ⟨[], ?_⟩
  have hpos : ((before noreply line []).handled (line.length + 1) ⟨.reply reply, none⟩).pos =
      line.length + 1 := by
    simp [handled, pos_reply, before]
  obtain hidle | ⟨-, -, hwrite⟩ := state_reply (k := before noreply line []) rfl hr
  · exact ⟨_, .refl, hidle, by omega⟩
  · refine ⟨_, .single ⟨?_, .write ?_⟩, ?_, ?_⟩
    · simp only [handled, hwrite]
      rfl
    · simp only [handled, hwrite]
    · simp only [handled, hwrite]
      rfl
    · dsimp only
      omega

/-- Another number of bytes is swallowed than the line says, or none. -/
theorem Conn.misses_swallow {reply : Reply} {vlen : Nat} (line : Bytes) (hn : 2 ≤ n)
    (hvlen : vlen < 2 ^ 32) (hr : reply = .clientError ∨ reply = .crash ∨ reply = .silent ∨
      reply = .serverError) (hne : reply ≠ .silent → noreply = false → vlen + 2 < 2 ^ 31 →
      vlen + 2 ≠ n) :
    Misses c noreply line n ⟨.reply reply, some vlen⟩ := by
  have hmisses : toInt (vlen + crlfLen) ≤ vlen + 2 ∧
      (reply ≠ .silent → noreply = false → toInt (vlen + crlfLen) ≠ n) := by
    by_cases hlt : vlen + 2 < 2 ^ 31
    · rw [toInt_of_lt (by omega) (by simp [crlfLen]; omega)]
      refine ⟨by simp [crlfLen], fun hs hno heq => hne hs hno hlt ?_⟩
      simp only [crlfLen] at heq
      omega
    · have hle : toInt (vlen + crlfLen) ≤ 1 :=
        toInt_of_le (by simp [crlfLen]; omega) (by simp [crlfLen]; omega)
      exact ⟨by omega, fun _ _ => by omega⟩
  generalize hsbytes : toInt (vlen + crlfLen) = sbytes at hmisses
  refine ⟨.replicate (vlen + 2) 0, ?_⟩
  generalize hrest : List.replicate (vlen + 2) (0 : UInt8) = rest
  obtain hidle | ⟨hsilent, hreply, hwrite⟩ := state_reply (k := before noreply line rest) rfl hr
  · refine ⟨_, .refl, hidle, ?_⟩
    simp only [handled, pos_reply, before]
    omega
  · have hbytes : rest.length = vlen + 2 := by rw [← hrest, length_replicate]
    obtain ⟨k₂, hserves, hidle, hpos⟩ : ∃ k₂, Serves c (line ++ 0x0a :: rest)
        { before noreply line rest with
          state := .swallow, writeAndGo := .swallow, sbytes := sbytes
          pos := 0 + (line.length + 1 : Nat)
          rbytes := (before noreply line rest).rbytes - (line.length + 1 : Nat) } k₂ ∧
        k₂.state.idle = true ∧ k₂.pos = 0 + (line.length + 1 : Nat) + sbytes := by
      refine serves_swallow rfl ?_ ?_
      · simp only [before]
        omega
      · simp only [before]
        omega
    have hfirst : Step c (line ++ 0x0a :: rest)
        ((before noreply line rest).handled (line.length + 1) ⟨.reply reply, some vlen⟩) _ :=
      .write (by simp only [handled, hwrite])
    simp only [handled, hwrite, hsbytes] at hfirst ⊢
    refine ⟨k₂, .head ⟨rfl, hfirst⟩ hserves, hidle, ?_⟩
    have hne := hmisses.2 hsilent hreply
    omega

/-- After a line that does not frame its body the connection can go wrong. -/
theorem Conn.misses_of_not_frames (line : Bytes) (hr : r.Regular) (h : ¬ r.Frames noreply (n + 2)) :
    Misses c noreply line (n + 2) r := by
  match r with
  | ⟨.nread p, none⟩ => exact misses_nread line hr h
  | ⟨.reply reply, none⟩ =>
    have hr : reply = .clientError ∨ reply = .crash ∨ reply = .silent := hr
    exact misses_reply line (by omega) (hr.imp_right fun hr => hr.imp_right .inl)
  | ⟨.reply reply, some vlen⟩ =>
    refine misses_swallow line (by omega) hr.2 (.inr hr.1) fun hsilent hreply hlt heq => ?_
    exact h ⟨hsilent, hreply, hlt, heq⟩

variable {s : Server} {type : Storage} {line : Bytes}

/-- What a connection does with a line is what its handler leaves behind. -/
theorem run_ascParse {s' : Server} (hcount : ascNtokenValid type
      (k.noreply || ascNoreply (ascTokenize (ascCommand line)))
      ((ascTokenize (ascCommand line)).length + 1) = true)
    (hrun : Prog.run (ascStorageLine type (ascTokenize (ascCommand line))) c s = some (r, s')) :
    Prog.run (ascParse type line k) c s = some (Conn.handled { k with
      noreply := k.noreply || ascNoreply (ascTokenize (ascCommand line)) }
        (line.length + 1) r, s') := by
  rw [ascParse]
  dsimp only
  rw [if_pos hcount, run_bind, hrun]
  rfl

theorem Conn.buffered_before (noreply : Bool) (line rest : Bytes) :
    line ++ [0x0a] <+: (before noreply line rest).buffered (line ++ 0x0a :: rest) := by
  have hall : (before noreply line rest).buffered (line ++ 0x0a :: rest) =
    line ++ 0x0a :: rest := by
    rw [buffered, before]
    exact take_of_length_le (by simp; omega)
  rw [hall]
  exact ⟨rest, by simp⟩

/-- A connection consumes the `n` bytes of a body with their line end before it turns to the next
line, exactly if the condition holds. -/
theorem body_consumed_iff (hc : c.maxChunkSize ≤ slabMaxSize) (h : IsHeader type noreply line n) :
    ConsumesBody c s type noreply line (n + 2) ↔
      Framed c s (noreply || ascNoreply (ascTokenize (ascCommand line))) type
        (ascTokenize (ascCommand line)) n := by
  obtain ⟨w, hw, hdec⟩ := h.length
  have hrest := head_drop_of_mem_ascTokenize (mem_of_getElem? hw)
  have hsettles : Settles c s (noreply || ascNoreply (ascTokenize (ascCommand line))) type _ n _ :=
    settles_ascStorageLine hc (le_length_of_ascNtokenValid h.count) hw hrest hdec
  constructor
  · intro hconsumes
    obtain ⟨r, s', hr⟩ : ∃ r s', Prog.run
      (ascStorageLine type (ascTokenize (ascCommand line))) c s = some (r, s') := by
      obtain ⟨k₁, s', hrun, -⟩ :=
        hconsumes _ (.before noreply line []) rfl rfl (Conn.buffered_before ..)
      rw [ascParse] at hrun
      dsimp only at hrun
      rw [Conn.before, if_pos h.count, run_bind] at hrun
      obtain ⟨⟨r, s'⟩, hr, -⟩ := Option.bind_eq_some_iff.mp hrun
      exact ⟨r, s', hr⟩
    obtain ⟨hregular, hiff⟩ := hsettles.judged r s' hr
    rw [← hiff]
    by_contra hframes
    obtain ⟨rest, k₂, hserves, hidle, hne⟩ :=
      Conn.misses_of_not_frames (c := c) line hregular hframes
    obtain ⟨k₁, s'', hrun, hall⟩ :=
      hconsumes _ (.before noreply line rest) rfl rfl (Conn.buffered_before ..)
    have hrun' := run_ascParse (k := .before noreply line rest) h.count hr
    rw [hrun] at hrun'
    cases hrun'
    refine hne ((hall k₂ hserves hidle).trans ?_)
    simp [Conn.before]
  · rintro hframed stream k - rfl -
    obtain ⟨r, s', hr, -⟩ := hsettles.returns hframed
    obtain ⟨hregular, hiff⟩ := hsettles.judged r s' hr
    refine ⟨_, s', run_ascParse h.count hr, fun k₂ hserves hidle => ?_⟩
    have haims := Conn.aims_handled (k := { k with noreply := _ }) (line.length + 1)
      (hiff.mpr hframed)
      hregular
    have hpos := (haims.serves hserves).pos_eq hidle
    push_cast at hpos ⊢
    exact hpos

end Consumes

/-- `set 0 -1 k 0 0 1` -/
def setLine : Bytes := ofChars ['s', 'e', 't', ' ', '0', ' ', '-', '1', ' ', 'k', ' ', '0', ' ',
        '0', ' ', '1']

/-- The body of a `set` that the server accepts. -/
theorem body_consumed_iff_set :
    IsHeader .set false setLine 1 ∧ ConsumesBody {} .start .set false setLine 3 := by
  have h : IsHeader .set false setLine 1 :=
    ⟨by decide, by decide, by decide, _, rfl, by decide +kernel⟩
  refine ⟨h, (body_consumed_iff (by decide) h).mpr ⟨by decide, by decide, by decide, .inl ?_⟩⟩
  exact ⟨by decide, by decide, .inl rfl⟩

/-- `set 7 -1 k 0 0 9 noreply` -/
def refusedLine : Bytes :=
  ofChars ['s', 'e', 't', ' ', '7', ' ', '-', '1', ' ', 'k', ' ', '0', ' ', '0', ' ', '9', ' ',
    'n', 'o', 'r', 'e', 'p', 'l', 'y']

/-- `flush_all` with its line end, nine bytes that a client stores. -/
def flushBody : Bytes := ofChars ['f', 'l', 'u', 's', 'h', '_', 'a', 'l', 'l'] ++ [0x0d, 0x0a]

/-- A `set` with the configuration number of another server, whose client wants no answer: the body
is the next line. -/
theorem body_parsed_as_line : IsHeader .set false refusedLine 9 ∧
    ¬ ConsumesBody {} .start .set false refusedLine 11 ∧
    ∃ k₁ k₂ s', Prog.run (ascParse .set refusedLine (.before false refusedLine flushBody))
      {} .start = some (k₁, s') ∧ k₁.Step {} (refusedLine ++ 0x0a :: flushBody) k₂ ∧
    k₂.state = .parse ∧
      k₂.buffered (refusedLine ++ 0x0a :: flushBody) = flushBody := by
  have htest : ((Prog.run (ascParse .set refusedLine (.before false refusedLine flushBody))
    {} .start).any fun r => r.1.state = .newCmd && r.1.pos = 25 && r.1.rbytes = 11) = true := by
    decide +kernel
  obtain ⟨⟨k₁, s'⟩, hrun, htest⟩ := (Option.any_eq_true _ _).mp htest
  simp only [Bool.and_eq_true, decide_eq_true_eq] at htest
  obtain ⟨⟨hstate, hpos⟩, hbytes⟩ := htest
  refine ⟨⟨by decide, by decide, by decide, _, rfl, by decide +kernel⟩, fun h => ?_, k₁, _, s',
    hrun, .newCmd hstate,
    by simp [hbytes], ?_⟩
  · obtain ⟨k, s'', hrun', hall⟩ := h _ (.before false refusedLine flushBody) rfl rfl
      (Conn.buffered_before ..)
    rw [hrun] at hrun'
    cases hrun'
    have hwrong := hall k₁ .refl (by rw [hstate]; rfl)
    rw [hpos] at hwrong
    exact absurd hwrong (by decide)
  · simp only [Conn.buffered, hpos, hbytes]
    decide

end Rejig
