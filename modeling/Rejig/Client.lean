import Rejig.FieldSafety

/-!
# The requests of the Java client

`MemcachedClient` turns every call into one line, words with a blank between them: the name of a
command, the client's configuration number, and then the arguments.  Names pass through
`sanitizeKey`, which by default is `URLEncoder.encode`; some methods leave it out for transaction
identifiers.

`Call N` is a call with the names that the method was given (`N` is `JString`) or with those that it
writes (`N` is `Bytes`), and `Call.send` the way from one to the other.
-/

namespace Rejig

open Option List

/-! ## Strings -/

/-- `java.lang.String`: UTF-16 code units, in which a surrogate may lack its partner. -/
abbrev JString := List UInt16

/-- `Character.isHighSurrogate` -/
def isHighSurrogate (u : UInt16) : Bool := 0xd800 ≤ u && u ≤ 0xdbff

/-- `Character.isLowSurrogate` -/
def isLowSurrogate (u : UInt16) : Bool := 0xdc00 ≤ u && u ≤ 0xdfff

/-- The character of a code unit; a surrogate alone has none. -/
def unitChar (u : UInt16) : Option Char :=
  if isHighSurrogate u || isLowSurrogate u then none else some (.ofNat u.toNat)

/-- `Character.toCodePoint` -/
def toCodePoint (u v : UInt16) : Char :=
  .ofNat (0x10000 + (u.toNat - 0xd800) * 0x400 + (v.toNat - 0xdc00))

/-- The characters of a string. -/
def chars : JString → List (Option Char)
  | [] => []
  | [u] => [unitChar u]
  | u :: v :: s =>
    if isHighSurrogate u && isLowSurrogate v then some (toCodePoint u v) :: chars s
    else unitChar u :: chars (v :: s)

/-- The bytes of a character in UTF-8; a surrogate alone becomes a question mark. -/
def charBytes : Option Char → Bytes
  | none => [0x3f]
  | some c => String.utf8EncodeChar c

/-- `String.getBytes`, where UTF-8 is the default. -/
def getBytes (s : JString) : Bytes := (chars s).flatMap charBytes

/-- The characters that `URLEncoder` leaves alone. -/
def unreserved : Option Char → Bool
  | none => false
  | some c => c.isAlphanum || c = '.' || c = '-' || c = '*' || c = '_'

/-- A hexadecimal digit. -/
def hexDigit (n : Nat) : Char := .ofNat (if n < 10 then 48 + n else 55 + n)

/-- A byte as `URLEncoder` writes it. -/
def percent (b : UInt8) : List Char := ['%', hexDigit (b.toNat / 16), hexDigit (b.toNat % 16)]

/-- `URLEncoder.encode` for one character. -/
def encodeChar (c : Option Char) : List Char :=
  if unreserved c then c.toList else if c = some ' ' then ['+'] else (charBytes c).flatMap percent

/-- The string of some ASCII characters. -/
def asciiString (cs : List Char) : JString := cs.map fun c => .ofNat c.toNat

/-- `URLEncoder.encode`, for UTF-8. -/
def urlEncode (s : JString) : JString := asciiString ((chars s).flatMap encodeChar)

/-- `sanitizeKey` -/
def sanitizeKey (sanitizeKeys : Bool) (key : JString) : JString :=
  if sanitizeKeys then urlEncode key else key

/-! ## Calls -/

/-- The value of a call once it has been made into bytes: `flags` and `val.length`, both of type
`int` and not negative. -/
structure Payload where
  flags : Nat
  length : Nat
  flags_lt : flags < 2 ^ 31
  length_lt : length < 2 ^ 31

/-- The commands that share the method `set`, apart from `cas` and `iqset`. -/
inductive SetCommand where
  | set
  | add
  | replace
  | append
  | prepend
deriving DecidableEq, Repr

/-- A call of a method of `MemcachedClient` that sends a request, with what the line is made of.
The lease tokens come from the client's own lists. -/
inductive Call (N : Type) where
  | get (key : N)
  | set (cmdname : SetCommand) (nextFragmentCfgId : Int32) (key : N) (expiry : Int64)
      (value : Payload)
  | cas (nextFragmentCfgId : Int32) (key : N) (expiry : Int64) (value : Payload) (casToken : Int64)
  | iqset (nextFragmentCfgId : Int32) (key : N) (expiry : Int64) (value : Payload)
      (leaseToken : Int64)
  | incrdecr (incr : Bool) (key : N) (inc : Int64)
  | iqget (key : N) (leaseToken : Int64) (foreground : Bool)
  | iset (key : N) (leaseToken : Int64)
  | quarantineAndRegister (tid key : N)
  | deleteAndRelease (tid : N)
  | quarantineAndRead (tid : Option N) (key : N) (readValue : Bool) (leaseToken : Int64)
  | swap (fragCfgId : Int32) (key : N) (value : Payload) (leaseToken : Int64)
  | swapAndRelease (key : N) (expiry : Int64) (value : Payload) (leaseToken : Int64)
  | iqappendorprepend (append : Bool) (key : N) (value : Payload) (tid : N)
  | iqincrordecr (incr : Bool) (key : N) (value : Int64) (tid : N)
  | commit (tid : N)
  | ewcommit (tid : N) (fragCfgId : Int32) (pending : Bool)
  | release (tid : N)
  | releaseX (key : N) (leaseToken : Int64)
  | delete (key : N) (deleteLease : Bool)

namespace Call

/-- Change the keys and the transaction identifiers of a call. -/
def map {M N : Type} (key tid : M → N) : Call M → Call N
  | get k => get (key k)
  | set cmdname frag k expiry value => set cmdname frag (key k) expiry value
  | cas frag k expiry value casToken => cas frag (key k) expiry value casToken
  | iqset frag k expiry value leaseToken => iqset frag (key k) expiry value leaseToken
  | incrdecr incr k inc => incrdecr incr (key k) inc
  | iqget k leaseToken foreground => iqget (key k) leaseToken foreground
  | iset k leaseToken => iset (key k) leaseToken
  | quarantineAndRegister t k => quarantineAndRegister (tid t) (key k)
  | deleteAndRelease t => deleteAndRelease (tid t)
  | quarantineAndRead t k readValue leaseToken =>
    quarantineAndRead (t.map tid) (key k) readValue leaseToken
  | swap frag k value leaseToken => swap frag (key k) value leaseToken
  | swapAndRelease k expiry value leaseToken => swapAndRelease (key k) expiry value leaseToken
  | iqappendorprepend append k value t => iqappendorprepend append (key k) value (tid t)
  | iqincrordecr incr k value t => iqincrordecr incr (key k) value (tid t)
  | commit t => commit (tid t)
  | ewcommit t frag pending => ewcommit (tid t) frag pending
  | release t => release (tid t)
  | releaseX k leaseToken => releaseX (key k) leaseToken
  | delete k deleteLease => delete (key k) deleteLease

/-- Whether the method passes its transaction identifier through `sanitizeKey`. -/
def sanitizesTid {N : Type} : Call N → Bool
  | deleteAndRelease _ | commit _ | ewcommit .. | release _ => true
  | _ => false

/-- The call with the names as they are written. -/
def send (sanitizeKeys : Bool) (call : Call JString) : Call Bytes :=
  call.map (fun key => getBytes (sanitizeKey sanitizeKeys key))
    fun tid => getBytes (sanitizeKey (call.sanitizesTid && sanitizeKeys) tid)

/-- The transaction identifier of a call. -/
def tid {N : Type} : Call N → Option N
  | quarantineAndRegister tid _ | deleteAndRelease tid | iqappendorprepend _ _ _ tid
  | iqincrordecr _ _ _ tid | commit tid | ewcommit tid .. | release tid => some tid
  | quarantineAndRead tid .. => tid
  | _ => none

end Call

/-! ## Lines -/

/-- `%d` -/
def intText (n : Int) : Bytes :=
  if n < 0 then 0x2d :: decimal (.ofNat n.natAbs) else decimal (.ofNat n.natAbs)

/-- The text of a flag. -/
def flagText (b : Bool) : Bytes := intText (if b then 1 else 0)

/-- Words with a blank between them. -/
def unwords : List Bytes → Bytes
  | [] => []
  | w :: ws => w ++ ws.flatMap (0x20 :: ·)

namespace SetCommand

/-- The command of the server with the same name. -/
def type : SetCommand → Storage
  | set => .set
  | add => .add
  | replace => .replace
  | append => .append
  | prepend => .prepend

end SetCommand

namespace Call

/-- The command that a call asks for. -/
def command {N : Type} : Call N → Command
  | get _ => .get
  | set cmdname .. => .storage cmdname.type
  | cas .. => .storage .cas
  | iqset .. => .storage .iqset
  | incrdecr incr .. => if incr then .incr else .decr
  | iqget .. => .iqget
  | iset .. => .iset
  | quarantineAndRegister .. => .qareg
  | deleteAndRelease _ => .dar
  | quarantineAndRead .. => .qaread
  | swap .. => .storage .swap
  | swapAndRelease .. => .storage .sar
  | iqappendorprepend append .. => .storage (if append then .iqappend else .iqprepend)
  | iqincrordecr incr .. => if incr then .iqincr else .iqdecr
  | commit _ => .commit
  | ewcommit .. => .commit
  | release _ => .release
  | releaseX .. => .unlease
  | delete .. => .delete

/-- The arguments of the line of a call, for a client with the configuration number `cfg`. -/
def args (cfg : Int32) : Call Bytes → List Bytes
  | get key => [intText cfg.toInt, key]
  | set _ frag key expiry value =>
    [intText cfg.toInt, intText frag.toInt, key, intText value.flags, intText expiry.toInt,
      intText value.length]
  | cas frag key expiry value casToken =>
    [intText cfg.toInt, intText frag.toInt, key, intText value.flags, intText expiry.toInt,
      intText value.length, intText casToken.toInt]
  | iqset frag key expiry value leaseToken =>
    [intText cfg.toInt, intText frag.toInt, key, intText value.flags, intText expiry.toInt,
      intText value.length, intText leaseToken.toInt]
  | incrdecr _ key inc => [key, intText inc.toInt]
  | iqget key leaseToken foreground =>
    [intText cfg.toInt, key, intText leaseToken.toInt, flagText foreground]
  -- `iset` is `iqget` with another name, in the foreground
  | iset key leaseToken => [intText cfg.toInt, key, intText leaseToken.toInt, flagText true]
  | quarantineAndRegister tid key => [intText cfg.toInt, key, tid]
  | deleteAndRelease tid => [intText cfg.toInt, tid]
  | quarantineAndRead tid key readValue leaseToken =>
    [intText cfg.toInt, key, flagText readValue, intText leaseToken.toInt] ++ tid.toList
  | swap frag key value leaseToken =>
    [intText cfg.toInt, intText frag.toInt, key, intText value.flags, intText 0,
      intText value.length, intText leaseToken.toInt]
  | swapAndRelease key expiry value leaseToken =>
    [key, intText value.flags, intText expiry.toInt, intText value.length, intText leaseToken.toInt]
  | iqappendorprepend _ key value tid => [intText cfg.toInt, key, intText value.length, tid]
  | iqincrordecr _ key value tid => [key, intText value.toInt, tid]
  | commit tid => [tid]
  | ewcommit tid frag pending => [intText cfg.toInt, intText frag.toInt, tid, flagText pending]
  | release tid => [tid]
  | releaseX key leaseToken => [intText cfg.toInt, key, intText leaseToken.toInt]
  | delete key deleteLease => [intText cfg.toInt, flagText deleteLease, key]

/-- The line that a call writes. -/
def header (cfg : Int32) (call : Call Bytes) : Bytes :=
  unwords (ofChars call.command.name :: call.args cfg) ++ [0x0d, 0x0a]

end Call

/-! ## One name for a transaction -/

section Ascii

variable {c : Char} {cs : List Char}

theorem chars_cons {u : UInt16} (hu : isHighSurrogate u = false) (s : JString) :
    chars (u :: s) = unitChar u :: chars s := by
  cases s with
  | nil => rfl
  | cons v s => simp [chars, hu]

/-- An ASCII character is one code unit. -/
theorem unitChar_ascii (h : c.toNat < 128) :
    isHighSurrogate (.ofNat c.toNat) = false ∧ unitChar (.ofNat c.toNat) = some c := by
  have hu : (UInt16.ofNat c.toNat).toNat = c.toNat := by
    rw [UInt16.toNat_ofNat']
    exact Nat.mod_eq_of_lt (h.trans (by decide))
  have hhigh : isHighSurrogate (.ofNat c.toNat) = false := by
    rw [isHighSurrogate, Bool.and_eq_false_iff, decide_eq_false_iff_not, UInt16.le_iff_toNat_le, hu]
    exact .inl (Nat.not_le_of_lt (h.trans (by decide)))
  have hlow : isLowSurrogate (.ofNat c.toNat) = false := by
    rw [isLowSurrogate, Bool.and_eq_false_iff, decide_eq_false_iff_not, UInt16.le_iff_toNat_le, hu]
    exact .inl (Nat.not_le_of_lt (h.trans (by decide)))
  refine ⟨hhigh, ?_⟩
  rw [unitChar, hhigh, hlow, hu, Char.ofNat_toNat]
  rfl

theorem chars_asciiString (h : ∀ c ∈ cs, c.toNat < 128) : chars (asciiString cs) = cs.map some := by
  induction cs with
  | nil => rfl
  | cons c cs ih =>
    obtain ⟨hhigh, hunit⟩ := unitChar_ascii (h c mem_cons_self)
    show chars (UInt16.ofNat c.toNat :: asciiString cs) = some c :: cs.map some
    rw [chars_cons hhigh, hunit, ih fun c hc => h c (mem_cons_of_mem _ hc)]

theorem length_charBytes_ascii (h : c.toNat < 128) : (charBytes (some c)).length = 1 := by
  show (String.utf8EncodeChar c).length = 1
  rw [String.length_utf8EncodeChar, Char.utf8Size_eq_one_iff, UInt32.le_iff_toNat_le]
  exact Nat.le_of_lt_succ h

/-- An ASCII string has as many bytes as characters. -/
theorem length_getBytes_asciiString (h : ∀ c ∈ cs, c.toNat < 128) :
    (getBytes (asciiString cs)).length = cs.length := by
  rw [getBytes, chars_asciiString h]
  induction cs with
  | nil => rfl
  | cons c cs ih =>
    rw [map_cons, flatMap_cons, length_append, length_charBytes_ascii (h c mem_cons_self),
      ih fun c hc => h c (mem_cons_of_mem _ hc), length_cons, Nat.add_comm]

end Ascii

section Encoding

variable {s : JString} {c : Option Char} {cs : List (Option Char)}

/-- A character takes up space. -/
theorem length_charBytes_pos (c : Option Char) : 0 < (charBytes c).length := by
  cases c with
  | none => exact Nat.one_pos
  | some c =>
    show 0 < (String.utf8EncodeChar c).length
    rw [String.length_utf8EncodeChar]
    exact c.utf8Size_pos

/-- What `URLEncoder` leaves alone is ASCII. -/
theorem lt_of_unreserved {c : Char} (h : unreserved (some c) = true) : c.toNat < 128 := by
  have hle : ∀ {n : UInt32}, c.val ≤ n → n.toNat < 128 → c.toNat < 128 := fun hc hn =>
    (UInt32.le_iff_toNat_le.mp hc).trans_lt hn
  rw [unreserved] at h
  delta Char.isAlphanum Char.isAlpha Char.isUpper Char.isLower Char.isDigit at h
  simp only [Bool.or_eq_true, Bool.and_eq_true, decide_eq_true_eq] at h
  rcases h with ((((((⟨-, h⟩ | ⟨-, h⟩) | ⟨-, h⟩) | rfl) | rfl) | rfl) | rfl)
  · exact hle h (by decide)
  · exact hle h (by decide)
  · exact hle h (by decide)
  all_goals decide

theorem hexDigit_lt : ∀ n < 16, (hexDigit n).toNat < 128 := by decide

/-- What `URLEncoder` writes is ASCII. -/
theorem encodeChar_lt (c : Option Char) : ∀ c' ∈ encodeChar c, c'.toNat < 128 := by
  rw [encodeChar]
  split
  · next h =>
    intro c' hc'
    obtain rfl := Option.mem_toList.mp hc'
    exact lt_of_unreserved h
  split
  · exact List.forall_mem_singleton.mpr (by decide)
  · intro c' hc'
    obtain ⟨b, -, hb⟩ := List.mem_flatMap.mp hc'
    have hlt := b.toNat_lt
    simp only [percent, List.mem_cons, List.not_mem_nil, or_false] at hb
    rcases hb with rfl | rfl | rfl
    · decide
    · exact hexDigit_lt _ (Nat.div_lt_of_lt_mul hlt)
    · exact hexDigit_lt _ (Nat.mod_lt _ (by decide))

theorem length_encodeChar_of_unreserved (h : unreserved c = true) :
    (encodeChar c).length = (charBytes c).length := by
  rw [encodeChar, if_pos h]
  cases c with
  | none => cases h
  | some c => exact (length_charBytes_ascii (lt_of_unreserved h)).symm

/-- A reserved character gets longer. -/
theorem length_lt_of_not_unreserved (h : unreserved c = false) (hc : c ≠ some ' ') :
    (charBytes c).length < (encodeChar c).length := by
  have hlen (bs : Bytes) : (bs.flatMap percent).length = 3 * bs.length := by
    induction bs with
    | nil => rfl
    | cons b bs ih =>
      rw [List.flatMap_cons, List.length_append, ih, List.length_cons, Nat.mul_succ, Nat.add_comm]
      rfl
  rw [encodeChar, h, if_neg Bool.false_ne_true, if_neg hc, hlen]
  have hpos := length_charBytes_pos c
  omega

theorem length_encode_le (hcs : some ' ' ∉ cs) :
    (cs.flatMap charBytes).length ≤ (cs.flatMap encodeChar).length := by
  induction cs with
  | nil => exact le_rfl
  | cons c cs ih =>
    rw [flatMap_cons, flatMap_cons, length_append, length_append]
    refine Nat.add_le_add ?_ (ih fun h => hcs (mem_cons_of_mem _ h))
    cases h : unreserved c with
    | true => exact (length_encodeChar_of_unreserved h).ge
    | false => exact (length_lt_of_not_unreserved h fun hc => hcs (hc ▸ mem_cons_self)).le

/-- A string with a reserved character gets longer. -/
theorem length_encode_lt (hcs : some ' ' ∉ cs) (hc : c ∈ cs) (h : unreserved c = false) :
    (cs.flatMap charBytes).length < (cs.flatMap encodeChar).length := by
  induction cs with
  | nil => cases hc
  | cons c' cs ih =>
    have hcs' : some ' ' ∉ cs := fun h => hcs (mem_cons_of_mem _ h)
    rw [flatMap_cons, flatMap_cons, length_append, length_append]
    rcases mem_cons.mp hc with rfl | hc
    · exact Nat.add_lt_add_of_lt_of_le
        (length_lt_of_not_unreserved h fun hc => hcs (hc ▸ mem_cons_self)) (length_encode_le hcs')
    · refine Nat.add_lt_add_of_le_of_lt ?_ (ih hcs' hc)
      cases h' : unreserved c' with
      | true => exact (length_encodeChar_of_unreserved h').ge
      | false => exact (length_lt_of_not_unreserved h' fun hc => hcs (hc ▸ mem_cons_self)).le

theorem encode_ascii (cs : List (Option Char)) : ∀ c ∈ cs.flatMap encodeChar, c.toNat < 128 := by
  intro c hc
  obtain ⟨c', -, hc'⟩ := mem_flatMap.mp hc
  exact encodeChar_lt c' c hc'

/-- Without reserved characters the encoding changes nothing. -/
theorem chars_urlEncode (h : ∀ c ∈ chars s, unreserved c = true) :
    chars (urlEncode s) = chars s := by
  rw [urlEncode, chars_asciiString (encode_ascii _)]
  generalize chars s = cs at h
  induction cs with
  | nil => rfl
  | cons c cs ih =>
    have hc := h c mem_cons_self
    rw [flatMap_cons, map_append, ih fun c hc => h c (mem_cons_of_mem _ hc), encodeChar, if_pos hc]
    cases c with
    | none => cases hc
    | some c => rfl

/-- The encoding is seen in the bytes exactly if there is something to encode. -/
theorem getBytes_urlEncode_eq_iff (hs : some ' ' ∉ chars s) :
    getBytes (urlEncode s) = getBytes s ↔ ∀ c ∈ chars s, unreserved c = true := by
  constructor
  · intro heq c hc
    by_contra hne
    have hlt := length_encode_lt hs hc (Bool.eq_false_iff.mpr hne)
    have hlen := congrArg List.length heq
    rw [urlEncode, length_getBytes_asciiString (encode_ascii _)] at hlen
    exact absurd hlen hlt.ne'
  · intro h
    rw [getBytes, chars_urlEncode h]
    rfl

end Encoding

/-- The identifier of a transaction on the line. -/
theorem Call.tid_send {sanitizeKeys : Bool} {call : Call JString} : (call.send sanitizeKeys).tid =
    call.tid.map fun tid => getBytes (sanitizeKey (call.sanitizesTid && sanitizeKeys) tid) := by
  cases call <;> rfl

/-- All requests for a transaction carry one identifier exactly if the client does not encode names,
or there is nothing in this one to encode. -/
theorem one_name_iff (sanitizeKeys : Bool) (tid : JString) (htid : some ' ' ∉ chars tid) :
    (∀ call call' : Call JString, call.tid = some tid → call'.tid = some tid →
      (call.send sanitizeKeys).tid = (call'.send sanitizeKeys).tid) ↔
    sanitizeKeys = false ∨ ∀ c ∈ chars tid, unreserved c = true := by
  constructor
  · intro h
    cases sanitizeKeys with
    | false => exact .inl rfl
    | true =>
      have heq := h (.commit tid) (.quarantineAndRegister tid []) rfl rfl
      exact .inr ((getBytes_urlEncode_eq_iff htid).mp (some.inj heq))
  · intro h call call' hcall hcall'
    have hsame : ∀ b : Bool, getBytes (sanitizeKey (b && sanitizeKeys) tid) = getBytes tid := by
      intro b
      rcases h with rfl | h
      · rw [Bool.and_false]
        rfl
      · cases b && sanitizeKeys with
        | false => rfl
        | true => exact (getBytes_urlEncode_eq_iff htid).mpr h
    rw [Call.tid_send, Call.tid_send, hcall, hcall', map_some, map_some, hsame, hsame]

/-- The identifier `t1` is sent as it is. -/
theorem one_name_letters : some ' ' ∉ chars [0x74, 0x31] ∧ ∀ call call' : Call JString,
    call.tid = some [0x74, 0x31] → call'.tid = some [0x74, 0x31] →
    (call.send true).tid = (call'.send true).tid :=
  ⟨by decide, (one_name_iff true [0x74, 0x31] (by decide)).mpr (.inr (by decide))⟩

/-- The identifier `t#` is registered as `t#` and committed as `t%23`. -/
theorem two_names : ∃ call call' : Call JString, call.tid = some [0x74, 0x23] ∧
      call'.tid = some [0x74, 0x23] ∧
    (call.send true).tid ≠ (call'.send true).tid :=
  ⟨.quarantineAndRegister [0x74, 0x23] [0x6b], .commit [0x74, 0x23], rfl, rfl, by decide⟩

end Rejig
