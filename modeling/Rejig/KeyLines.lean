import Rejig.ValueLine
import Rejig.Address

/-!
# Lines with many keys

`get`, `gets` and `delete` take any number of keys.  Their handlers go through the table of tokens,
and at its end they tokenise the rest of the line and start again, so that `ascKeys_eq` turns the
keys into the words of the line from some position on.  What is left is a loop over a list, which is
settled here from the text of the line to the answer and the state: `ascDispatchLine` puts the
reading of a line and the request together.

A read touches what it finds, and a touch can change what later reads find only if an item was used
in the future. A deletion takes all words, also a last one that was meant as an option.
-/

namespace Rejig

open Prog Server Option List

variable {keys : List Bytes} {A : Type} {Q : Unit → Server → Prop} {R : Server → Prop}
  {deleteLease noreply : Bool} {fields : LineM Request}

/-! ## From a line to its answer -/

/-- The answer of a handler that stops early; a fault has none. -/
def Halt.answer : Halt → ServerM Outcome
  | .clientError => return .reply .clientError
  | .serverError => return .reply .serverError
  | .crash => return .reply .crash
  | .silent => return .reply .silent
  | .fault => deref none

/-- `asc_dispatch`, from the text of the line on, for the requests to the store.  `flag` is the flag
`noreply` of the connection. -/
def ascDispatchLine (flag : Bool) (command : Bytes) : ServerM (Option Outcome) := do
  let s ← get
  match ascHandler flag command with
  | none => return some (.reply .clientError)
  | some (cmd, noreply) =>
    match ascRequestFields s.configurationNumber noreply command (ascTokenize command) cmd with
    | none => return none
    | some fields =>
      match fields.result with
      | .error halt => return some (← halt.answer)
      | .ok req => return some (← ascDispatch req)

section Lines

variable {c : Settings} {s : Server} {cmd : Command} {command cfgText : Bytes}
  {ws keys : List Bytes} {flag : Bool} {cfg : Int} {Q : Option Outcome → Server → Prop}

/-- The type of the request is read off the first word. -/
theorem ascReqType_of_words (hwords : words command = ofChars cmd.name :: ws) (hws : ws ≠ []) :
    ascReqType (ascTokenize command) = some cmd := by
  have htable := table_words command
  rw [hwords] at htable
  refine Table.ascReqType_eq htable fun _ => ?_
  cases ws with
  | nil => exact absurd rfl hws
  | cons w ws => exact cons_ne_nil _ _

theorem length_ascTokenize (command : Bytes) :
    (ascTokenize command).length = min (tokenMax - 1) (words command).length := by
  rw [(table_words command).length_eq, length_take]

theorem wp_get {Q : Server → Server → Prop} : wp (get : ServerM Server) Q c s ↔ Q s s := by
  rw [wp_iff_not_wlp, wlp_get, not_not]

/-- A line whose handler accepts it and reads its fields is a request. -/
theorem wp_ascDispatchLine_ok {req : Request}
    (hhandler : ascHandler flag command = some (cmd, noreply))
    (hfields : ascRequestFields s.configurationNumber noreply command (ascTokenize command) cmd =
      some fields) (hreq : fields.result = .ok req) :
    wp (ascDispatchLine flag command) Q c s ↔
    wp (ascDispatch req) (fun out => Q (some out)) c s := by
  rw [ascDispatchLine, wp_bind, wp_get, hhandler]
  simp only [hfields, hreq, wp_bind, wp_pure]

theorem wp_ascDispatchLine_error {halt : Halt}
    (hhandler : ascHandler flag command = some (cmd, noreply))
    (hfields : ascRequestFields s.configurationNumber noreply command (ascTokenize command) cmd =
      some fields) (hhalt : fields.result = .error halt) :
    wp (ascDispatchLine flag command) Q c s ↔ wp halt.answer (fun out => Q (some out)) c s := by
  rw [ascDispatchLine, wp_bind, wp_get, hhandler]
  simp only [hfields, hhalt, wp_bind, wp_pure]

theorem wp_ascDispatchLine_refused (hhandler : ascHandler flag command = none) :
    wp (ascDispatchLine flag command) Q c s ↔ Q (some (.reply .clientError)) s := by
  rw [ascDispatchLine, wp_bind, wp_get, hhandler, wp_pure]

theorem result_lineNumber_bind {B : Type} {read : Bytes → Option A} {t : List Token}
    {i : Nat} {a : A} {f : A → LineM B} (h : numberAt read t i = some a) :
    (lineNumber read t i >>= f).result = (f a).result :=
  Walk.result_bind_of_ok (by rw [lineNumber, h]; rfl)

/-- An accepted configuration number stops the handler only if it is that of the server and this is
`-1`. -/
theorem result_lineConfig_bind {server : Int} {f : Unit → LineM A}
    (hcfg : cfg = -1 ∨ cfg = server) :
    (lineConfig server cfg >>= f).result = if server = -1 then .error .silent else
      (f ()).result := by
  have haccepted : (decide (cfg ≠ -1) && decide (cfg ≠ server)) = false := by
    rcases hcfg with rfl | rfl <;> simp
  rw [lineConfig, haccepted, if_neg Bool.false_ne_true, Walk.guard]
  by_cases hserver : server = -1 <;> simp [hserver] <;> rfl

theorem wp_ascCheckConfig {handler : Int → ServerM Outcome} {Q : Outcome → Server → Prop}
    (hcfg : cfg = -1 ∨ cfg = s.configurationNumber) (hserver : s.configurationNumber ≠ -1) :
    wp (ascCheckConfig cfg handler) Q c s ↔ wp (handler s.configurationNumber) Q c s := by
  have haccepted : (decide (cfg ≠ -1) && decide (cfg ≠ s.configurationNumber)) = false := by
    rcases hcfg with rfl | rfl <;> simp
  rw [ascCheckConfig, wp_bind, wp_get]
  dsimp only
  rw [haccepted, if_neg Bool.false_ne_true, if_neg hserver]

end Lines

/-! ## Reads -/

/-- The line before a value, for `gets`. -/
def getsLine (it : Item) : Bytes :=
  unwords [valueWord, it.key, uintText it.dataflags, uintText it.nbyte, decimal it.cas] ++
    [0x0d, 0x0a]

/-- What `asc_respond_get` writes for an item. -/
def valueEntry (cas : Bool) (it : Item) : Bytes :=
  (if cas then getsLine it else getLine it) ++ it.data ++ [0x0d, 0x0a]

/-- What `asc_process_read` writes, if it writes values. -/
def readText (cas : Bool) : Outcome → Option Bytes
  | .reply (.values its) =>
    some ((its.map (valueEntry cas)).flatten ++ ofChars ['E', 'N', 'D'] ++ [0x0d, 0x0a])
  | _ => none

/-- An item without the time it was used. -/
def Item.still (it : Item) : Item := { it with atime := 0 }

/-- The state after `_item_touch`. -/
def Server.touch (s : Server) (it : Item) : Server :=
  if it.atime < (s.now + (2 ^ 32 - 60)) % 2 ^ 32 then s.write it fun it =>
    { it with atime := s.now } else s

section Reads

variable {c : Settings} {s : Server} {key n : Bytes} {keys : List Bytes} {it : Item}

theorem wp_itemTouch : wp (itemTouch it) Q c s ↔ Q () (s.touch it) := by
  rw [wp_iff_not_wlp, itemTouch, wlp_bind, wlp_get, Server.touch]
  by_cases h : it.atime < (s.now + (2 ^ 32 - 60)) % 2 ^ 32
  · rw [if_pos h, decide_eq_true h, when_true, wlp_itemWrite, not_not]
  · rw [if_neg h, decide_eq_false h, when_false, wlp_pure, not_not]

theorem Server.now_touch : (s.touch it).now = s.now := by
  rw [Server.touch]
  split <;> rfl

section

variable (hs : s.All (·.atime ≤ s.now))

include hs

/-- A touch leaves the items as recent as they may be. -/
theorem Server.recent_touch : (s.touch it).All (·.atime ≤ (s.touch it).now) := by
  rw [now_touch, Server.touch]
  split
  · exact Server.All.write hs (fun _ => rfl) fun _ _ => le_rfl
  · exact hs

/-- A touch does not change what is found, but for the time of the last use. -/
theorem Server.live_touch (hit : s.live it.key = some it) (n : Bytes) :
    ((s.touch it).live n).map Item.still = (s.live n).map Item.still := by
  rw [Server.touch]
  split
  · obtain ⟨hfind, hdead⟩ := live_eq_some.mp hit
    have hatime : it.atime ≤ s.now := hs _ _ hfind
    rw [Server.live, find_write_of_find (f := fun it => { it with atime := s.now }) s n
      (fun _ => rfl) hfind]
    by_cases hn : n = it.key
    · -- an item that was not flushed is not after the touch, since it was not used in the future
      have hlive : s.dead { it with atime := s.now } = false := by
        simp only [Server.dead, Item.expired, Item.flushed, Bool.or_eq_false_iff,
          Bool.and_eq_false_iff] at hdead ⊢
        refine ⟨hdead.1, ?_⟩
        rcases hdead.2 with (h | h) | h
        · exact .inl (.inl h)
        · exact .inl (.inr h)
        · simp only [decide_eq_false_iff_not] at h ⊢
          exact .inr fun hle => h (hatime.trans hle)
      rw [if_pos hn, filter_some, dead_write, hlive, hn, hit]
      rfl
    · rw [if_neg hn, Server.live, dead_write]
  · rfl

/-- The loop of `asc_process_read` finds what the server had before it. -/
theorem wp_ascReadKeys (hkeys : ∀ key ∈ keys, key.length ≤ keyMaxLen) :
    wp (ascReadKeys keys) (fun r _ => ∃ its, r = some its ∧
      its.map Item.still = (keys.filterMap s.live).map Item.still) c s := by
  induction keys generalizing s with
  | nil => exact wp_pure.mpr ⟨[], rfl, rfl⟩
  | cons key keys ih =>
    obtain ⟨hkey, hkeys⟩ := forall_mem_cons.mp hkeys
    have hreap : (s.reap key).All (·.atime ≤ (s.reap key).now) := fun n it hit =>
      hs n it ((Server.Shrinks.reap s key).find hit)
    rw [ascReadKeys, if_neg (not_lt.mpr hkey), wp_bind, wp_itemGet, wp_bind]
    -- the keys that follow are looked up in a state that shows the same
    have hrest : ∀ s' : Server, s'.All (·.atime ≤ s'.now) →
        (∀ n, (s'.live n).map Item.still = (s.live n).map Item.still) →
        wp (do return (← ascReadKeys keys).map ((s.live key).toList ++ ·)) (fun r _ =>
          ∃ its, r = some its ∧
          its.map Item.still = ((key :: keys).filterMap s.live).map Item.still) c s' := by
      intro s' hs' hsame
      rw [wp_bind]
      refine (ih hs' hkeys).mono ?_
      rintro _ s'' ⟨its, rfl, hits⟩
      refine wp_pure.mpr ⟨(s.live key).toList ++ its, rfl, ?_⟩
      rw [map_append, hits, map_filterMap, map_filterMap, filterMap_cons]
      simp only [hsame]
      cases s.live key <;> rfl
    cases hit : s.live key with
    | none =>
      rw [whenSome_none, wp_pure, ← hit]
      exact hrest _ hreap fun n => by rw [live_reap]
    | some it =>
      have hlive : (s.reap key).live it.key = some it := by rw [live_reap, key_of_live hit, hit]
      rw [whenSome_some, wp_itemTouch, ← hit]
      refine hrest _ (recent_touch hreap) fun n => ?_
      rw [live_touch hreap hlive, live_reap]

end

end Reads

/-- The command of a read; `cas` tells `gets` from `get`. -/
def readCommand (cas : Bool) : Command := if cas then .gets else .get

section ReadLines

variable {c : Settings} {s : Server} {cas : Bool} {command cfgText : Bytes}
  {keys : List Bytes} {cfg : Int}

/-- A read needs a key. -/
theorem ascHandler_read (hwords : words command = ofChars
      (readCommand cas).name :: cfgText :: keys) :
    ascHandler false command = if keys = [] then none else some (readCommand cas, false) := by
  have htype := ascReqType_of_words hwords (List.cons_ne_nil _ _)
  have hsets : (readCommand cas).setsNoreply = false := by cases cas <;> rfl
  have haccepts : (readCommand cas).accepts false ((ascTokenize command).length + 1) = decide
    (keys ≠ []) := by
    have hlen : (readCommand cas).accepts false ((ascTokenize command).length + 1) =
        (decide (4 ≤ (ascTokenize command).length + 1) &&
          decide ((ascTokenize command).length + 1 ≤ intMax)) := by
      cases cas <;> rfl
    rw [hlen, length_ascTokenize, hwords, List.length_cons, List.length_cons, tokenMax, intMax]
    cases keys with
    | nil => rfl
    | cons key keys =>
      rw [List.length_cons, ← Bool.decide_and]
      exact decide_eq_decide.mpr (iff_of_true ⟨by omega, by omega⟩ (List.cons_ne_nil _ _))
  rw [ascHandler, htype]
  simp only [Option.bind_eq_bind, Option.bind_some, hsets, Bool.false_and, Bool.or_false,
    haccepts, ne_eq, decide_not, Bool.not_eq_true', decide_eq_false_iff_not, ite_not]

theorem result_ascReadFields (hnumber : numberAt mcStrtol (ascTokenize command) 1 = some cfg)
    (hcfg : cfg = -1 ∨ cfg = s.configurationNumber)
    (hwords : words command = ofChars (readCommand cas).name :: cfgText :: keys) :
    (ascReadFields cas s.configurationNumber command (ascTokenize command)).result =
      if s.configurationNumber = -1 then .error .silent else .ok (.get cas cfg keys) := by
  rw [ascReadFields, result_lineNumber_bind hnumber, result_lineConfig_bind hcfg,
    ascKeys_eq (by decide) (Nat.lt_succ_self _), hwords]
  rfl

/-- A read with an accepted configuration number is answered with the values of its keys, in their
order, if it has a key and the number of the server is not `-1`. -/
theorem readLine_answers_iff {h : History} {w : World} (hr : (service c).Run h w)
    (hwords : words command = ofChars (readCommand cas).name :: cfgText :: keys)
    (hnumber : numberAt mcStrtol (ascTokenize command) 1 = some cfg)
    (hcfg : cfg = -1 ∨ cfg = w.server.configurationNumber)
    (hkeys : ∀ key ∈ keys, key.length ≤ keyMaxLen) :
    wp (ascDispatchLine false command) (fun out _ => out.bind (readText cas) =
      some (((keys.filterMap w.server.live).map (valueEntry cas)).flatten ++ ofChars
        ['E', 'N', 'D'] ++ [0x0d, 0x0a])) c w.server ↔ w.server.configurationNumber ≠ -1 ∧
    keys ≠ [] := by
  have hhandler := ascHandler_read hwords
  have hfields : ascRequestFields w.server.configurationNumber false command (ascTokenize command)
    (readCommand cas) = some (ascReadFields cas w.server.configurationNumber command
    (ascTokenize command)) := by
    cases cas <;> rfl
  have hresult := result_ascReadFields hnumber hcfg hwords
  by_cases hne : keys = []
  · rw [if_pos hne] at hhandler
    rw [wp_ascDispatchLine_refused hhandler]
    exact iff_of_false nofun fun h => h.2 hne
  rw [if_neg hne] at hhandler
  by_cases hserver : w.server.configurationNumber = -1
  · rw [if_pos hserver] at hresult
    rw [wp_ascDispatchLine_error hhandler hfields hresult]
    exact iff_of_false (fun h => nomatch wp_pure.mp h) fun h => h.1 hserver
  · rw [if_neg hserver] at hresult
    rw [wp_ascDispatchLine_ok hhandler hfields hresult]
    refine iff_of_true ?_ ⟨hserver, hne⟩
    rw [ascDispatch, ascProcessRead, wp_ascCheckConfig hcfg hserver, wp_bind]
    refine (wp_ascReadKeys (recent_of_run hr) hkeys).mono ?_
    rintro _ s' ⟨its, rfl, hits⟩
    refine wp_pure.mpr ?_
    have hentries : its.map (valueEntry cas) = (keys.filterMap w.server.live).map
      (valueEntry cas) := by
      have hmap := congrArg (List.map (valueEntry cas)) hits
      rwa [List.map_map, List.map_map] at hmap
    rw [bind_some, readText, hentries]

/-- The line `get -1 k k j`, with a value for `k` only. -/
theorem readLine_answers_repeated : ∃ (h : History) (w : World) (it : Item), (service {}).Run h w ∧
    w.server.live [0x6b] = some it ∧
    wp (ascDispatchLine false (ofChars
        ['g', 'e', 't', ' ', '-', '1', ' ', 'k', ' ', ' ', 'k', ' ', 'j'])) (fun out _ =>
      out.bind (readText false) = some ((([[0x6b], [0x6b], [0x6a]].filterMap w.server.live).map
      (valueEntry false)).flatten ++ ofChars ['E', 'N', 'D'] ++ [0x0d, 0x0a])) {} w.server := by
  obtain ⟨h, w, hr, it, hit, hserver⟩ := (playable_run {}).exists_run
    [.line 0 (.update .set (-1) (-1) [0x6b] 0 0 1), .body 0 [0x61, 0x0d, 0x0a]]
    (P := fun _ w => ∃ it, w.server.live [0x6b] = some it ∧ w.server.configurationNumber = 0)
      (by decide +kernel)
  refine ⟨h, w, it, hr, hit, ?_⟩
  have hnumber : numberAt mcStrtol
      (ascTokenize (ofChars ['g', 'e', 't', ' ', '-', '1', ' ', 'k', ' ', ' ', 'k', ' ', 'j'])) 1 =
        some (-1) := by
    decide +kernel
  have hwords : words (ofChars ['g', 'e', 't', ' ', '-', '1', ' ', 'k', ' ', ' ', 'k', ' ', 'j']) =
      ofChars (readCommand false).name :: [0x2d, 0x31] :: [[0x6b], [0x6b], [0x6a]] := by decide
  exact (readLine_answers_iff hr hwords hnumber (.inl rfl) (by decide)).mpr
    ⟨by rw [hserver]; decide, by decide⟩

/-- With the configuration number `-1` a server does not answer. -/
theorem readLine_silent : ∃ (h : History) (w : World), (service {}).Run h w ∧
    w.server.configurationNumber = -1 ∧
    wp (ascDispatchLine false (ofChars ['g', 'e', 't', ' ', '-', '1', ' ', 'k']))
      (fun out _ => out = some (.reply .silent)) {} w.server := by
  obtain ⟨h, w, hr, hserver⟩ := (playable_run {}).exists_run [.line 0 (.updateConfiguration (-1))]
    (P := fun _ w => w.server.configurationNumber = -1) (by decide +kernel)
  refine ⟨h, w, hr, hserver, ?_⟩
  have hwords : words (ofChars ['g', 'e', 't', ' ', '-', '1', ' ', 'k']) =
      ofChars (readCommand false).name :: [0x2d, 0x31] :: [[0x6b]] := by decide
  have hnumber : numberAt mcStrtol (ascTokenize (ofChars ['g', 'e', 't', ' ', '-', '1', ' ', 'k']))
    1 = some (-1) := by
    decide +kernel
  have hresult := result_ascReadFields (s := w.server) hnumber (.inl rfl) hwords
  rw [if_pos hserver] at hresult
  exact (wp_ascDispatchLine_error (ascHandler_read hwords) rfl hresult).mpr (wp_pure.mpr rfl)

end ReadLines

/-! ## Deletions -/

/-- The keys that a deletion lists: its last word may be an option. -/
def listedKeys (ws : List Bytes) : List Bytes :=
  if ws.getLast? = some noreplyWord then ws.dropLast else ws

/-- The names of all records of a key. -/
def keyRecords (key : Bytes) : List Bytes :=
  [key, leaseKey key, versionKey key, pendingKey key, coLeaseKey key]

/-- The names that `item_get_and_delete` unlinks. -/
def deletedNames (deleteLease : Bool) (key : Bytes) : List Bytes :=
  if deleteLease then [leaseKey key, versionKey key, coLeaseKey key, key] else [key]

/-- Nothing is left to delete for a key. -/
def Server.Cleared (s : Server) (deleteLease : Bool) (key : Bytes) : Prop :=
  ∀ n ∈ deletedNames deleteLease key, s.live n = none

/-- The keys that the loop of `asc_process_delete` gets to. -/
def Server.visited (s : Server) (ws : List Bytes) : List Bytes :=
  if s.configurationNumber = -1 then [] else ws.takeWhile (·.length ≤ keyMaxLen)

/-- A deletion touches the keys that it lists and no others: it has a word to work on, the keys it
does not get to have no records to delete, and neither has a word that it takes for a key and that
is none. -/
structure Server.DeletesExactly (s : Server) (deleteLease : Bool) (ws : List Bytes) : Prop where
  answered : s.configurationNumber = -1 ∨ ws ≠ []
  reached : ∀ key ∈ listedKeys ws, key ∉ s.visited ws → s.Cleared deleteLease key
  spared : ∀ key ∈ s.visited ws, key ∉ listedKeys ws → s.Cleared deleteLease key

/-- The state without the items under some names. -/
def Server.clear (s : Server) (names : List Bytes) : Server :=
  { s with assoc :=
    { find := fun n => if n ∈ names then none else s.find n
      name_eq := fun {n it} h => s.assoc.name_eq (by split at h <;> [cases h; exact h]) } }

section Deletions

variable {c : Settings} {s : Server} {key n : Bytes} {names names' : List Bytes}

/-- Two servers that differ in their tables at most are compared name by name. -/
theorem Server.eq_of_find {s' : Server} (hfind : ∀ n, s.find n = s'.find n)
    (hrest : { s with assoc := s'.assoc } = s') : s = s' := by
  have hassoc : s.assoc = s'.assoc := Slots.ext hfind
  rw [← hassoc] at hrest
  exact hrest

theorem Server.find_clear : (s.clear names).find n = if n ∈ names then none else s.find n := rfl

theorem Server.live_clear : (s.clear names).live n = if n ∈ names then none else s.live n := by
  rw [Server.live, find_clear]
  split <;> rfl

theorem Server.clear_nil : s.clear [] = s := eq_of_find (fun _ => rfl) rfl

theorem Server.clear_clear : (s.clear names).clear names' = s.clear (names ++ names') := by
  refine eq_of_find (fun n => ?_) rfl
  rw [find_clear, find_clear, find_clear]
  by_cases h : n ∈ names <;> by_cases h' : n ∈ names' <;> simp [h, h']

/-- An item is unlinked, whether it was still live or not. -/
theorem Server.unlink_found :
    (s.live n).elim (s.reap n) (fun it => (s.reap n).unlink it) = s.clear [n] := by
  refine eq_of_find (fun n' => ?_) (by cases s.live n <;> rfl)
  rw [find_clear]
  by_cases hn : n' = n
  · subst hn
    rw [if_pos mem_cons_self]
    cases hit : s.live n' with
    | none => exact (find_reap_self s n').trans hit
    | some it =>
      have hfind : (s.reap n').find it.key = some it := by rw [key_of_live hit, find_reap_self, hit]
      rw [elim_some, find_unlink_of_find _ _ hfind, if_pos (key_of_live hit).symm]
  · rw [if_neg (by simpa using hn)]
    cases hit : s.live n with
    | none => rw [elim_none, find_reap, if_neg hn]
    | some it =>
      have hkey : n' ≠ it.key := by rwa [key_of_live hit]
      rw [elim_some, find_unlink, if_neg hkey, find_reap, if_neg hn]

theorem wp_unlinkFound : wp (itemGet n >>= fun it => whenSome it itemUnlink) Q c s ↔ Q ()
      (s.clear [n]) := by
  rw [wp_bind, wp_itemGet, ← unlink_found]
  cases s.live n with
  | none => exact wp_pure
  | some it => exact wp_itemUnlink

theorem wp_unlinkFound_bind {k : Unit → ServerM A} {Q : A → Server → Prop} :
    wp (itemGet n >>= fun it => whenSome it itemUnlink >>= k) Q c s ↔
    wp (k ()) Q c (s.clear [n]) := by
  rw [← wp_unlinkFound (c := c) (Q := fun u s => wp (k u) Q c s)]
  simp only [wp_bind]

theorem wp_unlinkValue {Q : StoreResult → Server → Prop} : wp (do
      match ← itemGet key with
      | some it =>
        itemUnlink it
        return .exists
      | none => return .notFound) Q c s ↔ Q ((s.live key).elim .notFound fun _ =>
      .exists) (s.clear [key]) := by
  rw [wp_bind, wp_itemGet, ← Server.unlink_found]
  cases s.live key with
  | none => exact wp_pure
  | some it =>
    rw [wp_bind, wp_itemUnlink]
    exact wp_pure

theorem wp_itemGetAndDelete {Q : StoreResult → Server → Prop} :
    wp (itemGetAndDelete key deleteLease) Q c s ↔
      Q ((s.live key).elim .notFound fun _ => .exists)
      (s.clear (deletedNames deleteLease key)) := by
  rw [itemGetAndDelete, wp_bind]
  cases deleteLease with
  | false =>
    rw [when_false, wp_pure]
    exact wp_unlinkValue
  | true =>
    have hkey : ∀ n ∈ [leaseKey key, versionKey key, coLeaseKey key], key ≠ n := by
      intro n hn h
      have hlen := congrArg List.length h
      simp only [List.mem_cons, List.not_mem_nil, or_false] at hn
      rcases hn with rfl | rfl | rfl <;>
        simp only [leaseKey, versionKey, coLeaseKey, List.length_cons] at hlen <;> omega
    have hlive : (s.clear [leaseKey key, versionKey key, coLeaseKey key]).live key =
      s.live key := by
      rw [Server.live_clear, if_neg fun hmem => hkey key hmem rfl]
    rw [when_true, itemGetLease, wp_unlinkFound_bind, itemGetPendingVersion, wp_unlinkFound_bind,
      itemGetCoLease, wp_unlinkFound, Server.clear_clear, Server.clear_clear]
    refine wp_unlinkValue.trans ?_
    rw [Server.clear_clear]
    show Q (((s.clear [leaseKey key, versionKey key, coLeaseKey key]).live key).elim _ _) _ ↔ _
    rw [hlive]
    rfl

/-- The loop over the keys of a deletion. -/
theorem wp_ascDeleteKeys {res : Option StoreResult} :
    wp (ascDeleteKeys deleteLease res keys) (fun _ => R) c s ↔ (res ≠ none ∨ keys ≠ []) ∧
      R (s.clear ((keys.takeWhile (·.length ≤ keyMaxLen)).flatMap (deletedNames deleteLease))) := by
  induction keys generalizing s res with
  | nil =>
    rw [ascDeleteKeys, takeWhile_nil, flatMap_nil, clear_nil, wp_bind]
    cases res with
    | none => simp [wp_iff_not_wlp]
    | some res => cases res <;> simp [wp_pure]
  | cons key keys ih =>
    rw [ascDeleteKeys, takeWhile_cons]
    by_cases hlong : keyMaxLen < key.length
    · rw [if_pos hlong, if_neg (by simpa using hlong), flatMap_nil, clear_nil, wp_pure]
      simp
    · rw [if_neg hlong, if_pos (by simpa using hlong), flatMap_cons, ← clear_clear, wp_bind,
        wp_itemGetAndDelete, ih]
      simp

/-- The key that a record belongs to. -/
def recordOwner (n : Bytes) : Bytes := if Unprefixed n then n else n.drop 3

theorem recordOwner_eq (hkey : Unprefixed key) (h : n ∈ keyRecords key) : recordOwner n = key := by
  simp only [keyRecords, List.mem_cons, List.not_mem_nil, or_false] at h
  rcases h with rfl | rfl | rfl | rfl | rfl
  · exact if_pos hkey
  all_goals exact if_neg (by
    simp [Unprefixed, reservedPrefixes, leaseKey, versionKey, pendingKey, coLeaseKey])

variable {ws : List Bytes} {deleteLease : Bool}

theorem deletedNames_subset : deletedNames deleteLease key ⊆ keyRecords key := by
  cases deleteLease <;> simp [deletedNames, keyRecords]

/-- The records of different keys have different names. -/
theorem mem_deletedNames_iff (hkey : Unprefixed key) (hkeys : ∀ k ∈ keys, Unprefixed k)
    (hn : n ∈ keyRecords key) :
    n ∈ keys.flatMap (deletedNames deleteLease) ↔
    key ∈ keys ∧ n ∈ deletedNames deleteLease key := by
  rw [mem_flatMap]
  constructor
  · rintro ⟨k, hk, hmem⟩
    obtain rfl : k = key := (recordOwner_eq (hkeys k hk) (deletedNames_subset hmem)).symm.trans
      (recordOwner_eq hkey hn)
    exact ⟨hk, hmem⟩
  · exact fun ⟨hmem, h⟩ => ⟨key, hmem, h⟩

theorem Server.cleared_clear (hkey : Unprefixed key) (hkeys : ∀ k ∈ keys, Unprefixed k) :
    (s.clear (keys.flatMap (deletedNames deleteLease))).Cleared deleteLease key ↔
      key ∈ keys ∨ s.Cleared deleteLease key := by
  have hlive : ∀ n ∈ deletedNames deleteLease key,
      (s.clear (keys.flatMap (deletedNames deleteLease))).live n = none ↔
      key ∈ keys ∨ s.live n = none := by
    intro n hn
    rw [live_clear, ite_eq_left_iff, mem_deletedNames_iff hkey hkeys (deletedNames_subset hn)]
    tauto
  rw [Server.Cleared, Server.Cleared, forall₂_congr hlive]
  constructor
  · exact fun h => (em (key ∈ keys)).imp_right fun hkey n hn => (h n hn).resolve_left hkey
  · exact fun h n hn => h.imp_right fun h => h n hn

theorem Server.live_clear_records (hkey : Unprefixed key) (hkeys : ∀ k ∈ keys, Unprefixed k) :
    (∀ n ∈ keyRecords key, (s.clear (keys.flatMap (deletedNames deleteLease))).live n = s.live n) ↔
      (key ∈ keys → s.Cleared deleteLease key) := by
  constructor
  · intro h hmem n hn
    rw [← h n (deletedNames_subset hn), live_clear,
      if_pos ((mem_deletedNames_iff hkey hkeys (deletedNames_subset hn)).mpr ⟨hmem, hn⟩)]
  · intro h n hn
    rw [live_clear]
    split
    · next hmem =>
      obtain ⟨hmem, hn⟩ := (mem_deletedNames_iff hkey hkeys hn).mp hmem
      exact (h hmem n hn).symm
    · rfl

variable {command cfgText flagText : Bytes} {flag : Bool} {cfg deleteFlag : Int}

theorem ascHandler_delete (flag : Bool)
    (hwords : words command = ofChars Command.delete.name :: cfgText :: flagText :: ws) :
    ∃ noreply, ascHandler flag command = some (.delete, noreply) := by
  have htype := ascReqType_of_words hwords (cons_ne_nil _ _)
  have haccepts : ∀ noreply, Command.delete.accepts noreply
    ((ascTokenize command).length + 1) = true := by
    intro noreply
    have hlen : Command.delete.accepts noreply ((ascTokenize command).length + 1) =
        (decide (4 ≤ (ascTokenize command).length + 1) &&
          decide ((ascTokenize command).length + 1 ≤ intMax)) := by
      cases noreply <;> rfl
    rw [hlen, length_ascTokenize, hwords, length_cons, length_cons, length_cons, tokenMax, intMax,
      ← Bool.decide_and]
    exact decide_eq_true ⟨by omega, by omega⟩
  refine ⟨flag || (Command.delete.setsNoreply && ascNoreply (ascTokenize command)), ?_⟩
  rw [ascHandler, htype]
  simp only [bind_eq_bind, bind_some, haccepts, if_true]

theorem result_ascDeleteFields (hnumber : numberAt mcStrtol (ascTokenize command) 1 = some cfg)
    (hflag : numberAt mcStrtol (ascTokenize command) 2 = some deleteFlag)
    (hcfg : cfg = -1 ∨ cfg = s.configurationNumber)
    (hwords : words command = ofChars Command.delete.name :: cfgText :: flagText :: ws) :
    (ascDeleteFields s.configurationNumber command (ascTokenize command)).result =
      if s.configurationNumber = -1 then .error .silent else .ok (.delete cfg deleteFlag ws) := by
  rw [ascDeleteFields, result_lineNumber_bind hnumber, result_lineConfig_bind hcfg,
    result_lineNumber_bind hflag, ascKeys_eq (by decide) (Nat.lt_succ_self _), hwords]
  rfl

/-- A deletion, from its line to the state it leaves. -/
theorem wp_deleteLine (hnumber : numberAt mcStrtol (ascTokenize command) 1 = some cfg)
    (hflag : numberAt mcStrtol (ascTokenize command) 2 = some deleteFlag)
    (hcfg : cfg = -1 ∨ cfg = s.configurationNumber)
    (hwords : words command = ofChars Command.delete.name :: cfgText :: flagText :: ws) :
    wp (ascDispatchLine flag command) (fun _ => R) c s ↔ (s.configurationNumber = -1 ∨ ws ≠ []) ∧
      R (s.clear ((s.visited ws).flatMap (deletedNames (deleteFlag = 1)))) := by
  obtain ⟨noreply, hhandler⟩ := ascHandler_delete flag hwords
  have hresult := result_ascDeleteFields hnumber hflag hcfg hwords
  by_cases hserver : s.configurationNumber = -1
  · rw [if_pos hserver] at hresult
    rw [wp_ascDispatchLine_error hhandler rfl hresult, Server.visited, if_pos hserver,
      flatMap_nil, clear_nil]
    exact wp_pure.trans (by simp [hserver])
  · rw [if_neg hserver] at hresult
    rw [wp_ascDispatchLine_ok hhandler rfl hresult, ascDispatch, ascProcessDelete,
      wp_ascCheckConfig hcfg hserver, wp_ascDeleteKeys, Server.visited, if_neg hserver]
    simp [hserver]

/-- A deletion with an accepted configuration number deletes the records of the keys it lists, and
those of no other key, exactly if there is nothing to be seen of the keys it misses and of the words
it takes for keys. -/
theorem deleteLine_exact_iff (hnumber : numberAt mcStrtol (ascTokenize command) 1 = some cfg)
    (hflag : numberAt mcStrtol (ascTokenize command) 2 = some deleteFlag)
    (hcfg : cfg = -1 ∨ cfg = s.configurationNumber)
    (hwords : words command = ofChars Command.delete.name :: cfgText :: flagText :: ws)
    (hkeys : ∀ key ∈ ws, Unprefixed key) :
    wp (ascDispatchLine flag command) (fun _ s' =>
        (∀ key ∈ listedKeys ws, s'.Cleared (deleteFlag = 1) key) ∧
      ∀ key, Unprefixed key → key ∉ listedKeys ws →
        ∀ n ∈ keyRecords key, s'.live n = s.live n) c s ↔
        s.DeletesExactly (deleteFlag = 1) ws := by
  have hlisted : ∀ key ∈ listedKeys ws, Unprefixed key := by
    intro key hkey
    rw [listedKeys] at hkey
    split at hkey
    · exact hkeys key ((dropLast_sublist ws).subset hkey)
    · exact hkeys key hkey
  have hvisited : ∀ key ∈ s.visited ws, Unprefixed key := by
    intro key hkey
    rw [Server.visited] at hkey
    split at hkey
    · cases hkey
    · exact hkeys key ((takeWhile_sublist _).subset hkey)
  rw [wp_deleteLine hnumber hflag hcfg hwords]
  constructor
  · rintro ⟨hanswered, hcleared, hsame⟩
    refine ⟨hanswered, fun key hkey hmiss => ?_, fun key hkey hmiss => ?_⟩
    · exact ((cleared_clear (hlisted key hkey) hvisited).mp (hcleared key hkey)).resolve_left hmiss
    · exact (live_clear_records (hvisited key hkey) hvisited).mp
        (hsame key (hvisited key hkey) hmiss) hkey
  · rintro ⟨hanswered, hreached, hspared⟩
    refine ⟨hanswered, fun key hkey => ?_, fun key hkey hmiss => ?_⟩
    · refine (cleared_clear (hlisted key hkey) hvisited).mpr ?_
      exact (em (key ∈ s.visited ws)).imp_right (hreached key hkey)
    · exact (live_clear_records hkey hvisited).mpr fun hmem => hspared key hmem hmiss

/-- The line `delete 0 1 j k`. -/
def deletePair : Bytes :=
  ofChars ['d', 'e', 'l', 'e', 't', 'e', ' ', '0', ' ', '1', ' ', 'j', ' ', 'k']

/-- Two of three values are deleted, one of them with the lease on its key. -/
theorem deleteLine_exact_pair : ∃ (h : History) (w : World), (service {}).Run h w ∧
    (∀ n ∈ [[0x61], [0x6a], [0x6b], leaseKey [0x6b]], (w.server.live n).isSome) ∧
    wp (ascDispatchLine false deletePair)
      (fun _ s' => (∀ key ∈ listedKeys [[0x6a], [0x6b]], s'.Cleared true key) ∧
        ∀ key, Unprefixed key →
        key ∉ listedKeys [[0x6a], [0x6b]] → ∀ n ∈ keyRecords key, s'.live n = w.server.live n)
        {} w.server := by
  obtain ⟨h, w, hr, hlive, hserver⟩ := (playable_run {}).exists_run
    [.line 0 (.update .set 0 (-1) [0x61] 0 0 1), .body 0 [0x76, 0x0d, 0x0a],
      .line 0 (.update .set 0 (-1) [0x6a] 0 0 1), .body 0 [0x76, 0x0d, 0x0a],
      .line 0 (.update .set 0 (-1) [0x6b] 0 0 1), .body 0 [0x76, 0x0d, 0x0a],
      .line 1 (.qareg 0 [0x6b] [0x74])]
    (P := fun _ w => (∀ n ∈ [[0x61], [0x6a], [0x6b], leaseKey [0x6b]], (w.server.live n).isSome) ∧
      w.server.configurationNumber = 0) (by decide +kernel)
  have hwords : words deletePair = ofChars Command.delete.name :: [0x30] :: [0x31] ::
    [[0x6a], [0x6b]] := by
    decide
  have hnumbers : numberAt mcStrtol (ascTokenize deletePair) 1 = some 0 ∧
      numberAt mcStrtol (ascTokenize deletePair) 2 = some 1 := by
    decide +kernel
  have hvisited : w.server.visited [[0x6a], [0x6b]] = listedKeys [[0x6a], [0x6b]] := by
    rw [Server.visited, hserver]
    decide
  refine ⟨h, w, hr, hlive,
    (deleteLine_exact_iff hnumbers.1 hnumbers.2 (.inr hserver.symm) hwords (by decide)).mpr ?_⟩
  exact ⟨.inr (by decide), fun _ hkey hmiss => absurd (hvisited ▸ hkey) hmiss,
    fun _ hkey hmiss => absurd (hvisited ▸ hkey) hmiss⟩

/-- The option `noreply` is deleted as a key. -/
theorem deleteLine_takes_option : ∃ (h : History) (w : World) (it : Item), (service {}).Run h w ∧
    w.server.live noreplyWord = some it ∧ noreplyWord ∉ listedKeys [[0x6b], noreplyWord] ∧
    wp (ascDispatchLine false (ofChars ['d', 'e', 'l', 'e', 't', 'e', ' ', '0', ' ', '0', ' ', 'k',
        ' '] ++ noreplyWord)) (fun _ s' => s'.live noreplyWord = none) {} w.server := by
  obtain ⟨h, w, hr, it, hit, hserver⟩ := (playable_run {}).exists_run
    [.line 0 (.update .set (-1) (-1) noreplyWord 0 0 1), .body 0 [0x61, 0x0d, 0x0a]]
    (P := fun _ w => ∃ it, w.server.live noreplyWord = some it ∧ w.server.configurationNumber = 0)
      (by decide +kernel)
  refine ⟨h, w, it, hr, hit, by decide, ?_⟩
  have hwords : words (ofChars ['d', 'e', 'l', 'e', 't', 'e', ' ', '0', ' ', '0', ' ', 'k', ' '] ++
    noreplyWord) = ofChars Command.delete.name :: [0x30] :: [0x30] ::
    [[0x6b], noreplyWord] := by decide
  have hnumbers : ∀ i ∈ [1, 2], numberAt mcStrtol (ascTokenize
      (ofChars ['d', 'e', 'l', 'e', 't', 'e', ' ', '0', ' ', '0', ' ', 'k', ' '] ++ noreplyWord))
        i = some 0 := by
    decide +kernel
  refine (wp_deleteLine (hnumbers 1 (by decide)) (hnumbers 2 (by decide))
    (.inr hserver.symm) hwords).mpr
    ⟨.inr (by decide), ?_⟩
  rw [Server.visited, hserver, live_clear]
  exact if_pos (by decide)

end Deletions

end Rejig
