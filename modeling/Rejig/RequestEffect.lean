import Rejig.IqEffect
import Rejig.Header

/-!
# What a request may do

The permissions of the handlers, from those of the operations behind them.  A request line that does
not pass the tests of its handler leaves the state as it is, so no permission mentions the tests;
what they establish (the length of a key, for instance) is available where the operation starts.
-/

namespace Rejig

open Prog List

variable {P : Perm} {completion : Completion} {key : Bytes} {s₀ : Server} {vlen : Nat}

namespace Request

/-- The requests of the IQ protocol and of plain caching: neither those of a session nor the two
that change a register of the server. -/
def isIq : Request → Bool
  | get .. | update .. | arithmetic .. | delete .. | unlease .. | qareg .. | dar .. | qaread ..
  | sar .. | swap .. | iqDelta .. | iqConcat .. | commit .. | release .. | iqget
      .. | iset .. => true
  | _ => false

/-- The permission to drop the value of a key. -/
def dropValue (b : Bool) (key : Bytes) : Perm := ⟨fun n _ => b = true ∧ n = key, fun _ _ _ => False,
  fun _ _ => False⟩

/-- What the handler of a line may do. -/
def perm (c : Settings) (s : Server) : Request → Perm
  | update cmd _ _ key _ _ _ => dropValue cmd.dropsValue key
  | arithmetic _ _ key _ => deltaPerm s key
  | delete _ deleteLease keys =>
    ⟨fun n it => ∃ key ∈ keys, (deletePerm (deleteLease = 1) key).drop n it, fun _ _ _ => False,
      fun _ _ => False⟩
  | unlease _ key leaseToken => unleasePerm key leaseToken
  | qareg _ key tid => qaregPerm c s tid key
  | dar _ tid => darPerm c s tid
  | qaread _ key _ _ tid => qareadPerm c s tid key
  | sar _ key _ _ _ _ => dropValue true key
  | swap _ _ key _ _ _ _ => dropValue true key
  | iqDelta _ _ key delta _ =>
    match mcStrtoull delta with
    | none => .none
    | some _ => iqDeltaPerm c s delta key
  | commit _ frag tid _ => commitPerm c s tid (fragConfig frag s.configurationNumber)
  | release tid => releasePerm c s tid
  | iqget _ key _ => iqgetPerm c s key false
  | iset _ key _ _ => iqgetPerm c s key true
  | _ => .none

end Request

/-! ## What a line may write -/

/-- How a line may leave the lease `o'` on the key `k`, where there was `o`. -/
inductive LeaseWrite (c : Settings) (s : Server) (k : Bytes) (o : Option Item) (o' : Item) :
    Request → Prop
  | register {cfg : Int} {tid : Bytes} : InvLease c s k tid o' →
      LeaseWrite c s k o o' (.qareg cfg k tid)
  | finish {req : Request} {tid : Bytes} {l : Item} : req.finishes = some tid → k ∈ s.listed tid →
      l.hasQInvLease = true → o = some l ∨ l.pinned = false → Rebuilt c s (leaseKey k) tid l o' →
      LeaseWrite c s k o o' req
  /-- The transaction lists itself as a key. -/
  | release {tid : Bytes} {t : Item} : s.live tid = some t → Rebuilt c s (leaseKey k) tid t o' →
      LeaseWrite c s k o o' (.release tid)
  | refresh {cfg readValue : Int} {token : UInt64} {tid : Bytes} : s.Unquarantined k →
      TokenLease c s k .qRef o' →
      LeaseWrite c s k o o' (.qaread cfg k readValue token tid)
  | increment {incr : Bool} {cfg : Int} {delta tid : Bytes} : TokenLease c s k .qInc o' →
      LeaseWrite c s k o o' (.iqDelta incr cfg k delta tid)
  /-- A reader that has to wait leaves the pending bit. -/
  | mark {req : Request} {l : Item} {p : UInt8} : req.misses = some k → o = some l →
      o' = { l with p := p } →
      LeaseWrite c s k o o' req
  | fill {req : Request} : req.misses = some k → o = none → TokenLease c s k .i o' →
      LeaseWrite c s k o o' req

/-- How a line may write the pending version `o'` of the key `k`, where there was `o`. -/
inductive VersionWrite (s : Server) (k : Bytes) (o : Option Item) (o' : Item) : Request → Prop
  | refresh {cfg readValue : Int} {token : UInt64} {tid : Bytes} : s.Unquarantined k → Version o' →
      VersionWrite s k o o' (.qaread cfg k readValue token tid)
  | increment {incr : Bool} {cfg : Int} {delta tid : Bytes} : s.MayUpdate delta k →
      (Version o' ∨ ∃ it cas data, o = some it ∧ o' = { it with cas := cas, data := data }) →
      VersionWrite s k o o' (.iqDelta incr cfg k delta tid)

/-- How a line may write the value `o'` of the key `k`, where there was `o`. -/
inductive ValueWrite (s : Server) (k : Bytes) (o : Option Item) (o' : Item) : Request → Prop
  | rewrite {incr : Bool} {cfg : Int} {delta : Bytes} {it : Item} :
      o = some it ∨ o = none ∧ s.live k = some it →
      Rewritten s it o' → ValueWrite s k o o' (.arithmetic incr cfg k delta)
  | inPlace {incr : Bool} {cfg : Int} {delta : Bytes} {it : Item} {cas : UInt64} {data : Bytes} :
      o = some it →
      o' = { it with cas := cas, data := data } → ValueWrite s k o o' (.arithmetic incr cfg k delta)
  | delay {cfg : Int} {tid : Bytes} {it : Item} {e : Nat} :
      o = some it → o' = { it with exptime := e } →
      ValueWrite s k o o' (.qareg cfg k tid)
  | commit {cfg frag pending : Int} {tid : Bytes} : k ∈ s.listed tid →
      Committed s (fragConfig frag s.configurationNumber) o' → s.Pends tid k o'.data →
      ValueWrite s k o o' (.commit cfg frag tid pending)

namespace Request

/-- What a line may leave under a name, where there was `o`. -/
inductive Writes (c : Settings) (s : Server) (req : Request) (o : Option Item) (o' : Item) :
    Bytes → Prop
  | lease {k : Bytes} : LeaseWrite c s k o o' req → Writes c s req o o' (leaseKey k)
  | version {k : Bytes} : VersionWrite s k o o' req → Writes c s req o o' (versionKey k)
  | value {k : Bytes} : ValueWrite s k o o' req → Writes c s req o o' k
  | marker {cfg frag pending : Int} {tid k : Bytes} : req = .commit cfg frag tid pending →
      k ∈ s.listed tid →
      Committed s (fragConfig frag s.configurationNumber) o' → Writes c s req o o' (pendingKey k)
  /-- The record of a transaction; an increment files it under the text of its amount. -/
  | record {tid k : Bytes} : k ∈ req.keys → u8Name tid ∈ req.records → tid ∈ req.ids ∨
      (mcStrtoull tid).isSome →
      TransRecord c s tid k o' → Writes c s req o o' (u8Name tid)

variable {c : Settings} {s : Server} {req : Request} {n : Bytes} {o o' : Item}

theorem writes_of_edit (h : (req.perm c s).edit n o o') : req.Writes c s (some o) o' n := by
  cases req with
  | arithmetic =>
    obtain ⟨rfl, h | ⟨cas, data, h⟩⟩ := h
    · exact .value (.rewrite (.inl rfl) h)
    · exact .value (.inPlace rfl h)
  | qareg =>
    obtain ⟨rfl, h⟩ | ⟨rfl, h⟩ | ⟨rfl, e, h⟩ := h
    · exact .lease (.register h)
    · exact .record (by simp [keys]) (by simp [records]) (.inl (by simp [ids])) h
    · exact .value (.delay rfl h)
  | dar =>
    obtain ⟨k, hmem, rfl, hinv, h⟩ := h
    exact .lease (.finish rfl hmem hinv (.inl rfl) h)
  | qaread =>
    obtain ⟨hunq, ⟨rfl, -, h⟩ | ⟨rfl, h⟩ | ⟨rfl, h⟩⟩ := h
    · exact .lease (.refresh hunq h)
    · exact .version (.refresh hunq h)
    · exact .record (by simp [keys]) (by simp [records]) (.inl (by simp [ids])) h
  | iqDelta =>
    rw [perm] at h
    split at h
    · exact h.elim
    · next hdelta =>
      obtain ⟨rfl, hmay, h⟩ | ⟨rfl, h⟩ := h
      · refine .version (.increment hmay (h.imp_right ?_))
        rintro ⟨cas, data, h⟩
        exact ⟨o, cas, data, rfl, h⟩
      · exact .record (by simp [keys]) (by simp [records]) (.inr (by simp [hdelta])) h
  | commit =>
    obtain ⟨k, hmem, ⟨rfl, hinv, h⟩ | ⟨hn, h, hd⟩⟩ := h
    · exact .lease (.finish rfl hmem hinv (.inl rfl) h)
    · simp only [mem_cons, not_mem_nil, or_false] at hn
      obtain rfl | rfl := hn
      · exact .value (.commit hmem h (hd rfl))
      · exact .marker rfl hmem h
  | release =>
    obtain ⟨k, -, rfl, t, ht, h⟩ := h
    exact .lease (.release ht h)
  | iqget | iset =>
    obtain ⟨rfl, p, h⟩ := h
    exact .lease (.mark rfl rfl h)
  | _ => exact h.elim

theorem writes_of_install (h : (req.perm c s).install n o') : req.Writes c s none o' n := by
  cases req with
  | arithmetic =>
    obtain ⟨rfl, it, hlive, h⟩ := h
    exact .value (.rewrite (.inr ⟨rfl, hlive⟩) h)
  | qareg =>
    obtain ⟨rfl, h⟩ | ⟨rfl, h⟩ := h
    · exact .lease (.register h)
    · exact .record (by simp [keys]) (by simp [records]) (.inl (by simp [ids])) h
  | dar =>
    obtain ⟨k, hmem, rfl, l, hinv, hp, h⟩ := h
    exact .lease (.finish rfl hmem hinv (.inr hp) h)
  | qaread =>
    obtain ⟨hunq, ⟨rfl, h⟩ | ⟨rfl, h⟩ | ⟨rfl, h⟩⟩ := h
    · exact .lease (.refresh hunq h)
    · exact .version (.refresh hunq h)
    · exact .record (by simp [keys]) (by simp [records]) (.inl (by simp [ids])) h
  | iqDelta =>
    rw [perm] at h
    split at h
    · exact h.elim
    · next hdelta =>
      obtain ⟨rfl, h⟩ | ⟨rfl, hmay, h⟩ | ⟨rfl, h⟩ := h
      · exact .lease (.increment h)
      · exact .version (.increment hmay (.inl h))
      · exact .record (by simp [keys]) (by simp [records]) (.inr (by simp [hdelta])) h
  | commit =>
    obtain ⟨k, hmem, ⟨rfl, l, hinv, hp, h⟩ | ⟨hn, h, hd⟩⟩ := h
    · exact .lease (.finish rfl hmem hinv (.inr hp) h)
    · simp only [mem_cons, not_mem_nil, or_false] at hn
      obtain rfl | rfl := hn
      · exact .value (.commit hmem h (hd rfl))
      · exact .marker rfl hmem h
  | release =>
    obtain ⟨k, -, rfl, t, ht, h⟩ := h
    exact .lease (.release ht h)
  | iqget | iset => exact h.1 ▸ .lease (.fill rfl rfl h.2)
  | _ => exact h.elim

end Request

section Lines

variable {c : Settings} {s : Server}

theorem evolve_ascAllocBody {flags : Nat} {exptime configNum : Int} {dropsValue : Bool} :
    wlp (ascAllocBody key flags exptime vlen configNum dropsValue completion)
      (fun _ => Evolve (Request.dropValue dropsValue key) s) c s := by
  have hs := Evolve.refl (Request.dropValue dropsValue key) s
  rw [ascAllocBody, wlp_bind, wlp_itemSlabid]
  split
  · exact .pure hs
  rw [wlp_bind, wlp_timeReltime, wlp_bind, wlp_itemAllocConfig]
  intro _
  cases s.room with
  | true =>
    rw [if_pos rfl, wlp_bind, wlp_ask]
    exact .pure hs.allocate
  | false =>
    simp only [Bool.false_eq_true, if_false]
    rw [wlp_bind, wlp_when]
    refine ⟨fun hb => ?_, fun _ => .pure hs.allocate⟩
    rw [wlp_bind, wlp_itemGet]
    refine (evolve_dropFound hs.allocate ?_).mono fun _ _ h => .pure h
    exact fun it _ => ⟨hb, rfl⟩

theorem evolve_ascAllocConcat :
    wlp (ascAllocConcat key vlen completion) (fun _ => Evolve P s) c s := by
  rw [ascAllocConcat, wlp_bind, wlp_itemAlloc]
  intro _
  cases s.room with
  | true => exact .pure (Evolve.refl P s).allocate
  | false => exact .pure (Evolve.refl P s).allocate

theorem evolve_ascReadKeys (keys : List Bytes) (hs : Evolve P s₀ s) :
    wlp (ascReadKeys keys) (fun _ => Evolve P s₀) c s := by
  induction keys generalizing s with
  | nil => exact .pure hs
  | cons key keys ih =>
    rw [ascReadKeys]
    split
    · exact .pure hs
    · rw [wlp_bind, wlp_itemGet, wlp_bind]
      have htouch : wlp (whenSome (s.live key) itemTouch) (fun _ => Evolve P s₀) c
        (s.reap key) := by
        rw [wlp_whenSome]
        exact ⟨fun _ => hs.reap _, fun it _ => evolve_itemTouch (hs.reap _)⟩
      refine htouch.mono fun _ s₁ hs₁ => ?_
      exact .bind ((ih hs₁).mono fun _ _ h => .pure h)

theorem evolve_ascDeleteKeys {deleteLease : Bool} (keys : List Bytes) (res : Option StoreResult)
    (hs : Evolve P s₀ s) (hP : ∀ key ∈ keys, ∀ n it, (deletePerm deleteLease key).drop n it →
      P.drop n it) :
    wlp (ascDeleteKeys deleteLease res keys) (fun _ => Evolve P s₀) c s := by
  induction keys generalizing s res with
  | nil =>
    rw [ascDeleteKeys, wlp_bind, wlp_deref]
    intro r _
    cases r <;> exact .pure hs
  | cons key keys ih =>
    rw [ascDeleteKeys]
    split
    · exact .pure hs
    · refine .bind ((evolve_itemGetAndDelete hs (hP key (by simp))).mono fun r s₁ hs₁ => ?_)
      exact ih (some r) hs₁ fun key' hkey' => hP key' (by simp [hkey'])

theorem evolve_ascCheckConfig {cfg : Int} {handler : Int → ServerM Outcome}
    (h : wlp (handler s.configurationNumber) (fun _ => Evolve P s) c s) :
    wlp (ascCheckConfig cfg handler) (fun _ => Evolve P s) c s :=
  wlp_ascCheckConfig (fun _ _ => .refl P s) fun _ => h

theorem evolve_ascCheckLength {max : Nat} {name : Bytes} {handler : ServerM Outcome}
    (h : name.length ≤ max → wlp handler (fun _ => Evolve P s) c s) :
    wlp (ascCheckLength max name handler) (fun _ => Evolve P s) c s :=
  wlp_ascCheckLength (fun _ _ => .refl P s) h

/-- A handler that turns the result of an operation into a reply. -/
theorem evolve_reply {A : Type} {op : ServerM A} {reply : A → ServerM Outcome}
    (hop : wlp op (fun _ => Evolve P s) c s) (hreply : ∀ a, ∃ r, reply a = pure (.reply r)) :
    wlp (op >>= reply) (fun _ => Evolve P s) c s := by
  refine .bind (hop.mono fun a s' hs' => ?_)
  obtain ⟨r, hr⟩ := hreply a
  rw [hr]
  exact .pure hs'

/-- The handler of an IQ request keeps to the permission of the request. -/
theorem evolve_ascDispatch {req : Request} (hreq : req.isIq) :
    wlp (ascDispatch req) (fun _ => Evolve (req.perm c s) s) c s := by
  have hs := Evolve.refl (req.perm c s) s
  cases req with
  | get cas cfg keys =>
    rw [ascDispatch, ascProcessRead]
    refine evolve_ascCheckConfig ?_
    refine evolve_reply (evolve_ascReadKeys keys hs) fun r => ?_
    cases r <;> exact ⟨_, rfl⟩
  | update cmd cfg frag key flags exptime vlen =>
    rw [ascDispatch, ascProcessUpdate]
    refine evolve_ascCheckLength fun _ => evolve_ascCheckConfig ?_
    exact evolve_ascAllocBody
  | arithmetic incr cfg key delta =>
    rw [ascDispatch, ascProcessArithmetic]
    refine evolve_ascCheckConfig <| evolve_ascCheckLength fun hk => ?_
    split
    · exact .pure hs
    · refine evolve_reply (evolve_itemAddDelta (by simp only [keyMaxLen] at hk; omega)) fun r => ?_
      cases r <;> exact ⟨_, rfl⟩
  | delete cfg deleteLease keys =>
    rw [ascDispatch, ascProcessDelete]
    refine evolve_ascCheckConfig ?_
    exact evolve_ascDeleteKeys keys none hs fun key hkey n it h => ⟨key, hkey, h⟩
  | unlease cfg key leaseToken =>
    rw [ascDispatch, ascProcessUnlease]
    refine evolve_ascCheckConfig <| evolve_ascCheckLength fun _ => ?_
    exact evolve_reply evolve_itemGetAndUnlease fun _ => ⟨_, rfl⟩
  | qareg cfg key tid =>
    rw [ascDispatch, ascProcessQareg]
    refine evolve_ascCheckConfig <| evolve_ascCheckLength fun hk => ?_
    refine evolve_ascCheckLength fun ht => ?_
    exact evolve_reply (evolve_itemQuarantineAndRegister hk ht) fun _ => ⟨_, rfl⟩
  | dar cfg tid =>
    rw [ascDispatch, ascProcessDar]
    refine evolve_ascCheckConfig <| evolve_ascCheckLength fun _ => ?_
    refine evolve_reply evolve_itemDeleteAndRelease fun r => ?_
    cases r <;> exact ⟨_, rfl⟩
  | qaread cfg key readValue leaseToken tid =>
    rw [ascDispatch, ascProcessQaread]
    refine evolve_ascCheckConfig <| evolve_ascCheckLength fun hk => ?_
    exact evolve_reply (evolve_itemQuarantineAndRead hk) fun _ => ⟨_, rfl⟩
  | sar cfg key flags exptime vlen leaseToken =>
    rw [ascDispatch, ascProcessSar]
    refine evolve_ascCheckConfig <| evolve_ascCheckLength fun _ => ?_
    exact evolve_ascAllocBody
  | swap cfg frag key flags exptime vlen leaseToken =>
    rw [ascDispatch, ascProcessSwap]
    refine evolve_ascCheckLength fun _ => evolve_ascCheckConfig ?_
    exact evolve_ascAllocBody
  | iqDelta incr cfg key delta tid =>
    rw [ascDispatch, ascProcessIqDelta]
    refine evolve_ascCheckConfig <| evolve_ascCheckLength fun hk => ?_
    rw [Request.perm] at hs ⊢
    cases hdelta : mcStrtoull delta with
    | none =>
      rw [hdelta] at hs
      exact .pure hs
    | some amount => exact evolve_reply (evolve_itemIqincrIqdecr hk) fun _ => ⟨_, rfl⟩
  | iqConcat append cfg key vlen tid =>
    rw [ascDispatch, ascProcessIqConcat]
    refine evolve_ascCheckLength fun _ => evolve_ascCheckConfig ?_
    exact evolve_ascAllocConcat
  | commit cfg frag tid pending =>
    rw [ascDispatch, ascProcessCommit]
    refine evolve_ascCheckLength fun _ => evolve_ascCheckConfig ?_
    refine evolve_reply evolve_itemCommit fun r => ?_
    cases r <;> exact ⟨_, rfl⟩
  | release tid =>
    rw [ascDispatch, ascProcessRelease]
    refine evolve_ascCheckLength fun _ => ?_
    refine evolve_reply evolve_itemRelease fun r => ?_
    cases r <;> exact ⟨_, rfl⟩
  | iqget cfg key leaseToken =>
    rw [ascDispatch, ascProcessIqget]
    refine evolve_ascCheckConfig <| evolve_ascCheckLength fun hk => ?_
    exact evolve_reply (evolve_itemIqget hk) fun _ => ⟨_, rfl⟩
  | iset cfg key leaseToken tid =>
    rw [ascDispatch, ascProcessIqget]
    refine evolve_ascCheckConfig <| evolve_ascCheckLength fun hk => ?_
    exact evolve_reply (evolve_itemIqget hk) fun _ => ⟨_, rfl⟩
  | _ => cases hreq

end Lines

/-! ## Bodies -/

namespace Completion

/-- The completions of IQ requests. -/
def isIq : Completion → Bool
  | store _ | iqConcat .. | sar _ | swap _ => true
  | _ => false

/-- What the completion of a request may do with the item `it`. -/
def perm (c : Settings) (s : Server) (it : Item) : Completion → Perm
  | store cmd => storePerm s cmd it
  | iqConcat _ tid => iqDeltaPerm c s tid it.key
  | sar leaseToken => sarPerm s it leaseToken
  | swap _ => swapPerm it.key
  | _ => .none

/-- What the completion of a request with the item `it` may leave under a name, where there was
`o`. -/
inductive Writes (c : Settings) (s : Server) (it : Item) (completion : Completion) (o : Option Item)
    (o' : Item) :
    Bytes → Prop
  | link : (∃ cmd, completion = .store cmd) ∨ (∃ leaseToken, completion = .sar leaseToken) →
      Linked s it o' →
      Writes c s it completion o o' it.key
  | rewrite {l : Item} : Rewritten s l o' → Writes c s it completion o o' it.key
  | lease : TokenLease c s it.key .qInc o' → Writes c s it completion o o' (leaseKey it.key)
  | version : (∀ cmd, completion ≠ .store cmd) →
      (Version o' ∨ ∃ l cas data, o = some l ∧ o' = { l with cas := cas, data := data }) →
      Writes c s it completion o o' (versionKey it.key)
  | record {append : Bool} {tid : Bytes} : completion = .iqConcat append tid →
      TransRecord c s tid it.key o' →
      Writes c s it completion o o' (u8Name tid)

variable {c : Settings} {s : Server} {it : Item} {n : Bytes} {o o' : Item}

theorem writes_of_edit (h : (completion.perm c s it).edit n o o') :
    completion.Writes c s it (some o) o' n := by
  cases completion with
  | store cmd =>
    obtain ⟨rfl, h | h⟩ := h
    · exact .link (.inl ⟨cmd, rfl⟩) h
    · exact .rewrite h
  | iqConcat append tid =>
    obtain ⟨rfl, -, h⟩ | ⟨rfl, h⟩ := h
    · refine .version (by simp) (h.imp_right ?_)
      rintro ⟨cas, data, h⟩
      exact ⟨o, cas, data, rfl, h⟩
    · exact .record rfl h
  | sar token => exact h.1 ▸ .link (.inr ⟨token, rfl⟩) h.2
  | swap => exact h.1 ▸ .version (by simp) (.inl h.2)
  | _ => exact h.elim

theorem writes_of_install (h : (completion.perm c s it).install n o') :
    completion.Writes c s it none o' n := by
  cases completion with
  | store cmd =>
    obtain ⟨rfl, h | ⟨l, -, h⟩⟩ := h
    · exact .link (.inl ⟨cmd, rfl⟩) h
    · exact .rewrite h
  | iqConcat append tid =>
    obtain ⟨rfl, h⟩ | ⟨rfl, -, h⟩ | ⟨rfl, h⟩ := h
    · exact .lease h
    · exact .version nofun (.inl h)
    · exact .record rfl h
  | sar token => exact h.1 ▸ .link (.inr ⟨token, rfl⟩) h.2
  | swap => exact h.1 ▸ .version nofun (.inl h.2)
  | _ => exact h.elim

end Completion

/-- The item of a request with its body. -/
def Pending.filled (p : Pending) (body : Bytes) : Item := { p.item with data := body.take p.vlen }

/-- The completion of an IQ request keeps to its permission. -/
theorem evolve_ascCompleteNread {c : Settings} {s : Server} {p : Pending} {body : Bytes}
    (hp : p.completion.isIq) (hk : p.item.key.length ≤ keyMaxLen) : wlp (ascCompleteNread p body)
      (fun _ => Evolve (p.completion.perm c s (p.filled body)) s) c s := by
  have hs := Evolve.refl (p.completion.perm c s (p.filled body)) s
  have hk' : (p.filled body).key.length ≤ keyMaxLen := hk
  have hfilled : { p.item with data := body.take p.vlen } = p.filled body := rfl
  rw [ascCompleteNread, hfilled]
  split
  · exact .pure hs
  cases hc : p.completion with
  | store cmd =>
    rw [ascComplete, wlp_bind]
    refine (evolve_itemStore ?_).mono fun _ _ h => .pure h
    exact Nat.lt_of_le_of_lt hk (by decide)
  | iqConcat append tid =>
    rw [ascComplete, wlp_bind]
    exact (evolve_itemIqappendIqprepend hk').mono fun _ _ h => .pure h
  | sar leaseToken =>
    rw [ascComplete, wlp_bind]
    refine evolve_itemSwapAndRelease.mono fun r _ h => ?_
    cases r <;> exact .pure h
  | swap leaseToken =>
    rw [ascComplete, wlp_bind]
    refine (evolve_itemSwap hk').mono fun r _ h => ?_
    cases r <;> exact .pure h
  | _ => rw [hc] at hp; cases hp

end Rejig
