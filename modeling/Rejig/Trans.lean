import Rejig.History

/-!
# Transaction records

A transaction record lies in the same table as the values, under the identifier of the transaction,
and its payload is whatever the bytes under that name are.  In a run in which keys and identifiers
are kept apart it is what it should be: a list of keys that a request named.  `commit`, `dar` and
`release` work on the keys of that list, so this is what says which names they can reach.

An identifier that is too long for its length byte is cut, and `iqincr` files its record under the
text of its amount.  A record may therefore be found under names that no client uses as an
identifier; the invariant covers all names but the keys and the prefixed ones.
-/

namespace Rejig

open Prog Server Option

variable {h : History} {w : World}

variable {c : Settings} {N : Naming}

/-- The payload lists keys. -/
def Item.ListsKeys (N : Naming) (it : Item) : Prop :=
  ∃ ks, Encodes it.data ks ∧ ∀ key ∈ ks, N.isKey key ∧ key.length ≤ keyMaxLen

/-- What is under a name that is neither prefixed nor a key lists keys. -/
def Server.ListsKeys (N : Naming) (s : Server) : Prop :=
  ∀ n it, Unprefixed n → ¬ N.isKey n → s.find n = some it → it.ListsKeys N

section Lists

variable {s : Server} {it : Item} {tid key entry data : Bytes}

theorem Item.ListsKeys.of_has (h : it.ListsKeys N) (hentry : entry.length < 256)
    (hhas : it.Has entry) : N.isKey entry := by
  obtain ⟨ks, henc, hks⟩ := h
  rw [Item.Has, u8Name_of_lt hentry, Item.nbyte, henc.check] at hhas
  exact (hks entry (by simpa using hhas)).1

/-- Adding an entry to the list of a record, or to no record. -/
theorem Extended.encodes {old : Option Item} {ks : List Bytes} (h : Extended old entry data)
    (hold : ∀ o, old = some o → Encodes o.data ks) (hnone : old = none → ks = [])
    (hentry : entry.length < 256) : Encodes data (insertKey entry ks) := by
  have hname : u8Name entry = entry := u8Name_of_lt hentry
  have henc : Encodes (old.elim [] Item.data) ks := by
    cases old with
    | none => exact hnone rfl ▸ .nil
    | some o => exact hold o rfl
  have habsent : entry ∉ ks := by
    intro hmem
    cases old with
    | none =>
      rw [hnone rfl] at hmem
      cases hmem
    | some o =>
      refine h.absent o rfl ?_
      rw [Item.Has, hname, Item.nbyte, (hold o rfl).check, decide_eq_true hmem]
  obtain ⟨data', hadd, henc'⟩ := henc.addkey hentry habsent
  rw [← hname, h.added] at hadd
  cases hadd
  exact henc'

/-- The record with one more key lists keys, if the record before did. -/
theorem TransRecord.listsKeys (h : TransRecord c s tid key it) (hs : s.ListsKeys N)
    (hkey : N.isKey key) (hname : Unprefixed (u8Name tid)) (hfree : ¬ N.isKey (u8Name tid)) :
    it.ListsKeys N := by
  obtain ⟨hlen, data, hext, addr, cas, -, rfl⟩ := h
  obtain ⟨ks, hks, hold, hnone⟩ : ∃ ks : List Bytes, (∀ k ∈ ks, N.isKey k ∧ k.length ≤ keyMaxLen) ∧
      (∀ o, s.live tid = some o → Encodes o.data ks) ∧ (s.live tid = none → ks = []) := by
    cases ho : s.live tid with
    | none => exact ⟨[], by simp, by simp, fun _ => rfl⟩
    | some o =>
      -- an identifier that is found was not cut
      have hfind := (live_eq_some.mp ho).1
      have hcut : u8Name tid = tid := u8Name_of_lt (length_lt_of_find hfind)
      obtain ⟨ks, henc, hks⟩ := hs tid o (hcut ▸ hname) (hcut ▸ hfree) hfind
      exact ⟨ks, hks, fun o' ho' => some.inj ho' ▸ henc, by simp⟩
  refine ⟨insertKey key ks, hext.encodes hold hnone (hlen.trans_lt (by decide)), fun k hk => ?_⟩
  rcases mem_insertKey.mp hk with rfl | hk
  · exact ⟨hkey, hlen⟩
  · exact hks k hk

/-- The keys that a transaction lists are keys. -/
theorem Server.ListsKeys.of_listed (hs : s.ListsKeys N) (ht : N.isTid tid)
    (hkey : key ∈ s.listed tid) :
    N.isKey key ∧ key.length ≤ keyMaxLen := by
  rw [Server.listed] at hkey
  cases ho : s.live tid with
  | none => simp [ho] at hkey
  | some o =>
    obtain ⟨ks, henc, hks⟩ := hs tid o (N.tid_unprefixed ht) (fun hk => N.disjoint hk ht)
      (live_eq_some.mp ho).1
    rw [ho, bind_some, henc.entries, getD_some] at hkey
    exact hks key hkey

/-- A transaction does not list itself. -/
theorem Server.ListsKeys.not_has (hs : s.ListsKeys N) (ht : N.isTid tid)
    (ho : s.live tid = some it) :
    ¬ it.Has tid := by
  have hfind := (live_eq_some.mp ho).1
  have hlist := hs tid it (N.tid_unprefixed ht) (fun hk => N.disjoint hk ht) hfind
  exact fun hhas => N.disjoint (hlist.of_has (length_lt_of_find hfind) hhas) ht

end Lists

/-! ## The invariant -/

section Writes

variable {s : Server} {tid key : Bytes}

theorem ValueWrite.isKey {req : Request} {o : Option Item} {o' : Item}
    (h : ValueWrite s key o o' req) (hs : s.ListsKeys N) (hkeys : ∀ key ∈ req.keys, N.isKey key)
    (hids : ∀ tid ∈ req.ids, N.isTid tid) :
    N.isKey key := by
  cases h with
  | rewrite | inPlace | delay => exact hkeys _ (by simp [Request.keys])
  | commit hmem => exact (hs.of_listed (hids _ (by simp [Request.ids])) hmem).1

/-- The requests with names of the naming keep the lists. -/
theorem Request.Writes.listsKeys {req : Request} {n : Bytes} {o : Option Item} {o' : Item}
    (h : req.Writes c s o o' n) (hs : s.ListsKeys N) (hkeys : ∀ key ∈ req.keys, N.isKey key)
    (hids : ∀ tid ∈ req.ids, N.isTid tid) (hn : Unprefixed n) (hfree : ¬ N.isKey n) :
    o'.ListsKeys N := by
  cases h with
  | lease => exact absurd rfl hn.ne_leaseKey
  | version => exact absurd rfl hn.ne_versionKey
  | value h => exact absurd (h.isKey hs hkeys hids) hfree
  | marker => exact absurd rfl hn.ne_pendingKey
  | record hk _ _ h => exact h.listsKeys hs (hkeys _ hk) hn hfree

/-- The completions of requests on keys of the naming keep the lists. -/
theorem Completion.Writes.listsKeys {completion : Completion} {it : Item} {n : Bytes}
    {o : Option Item} {o' : Item} (h : completion.Writes c s it o o' n) (hs : s.ListsKeys N)
    (hkey : N.isKey it.key) (hn : Unprefixed n) (hfree : ¬ N.isKey n) : o'.ListsKeys N := by
  cases h with
  | link | rewrite => exact absurd hkey hfree
  | lease => exact absurd rfl hn.ne_leaseKey
  | version => exact absurd rfl hn.ne_versionKey
  | record _ h => exact h.listsKeys hs hkey hn hfree

end Writes

/-- In every run of IQ requests the records of transactions list keys. -/
theorem IqRun.listsKeys (hr : IqRun c N h w) : w.server.ListsKeys N := by
  refine IqRun.invariant (I := fun _ w => w.server.ListsKeys N) ?_ ?_ hr
  · intro n it _ _ hit
    cases hit
  · intro h w e w' hr ih hstep he hadv n it hn hfree
    refine hstep.items hr.run hadv (fun _ _ => id) ?_ ?_ (fun it => ih n it hn hfree) it
    · rintro conn req out rfl o it - hwrites
      exact hwrites.listsKeys ih (he.keys req rfl) (he.ids req rfl) hn hfree
    · rintro conn req p data r s₀ rfl hp o it - hwrites
      exact hwrites.listsKeys ih (he.keys req rfl _ hp.key_mem) hn hfree

end Rejig
