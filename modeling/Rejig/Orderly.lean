import Rejig.Stable
import Rejig.Trans

/-!
# Lists in runs of all requests

Keys, transactions and sessions share one table, and the lists of keys and of sessions in it say
which names `commit`, `dcommit` and their relatives reach.  When clients keep their names apart
these lists are in order: what is neither prefixed nor a key lists keys, and a session lease lists
sessions.

This holds for all requests, those of sessions included.  `stable_orderly` is the invariant,
together with any property of values that the operations on other records do not concern.
-/

namespace Rejig

open Prog Server Option

variable {ks : List Bytes}

/-- A key that passes the test of its length. -/
structure Naming.Key (N : Naming) (n : Bytes) : Prop where
  isKey : N.isKey n
  short : n.length ≤ keyMaxLen

/-- A name for a transaction or a session, whose record is not filed under the name of a key. -/
structure Naming.Owner (N : Naming) (n : Bytes) : Prop where
  unprefixed : Unprefixed n
  notKey : ¬ N.isKey n
  filed : ¬ N.isKey (u8Name n)

/-- A step whose request names keys, and files its records under other names. -/
structure Event.Apart (N : Naming) (e : Event) : Prop where
  keys : ∀ req, e.request = some req → ∀ key ∈ req.keys, N.isKey key
  owners : ∀ req, e.request = some req → ∀ tid ∈ req.owners, N.Owner tid

/-- The payload of a record lists what it should. -/
structure Item.Orderly (N : Naming) (it : Item) : Prop where
  lists : Unprefixed it.key → ¬ N.isKey it.key → it.ListsKeys N
  shares : ∀ key, it.key = coLeaseKey key → ∃ ks, Encodes it.data ks ∧ ∀ sid ∈ ks, N.Owner sid

section Names

variable {N : Naming} {n key : Bytes}

theorem u8Name_u8Name (n : Bytes) : u8Name (u8Name n) = u8Name n :=
  u8Name_of_lt (length_u8Name_lt n)

/-- An entry of a list is a name that was cut to its length byte. -/
theorem Naming.Owner.u8Name (h : N.Owner n) : N.Owner (u8Name n) :=
  ⟨h.unprefixed.u8Name, h.filed, (u8Name_u8Name n).symm ▸ h.filed⟩

theorem not_unprefixed_coLeaseKey (key : Bytes) : ¬ Unprefixed (coLeaseKey key) := by
  simp [Unprefixed, coLeaseKey, reservedPrefixes]

theorem Unprefixed.ne_coLeaseKey (h : Unprefixed n) : n ≠ coLeaseKey key := by
  rintro rfl
  exact not_unprefixed_coLeaseKey key h

theorem u8Name_coLeaseKey (h : key.length ≤ keyMaxLen) : u8Name (coLeaseKey key) = coLeaseKey key :=
  u8Name_of_lt (by simp only [coLeaseKey, List.length_cons, keyMaxLen] at *; omega)

end Names

/-- The test that a step works on the listed keys and files its records under other names. -/
def Event.apartNamed (keys : List Bytes) (e : Event) : Bool :=
  e.request.all fun req => req.keys.all (· ∈ keys) &&
    req.owners.all fun tid => Unprefixed tid && tid ∉ keys && u8Name tid ∉ keys

theorem Event.Apart.of_named {keys tids : List Bytes} {hk : ∀ n ∈ keys, Unprefixed n}
    {ht : ∀ n ∈ tids, Unprefixed n} {hd : ∀ n ∈ keys, n ∉ tids} {e : Event}
    (h : e.apartNamed keys = true) :
    e.Apart (.ofLists keys tids hk ht hd) := by
  have hreq : ∀ req, e.request = some req → (∀ key ∈ req.keys, key ∈ keys) ∧
      ∀ tid ∈ req.owners, (Unprefixed tid ∧ tid ∉ keys) ∧ u8Name tid ∉ keys := by
    intro req hreq
    simpa [Event.apartNamed, hreq] using h
  refine ⟨fun req h => (hreq req h).1, fun req h tid hmem => ?_⟩
  obtain ⟨⟨hname, hfree⟩, hfiled⟩ := (hreq req h).2 tid hmem
  exact ⟨hname, hfree, hfiled⟩

namespace Item.Orderly

variable {N : Naming} {A : Nat → Prop} {key name sid : Bytes} {old : Option Item} {it it' o : Item}

/-- A value is no list. -/
theorem of_key (h : N.isKey it.key) : it.Orderly N :=
  ⟨fun _ hkey => absurd h hkey, fun _ hname => absurd hname (N.key_unprefixed h).ne_coLeaseKey⟩

theorem of_prefixed (h : ¬ Unprefixed it.key) (hco : ∀ key, it.key ≠ coLeaseKey key) :
    it.Orderly N :=
  ⟨fun hname => absurd hname h, fun key hname => absurd hname (hco key)⟩

theorem congr (h : it.Orderly N) (hkey : it'.key = it.key) (hdata : it'.data = it.data) :
    it'.Orderly N := by
  obtain ⟨hlists, hshares⟩ := h
  constructor
  · rw [hkey]
    intro hname hfree
    obtain ⟨ks, henc, hks⟩ := hlists hname hfree
    exact ⟨ks, hdata ▸ henc, hks⟩
  · rw [hkey, hdata]
    exact hshares

theorem lease (hkey : N.Key key) (hname : it.key = u8Name (leaseKey key)) : it.Orderly N := by
  rw [u8Name_leaseKey hkey.short] at hname
  refine of_prefixed (hname ▸ not_unprefixed_leaseKey key) fun key' => ?_
  rw [hname]
  simp [leaseKey, coLeaseKey]

theorem version (hkey : N.Key key) (hname : it.key = u8Name (versionKey key)) : it.Orderly N := by
  rw [u8Name_versionKey hkey.short] at hname
  refine of_prefixed (hname ▸ not_unprefixed_versionKey key) fun key' => ?_
  rw [hname]
  simp [versionKey, coLeaseKey]

theorem marker (hkey : N.Key key) (hname : it.key = u8Name (pendingKey key)) : it.Orderly N := by
  rw [u8Name_pendingKey hkey.short] at hname
  refine of_prefixed (hname ▸ not_unprefixed_pendingKey key) fun key' => ?_
  rw [hname]
  simp [pendingKey, coLeaseKey]

/-- The list of a transaction or a session with one more key. -/
theorem list (htid : N.Owner name) (hkey : N.Key key)
    (hold : ∀ o, old = some o → o.Orderly N ∧ o.key = name) (hname : it.key = u8Name name)
    (hext : Extended old key it.data) : it.Orderly N := by
  refine ⟨fun _ _ => ?_, fun key' hco => ?_⟩
  · obtain ⟨ks, hks, henc, hnone⟩ : ∃ ks : List Bytes,
        (∀ k ∈ ks, N.isKey k ∧ k.length ≤ keyMaxLen) ∧
        (∀ o, old = some o → Encodes o.data ks) ∧ (old = none → ks = []) := by
      cases old with
      | none => exact ⟨[], by simp, nofun, fun _ => rfl⟩
      | some o =>
        obtain ⟨hord, honame⟩ := hold o rfl
        obtain ⟨ks, henc, hks⟩ := hord.lists (honame ▸ htid.unprefixed) (honame ▸ htid.notKey)
        exact ⟨ks, hks, fun o' ho' => some.inj ho' ▸ henc, nofun⟩
    refine ⟨insertKey key ks, hext.encodes henc hnone (hkey.short.trans_lt (by decide)),
      fun k hk => ?_⟩
    rcases mem_insertKey.mp hk with rfl | hk
    · exact ⟨hkey.isKey, hkey.short⟩
    · exact hks k hk
  · rw [hname] at hco
    exact absurd hco htid.unprefixed.u8Name.ne_coLeaseKey

/-- A session lease with one more session. -/
theorem share (hkey : N.Key key) (hsid : N.Owner sid)
    (hold : ∀ o, old = some o → o.Orderly N ∧ o.key = coLeaseKey key)
    (hname : it.key = u8Name (coLeaseKey key)) (hext : Extended old sid it.data) :
    it.Orderly N := by
  rw [u8Name_coLeaseKey hkey.short] at hname
  refine ⟨fun h => absurd h (hname ▸ not_unprefixed_coLeaseKey key), fun key' _ => ?_⟩
  obtain ⟨ks, hks, henc, hnone⟩ : ∃ ks : List Bytes, (∀ sid ∈ ks, N.Owner sid) ∧
      (∀ o, old = some o → Encodes o.data ks) ∧ (old = none → ks = []) := by
    cases old with
    | none => exact ⟨[], by simp, nofun, fun _ => rfl⟩
    | some o =>
      obtain ⟨hord, honame⟩ := hold o rfl
      obtain ⟨ks, henc, hks⟩ := hord.shares key honame
      exact ⟨ks, hks, fun o' ho' => some.inj ho' ▸ henc, nofun⟩
  -- the entry is the identifier as far as it fits its length byte
  have hcut : Extended old (u8Name sid) it.data := by
    constructor
    · intro o ho hhas
      refine hext.absent o ho ?_
      rwa [Item.Has, u8Name_u8Name] at hhas
    · rw [u8Name_u8Name]
      exact hext.added
  refine ⟨_, hcut.encodes henc hnone (length_u8Name_lt sid), fun s hs => ?_⟩
  rcases mem_insertKey.mp hs with rfl | hs
  · exact hsid.u8Name
  · exact hks s hs

/-- A session lease without one of its sessions. -/
theorem unshare (hkey : N.Key key) (ho : o.Orderly N) (honame : o.key = coLeaseKey key)
    (hhas : o.Has sid) (hname : it.key = u8Name (coLeaseKey key))
    (hrmv : trigKeylistRmvkey o.data (u8Name sid) = some it.data) :
    it.Orderly N := by
  rw [u8Name_coLeaseKey hkey.short] at hname
  refine ⟨fun h => absurd h (hname ▸ not_unprefixed_coLeaseKey key), fun key' _ => ?_⟩
  obtain ⟨ks, henc, hks⟩ := ho.shares key honame
  have hmem : u8Name sid ∈ ks := by
    rw [Item.Has, Item.nbyte, henc.check] at hhas
    simpa using hhas
  obtain ⟨data, hdata, henc'⟩ := henc.rmvkey hmem
  rw [hrmv] at hdata
  cases hdata
  exact ⟨_, henc', fun s hs => hks s (List.mem_of_mem_erase hs)⟩

/-- Lists of transactions and sessions contain keys. -/
theorem listed (h : it.Orderly N) (hname : N.Owner it.key)
    (hks : trigKeylistEntries it.data = some ks) :
    ∀ key ∈ ks, N.Key key := by
  obtain ⟨ks', henc, hks'⟩ := h.lists hname.unprefixed hname.notKey
  rw [henc.entries] at hks
  cases hks
  exact fun key hmem => ⟨(hks' key hmem).1, (hks' key hmem).2⟩

/-- Session leases list sessions. -/
theorem shared (h : it.Orderly N) (hname : it.key = coLeaseKey key)
    (hks : trigKeylistEntries it.data = some ks) :
    ∀ sid ∈ ks, N.Owner sid := by
  obtain ⟨ks', henc, hks'⟩ := h.shares key hname
  rw [henc.entries] at hks
  cases hks
  exact hks'

end Item.Orderly

/-! ## The invariant -/

/-- Lists are in order, and a property of values holds that the operations on other records do not
concern. -/
theorem stable_orderly (c : Settings) (N : Naming) {F : Nat → Prop} {P : Item → Prop} (hzero : F 0)
    (hflags : ∀ it, P it → F it.dataflags)
    (hother : ∀ it : Item, ¬ N.isKey it.key → F it.dataflags → P it)
    (hcongr : ∀ it it' : Item, P it → it'.key = it.key → it'.data = it.data →
      it'.dataflags = it.dataflags →
      it'.configNumber = it.configNumber → P it') :
    Stable c N.Key N.Owner F (fun _ => True) (fun it => it.Orderly N ∧ P it) (fun _ it =>
        it.Orderly N ∧ P it) (fun _ => Server.All fun it => it.Orderly N ∧ P it) := by
  have hsame : ∀ {it it' : Item}, it.Orderly N ∧ P it → it'.key = it.key → it'.data = it.data →
      it'.dataflags = it.dataflags → it'.configNumber = it.configNumber → it'.Orderly N ∧ P it' :=
    fun h hkey hdata hfl hcfg => ⟨h.1.congr hkey hdata, hcongr _ _ h.2 hkey hdata hfl hcfg⟩
  -- a record with flags `0` that is not filed under the name of a key
  have hrecord : ∀ {it : Item}, ¬ N.isKey it.key → it.dataflags = 0 → P it :=
    fun hkey hfl => hother _ hkey (hfl ▸ hzero)
  have hprefixed : ∀ {n : Bytes}, ¬ Unprefixed n → ¬ N.isKey n := fun hn hkey =>
    hn (N.key_unprefixed hkey)
  constructor
  case found => exact fun hs hit => hs _ _ hit
  case shrink => exact fun hs hle n it hit => hs n it (hle.find hit)
  case fresh => exact fun _ => trivial
  case grow => exact id
  case less => exact fun _ => id
  case link => exact fun hs hit => hs.link (hsame hit rfl rfl rfl rfl)
  case mark =>
    exact fun hs hf => hs.write (fun it => (hf it).key) fun it hit =>
      hsame hit (hf it).key (hf it).data (hf it).dataflags (hf it).configNumber
  case touch => exact fun hs _ => hs.write (fun _ => rfl) fun it hit => hsame hit rfl rfl rfl rfl
  case tick => exact fun _ hs => hs
  case marked => exact fun hit hm => hsame hit hm.key hm.data hm.dataflags hm.configNumber
  case flags => exact fun h => hflags _ h.2
  case place =>
    intro _ s key it buf hs hkey hname hfind _ _
    have hit := hs _ _ hfind
    refine hs.place hfind fun cas => ⟨.version hkey ?_, hother _ ?_ (hflags it hit.2)⟩
    · rw [u8Name_versionKey hkey.short]
      exact hname
    · show ¬ N.isKey it.key
      exact hname ▸ hprefixed (not_unprefixed_versionKey key)
  case list =>
    intro _ name key old it htid hkey hold hmade hext
    refine ⟨.list htid hkey (fun o ho => ⟨(hold o ho).1.1, (hold o ho).2⟩) hmade.key hext,
      hrecord ?_ hmade.dataflags⟩
    rw [hmade.key]
    exact htid.filed
  case share =>
    intro _ key sid old it hkey hsid hold hmade hext
    refine ⟨.share hkey hsid (fun o ho => ⟨(hold o ho).1.1, (hold o ho).2⟩) hmade.key hext,
      hrecord ?_ hmade.dataflags⟩
    rw [hmade.key, u8Name_coLeaseKey hkey.short]
    exact hprefixed (not_unprefixed_coLeaseKey key)
  case unshare =>
    intro _ key sid o it hkey ho honame hhas hmade hrmv _
    refine ⟨.unshare hkey ho.1 honame hhas hmade.key hrmv, hrecord ?_ hmade.dataflags⟩
    rw [hmade.key, u8Name_coLeaseKey hkey.short]
    exact hprefixed (not_unprefixed_coLeaseKey key)
  case lease =>
    intro _ key it hkey hmade _
    refine ⟨.lease hkey hmade.key, hrecord ?_ hmade.dataflags⟩
    rw [hmade.key, u8Name_leaseKey hkey.short]
    exact hprefixed (not_unprefixed_leaseKey key)
  case version =>
    intro _ key flags it hkey hfl hmade _ _
    refine ⟨.version hkey hmade.key, hother _ ?_ (hmade.dataflags ▸ hfl)⟩
    rw [hmade.key, u8Name_versionKey hkey.short]
    exact hprefixed (not_unprefixed_versionKey key)
  case marker =>
    intro _ key configNum it hkey hmade _ _
    refine ⟨.marker hkey hmade.key, hrecord ?_ hmade.dataflags⟩
    rw [hmade.key, u8Name_pendingKey hkey.short]
    exact hprefixed (not_unprefixed_pendingKey key)
  case listed => exact fun h hname hks => h.1.listed hname hks
  case shared => exact fun h _ hname hks => h.1.shared hname hks

/-! ## Sessions without pending versions -/

/-- None of the keys has a pending version. -/
def Server.NoVersion (ks : List Bytes) (s : Server) : Prop :=
  ∀ key ∈ ks, s.live (versionKey key) = none

namespace Server.NoVersion

variable {c : Settings} {s s' : Server} {it : Item}

variable (h : s.NoVersion ks)

include h

theorem of_shrinks (hle : s.Shrinks s') (hdead : s'.dead = s.dead) : s'.NoVersion ks := by
  intro key hkey
  rw [eq_none_iff_forall_not_mem]
  intro it hit
  obtain ⟨hfind, hlive⟩ := live_eq_some.mp hit
  have hit' : s.live (versionKey key) = some it := live_eq_some.mpr ⟨hle.find hfind, hdead ▸ hlive⟩
  rw [h key hkey] at hit'
  cases hit'

theorem link (hit : ∀ key, it.key ≠ versionKey key) : (s.link c it).NoVersion ks := by
  intro key hkey
  rw [live_link, if_neg (hit key).symm]
  exact h key hkey

theorem write {f : Item → Item} (hf : ∀ it, (f it).key = it.key)
    (hit : ∀ key, it.key ≠ versionKey key) : (s.write it f).NoVersion ks := by
  intro key hkey
  rw [Server.live, find_write _ _ _ hf, if_neg (hit key).symm]
  exact h key hkey

end Server.NoVersion

section NoVersion

variable {c : Settings} {keys ids : Bytes → Prop} {F A : Nat → Prop} {K : Item → Prop}
  {L : Nat → Item → Prop} {I : Nat → Server → Prop} {b : Nat} {sid key : Bytes}
  (h : Stable c keys ids F A K L I)

include h

theorem Stable.keeps_itemGet_noVersion (n : Bytes) : ∀ s, I b s ∧ s.NoVersion ks →
    wlp (itemGet n) (fun o s' => (I b s' ∧ s'.NoVersion ks) ∧ ∀ it, o = some it →
        K it ∧ it.key = n) c s := by
  intro s ⟨hs, hnone⟩
  have hkeeps : wlp (itemGet n) (fun _ s' => s'.NoVersion ks) c s :=
    wlp_itemGet.mpr (hnone.of_shrinks (.reap s n) rfl)
  exact ((h.found_itemGet n s hs).and hkeeps).mono fun _ _ h => ⟨⟨h.1.1, h.2⟩, h.1.2⟩

theorem Stable.keeps_unlinkSome_noVersion (it : Option Item) :
    Keeps (fun s => I b s ∧ s.NoVersion ks) c (whenSome it itemUnlink) :=
  .whenSome fun it _ s ⟨hs, hnone⟩ => (h.keeps_itemUnlink it s hs).and
    (wlp_itemUnlink.mpr (hnone.of_shrinks (.unlink s it) rfl))

theorem Stable.keeps_itemRemoveSidColease_noVersion {it : Item} (hkey : keys key)
    (hshort : key.length ≤ keyMaxLen) (hK : K it) (hname : it.key = coLeaseKey key) :
    Keeps (fun s => I b s ∧ s.NoVersion ks) c (itemRemoveSidColease (some it) key sid) := by
  intro s ⟨hs, hnone⟩
  refine (h.keeps_itemRemoveSidColease sid hkey hK hname s hs).and ?_
  have halloc : s.allocate.NoVersion ks := hnone.of_shrinks (.allocate s) rfl
  refine wlp_itemRemoveEntryFromList hnone (fun _ => hnone.of_shrinks (.unlink s it) rfl) halloc
    fun data _ _ => ?_
  refine halloc.link fun key' => ?_
  show u8Name (coLeaseKey key) ≠ versionKey key'
  rw [u8Name_coLeaseKey hshort]
  simp [coLeaseKey, versionKey]

/-- A pass of the loop of `item_dcommit` for a key without a pending version gives it no value. -/
theorem Stable.keeps_itemDcommitKey_noVersion (hkey : keys key) (hname : Unprefixed key)
    (hshort : key.length ≤ keyMaxLen) (hmem : key ∈ ks) :
    Keeps (fun s => I b s ∧ s.NoVersion ks) c (itemDcommitKey sid key) := by
  refine .bind_of (h.keeps_itemGet_noVersion key) fun it hit =>
    .bind_of (h.keeps_itemGet_noVersion _) fun l _ => ?_
  refine .bind (h.keeps_unlinkSome_noVersion l) fun _ =>
    .bind_of (h.keeps_itemGet_noVersion _) fun coleaseIt hco => ?_
  refine .whenSome fun coleaseIt hsome => .bind ?_ fun _ =>
    h.keeps_itemRemoveSidColease_noVersion hkey hshort (hco coleaseIt hsome).1
      (hco coleaseIt hsome).2
  rw [itemDcommitValue]
  split
  · exact h.keeps_unlinkSome_noVersion it
  split
  · rintro s ⟨hs, hnone⟩
    rw [itemDcommitApply, wlp_bind, itemGetPendingVersion, wlp_itemGet, hnone key hmem]
    refine h.keeps_unlinkSome_noVersion it _ ⟨h.shrink hs (.reap s _),
      hnone.of_shrinks (.reap s _) rfl⟩
  · refine .when fun _ => .whenSome ?_
    rintro it hsome s ⟨hs, hnone⟩
    refine (h.keeps_itemWrite it (fun it => it.marked) s hs).and (wlp_itemWrite.mpr ?_)
    exact hnone.write (fun _ => rfl) fun key' => (hit it hsome).2 ▸ hname.ne_versionKey

/-- `item_dcommit` of a session none of whose keys has a pending version. -/
theorem Stable.keeps_itemDcommit_noVersion {s : Server} (hs : I b s) (hsid : ids sid)
    (hnone : s.NoVersion (s.listed sid))
    (hkeys : ∀ key, keys key → Unprefixed key ∧ key.length ≤ keyMaxLen) :
    wlp (itemDcommit sid) (fun _ => I b) c s := by
  have hs₁ : I b (s.reap sid) := h.shrink hs (.reap s sid)
  rw [itemDcommit, wlp_bind, wlp_itemGet]
  cases hsess : s.live sid with
  | none => exact .pure hs₁
  | some sessIt =>
    have hK : K sessIt := h.found hs (live_eq_some.mp hsess).1
    have hname : sessIt.key = sid := key_of_live hsess
    dsimp only
    split
    · exact Keeps.bind (h.keeps_itemUnlink sessIt) (fun _ => .pure _) _ hs₁
    rw [wlp_bind, wlp_deref]
    intro ks hks
    have hlisted : s.listed sid = ks := by simp [Server.listed, hsess, hks]
    rw [hlisted] at hnone
    have hloop : Keeps (fun s => I b s ∧ s.NoVersion ks) c (forEach (itemDcommitKey sid) ks) := by
      refine .forEach fun key hmem => ?_
      have hkey : keys key := h.listed hK (hname ▸ hsid) hks key hmem
      exact h.keeps_itemDcommitKey_noVersion hkey (hkeys key hkey).1 (hkeys key hkey).2 hmem
    refine .bind ((hloop _ ⟨hs₁, hnone.of_shrinks (.reap s sid) rfl⟩).mono fun _ s₂ hs₂ => ?_)
    exact Keeps.bind (h.keeps_itemUnlink sessIt) (fun _ => .pure _) s₂ hs₂.1

end NoVersion

end Rejig
