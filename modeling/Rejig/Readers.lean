import Rejig.SessionAbort

/-!
# The readers that a write aborts

A write on a key that sessions share marks these sessions as aborted, all but the one that writes.
`abort_sessions` tells the writer from a reader by comparing as many bytes as the identifier of the
writer has, and these may reach past the entry of the reader into the entries that follow.  So a
reader is also spared when its identifier and what follows it in the list start with the identifier
of the writer.

Here identifiers may have any length and the memory any answers.  What is known of the sessions is
`Server.Finds`: what `_item_get` returns under their names.  The operations change it under two
names only, that of a reader which is marked and that under which the writer is filed.
-/

namespace Rejig

open Prog Session Server Option List Function

variable {key name : Bytes} {it : Item} {g : Item → Item} {m : ServerM A}
  {o : Option Item} {op : Op}

/-- The status of the session with an identifier, if it is live. -/
def Server.status (s : Server) (r : Bytes) : Option SessStatus := (s.live r).map Item.sessStatus

/-! ## What is found under some names -/

/-- What `_item_get` returns under some names; there it finds pinned records only. -/
structure Server.Finds (names : Bytes → Prop) (f : Bytes → Option Item) (s : Server) : Prop where
  live : ∀ n, names n → s.live n = f n
  pinned : ∀ n it, names n → f n = some it → it.pinned = true

section Frame

variable {c : Settings} {s s' : Server} {names : Bytes → Prop} {f : Bytes → Option Item}
  {n : Bytes} {A : Type}

theorem Server.live_congr (hfind : s'.find n = s.find n) (hdead : s'.dead = s.dead) :
    s'.live n = s.live n := by
  rw [Server.live, Server.live, hfind, hdead]

namespace Server.Finds

variable (h : s.Finds names f)

include h

theorem of_live (hlive : ∀ n, names n → s'.live n = s.live n) : s'.Finds names f :=
  ⟨fun n hn => (hlive n hn).trans (h.live n hn), h.pinned⟩

theorem reap (key : Bytes) : (s.reap key).Finds names f :=
  h.of_live fun n _ => s.live_reap key n

theorem unlink (hit : ¬ names it.key) : (s.unlink it).Finds names f := by
  refine h.of_live fun n hn => live_congr ?_ rfl
  rw [find_unlink, if_neg]
  rintro rfl
  exact hit hn

theorem write (hg : ∀ it, (g it).key = it.key) (hit : ¬ names it.key) :
    (s.write it g).Finds names f := by
  refine h.of_live fun n hn => live_congr ?_ rfl
  rw [find_write _ _ _ hg, if_neg]
  rintro rfl
  exact hit hn

theorem link (hit : ¬ names it.key) : (s.link c it).Finds names f := by
  refine h.of_live fun n hn => live_congr ?_ rfl
  rw [find_link, if_neg]
  rintro rfl
  exact hit hn

/-- Pinned records survive an allocation. -/
theorem allocate : s.allocate.Finds names f := by
  refine h.of_live fun n hn => ?_
  rcases s.find_allocate_eq_or n with heq | ⟨it, hfind, hunpinned, hnone⟩
  · exact live_congr heq rfl
  rw [live_of_find_none hnone]
  cases hlive : s.live n with
  | none => rfl
  | some it' =>
    have hsame : it' = it := some.inj ((live_eq_some.mp hlive).1.symm.trans hfind)
    have hpinned := h.pinned n it' hn ((h.live n hn).symm.trans hlive)
    rw [hsame, hunpinned] at hpinned
    cases hpinned

/-- Another item under one of the names. -/
theorem update (hother : ∀ m, m ≠ n → names m → s'.live m = s.live m) (hself : s'.live n = o)
    (ho : ∀ it, o = some it → it.pinned = true) : s'.Finds names (update f n o) where
  live m hm := by
    by_cases hmn : m = n
    · subst hmn
      rw [update_self, hself]
    · rw [update_of_ne hmn, hother m hmn hm, h.live m hm]
  pinned m it hm hit := by
    by_cases hmn : m = n
    · subst hmn
      rw [update_self] at hit
      exact ho it hit
    · rw [update_of_ne hmn] at hit
      exact h.pinned m it hm hit

end Server.Finds

/-! ## Operations on other names -/

theorem finds_itemGet (n : Bytes) : ∀ s : Server, s.Finds names f →
    wlp (itemGet n) (fun o s' => s'.Finds names f ∧ ∀ it, o = some it → it.key = n) c s :=
  fun _ hs => wlp_itemGet.mpr ⟨hs.reap n, fun _ hit => key_of_live hit⟩

theorem keepsFinds_itemGet (n : Bytes) : Keeps (Server.Finds names f) c (itemGet n) :=
  fun _ hs => wlp_itemGet.mpr (hs.reap n)

theorem keepsFinds_itemUnlink (hit : ¬ names it.key) :
    Keeps (Server.Finds names f) c (itemUnlink it) :=
  fun _ hs => wlp_itemUnlink.mpr (hs.unlink hit)

/-- Dropping what is found under a name. -/
theorem keepsFinds_unlinkFound (hn : ¬ names n) :
    Keeps (Server.Finds names f) c (do whenSome (← itemGet n) itemUnlink) :=
  .bind_of (finds_itemGet n) fun _ hkey => .whenSome fun it hit =>
    keepsFinds_itemUnlink (hkey it hit ▸ hn)

theorem keepsFinds_itemWrite (hg : ∀ it, (g it).key = it.key) (hit : ¬ names it.key) :
    Keeps (Server.Finds names f) c (itemWrite it g) :=
  fun _ hs => wlp_itemWrite.mpr (hs.write hg hit)

theorem keepsFinds_itemStore (hit : ¬ names it.key) :
    Keeps (Server.Finds names f) c (itemStore it .set) := by
  intro s hs
  rw [wlp_itemStore_set (.inl rfl)]
  split
  · exact hs.link hit
  · exact hs

theorem finds_itemAlloc (name : Bytes) (dataflags exptime nbyte : Nat) :
    ∀ s : Server, s.Finds names f → wlp (itemAlloc name dataflags exptime nbyte)
      (fun o s' => s'.Finds names f ∧ ∀ it, o = some it → it.key = u8Name name) c s := by
  refine fun s hs => wlp_itemAlloc.mpr fun _ => ⟨hs.allocate, fun it hit => ?_⟩
  split at hit
  · cases hit
    rfl
  · cases hit

theorem finds_itemCreateReservedItem (name data : Bytes) : ∀ s : Server, s.Finds names f →
    wlp (itemCreateReservedItem name data)
      (fun o s' => s'.Finds names f ∧ ∀ it, o = some it → it.key = u8Name name) c s := by
  refine fun s hs => wlp_itemCreateReservedItem.mpr fun _ => ⟨hs.allocate, fun it hit => ?_⟩
  split at hit
  · cases hit
    rfl
  · cases hit

theorem finds_itemCreatePendingVersion (it : Item) (data : Bytes) : ∀ s : Server, s.Finds names f →
    wlp (itemCreatePendingVersion it data)
      (fun o s' => s'.Finds names f ∧ ∀ pv, o = some pv →
        pv.key = u8Name (versionKey it.key)) c s := by
  refine fun s hs => wlp_itemCreatePendingVersion.mpr fun _ => ⟨hs.allocate, fun pv hpv => ?_⟩
  split at hpv
  · cases hpv
    rfl
  · cases hpv

theorem keepsFinds_itemCheckEntry (o : Option Item) (entry : Bytes) :
    Keeps (Server.Finds names f) c (itemCheckEntry o entry) := by
  cases o with
  | none => exact .pure _
  | some it => exact .deref _

theorem keepsFinds_itemAddEntry (o : Option Item) (entry : Bytes) (lease : Lease) (co : CoFlag)
    (hn : ¬ names (u8Name name)) :
    Keeps (Server.Finds names f) c (itemAddEntry o name entry lease co) :=
  fun _ hs => wlp_itemAddEntry (fun _ _ _ => hs) fun _ _ _ _ => hs.allocate.link hn

theorem keepsFinds_itemRemoveEntryFromList (entry : Bytes) (hit : ¬ names it.key)
    (hn : ¬ names (u8Name name)) :
    Keeps (Server.Finds names f) c (itemRemoveEntryFromList (some it) name entry) :=
  fun _ hs => wlp_itemRemoveEntryFromList hs (fun _ => hs.unlink hit) hs.allocate fun _ _ _ =>
    hs.allocate.link hn

theorem keepsFinds_itemAddDelta (incr : Bool) (delta : UInt64) (hn : ¬ names key) :
    Keeps (Server.Finds names f) c (itemAddDelta key incr delta) := by
  refine .bind_of (finds_itemGet key) fun o hkey => ?_
  cases o with
  | none => exact .pure _
  | some it =>
    obtain rfl := hkey it rfl
    dsimp only
    split
    · exact .pure _
    split
    · refine .bind_of (finds_itemAlloc _ _ _ _) fun o' hkey' => ?_
      cases o' with
      | none => exact .pure _
      | some newIt =>
        have hnew : newIt.key = it.key := (hkey' newIt rfl).trans (u8Name_of_lt it.key_lt)
        refine .bind (.bind (keepsFinds_itemUnlink hn) fun _ s hs => wlp_itemLink.mpr (hs.link ?_))
          fun _ => .pure _
        rwa [← hnew] at hn
    · refine .bind (fun s hs => wlp_itemNextCas.mpr (hs.of_live fun _ _ => rfl)) fun cas => ?_
      exact .bind (keepsFinds_itemWrite (fun _ => rfl) hn) fun _ => .pure _

theorem keepsFinds_itemCreateSessionLease (hkey : key.length ≤ keyMaxLen)
    (hn : ¬ names (leaseKey key)) (kind : Lease) :
    Keeps (Server.Finds names f) c (itemCreateSessionLease key kind) := by
  refine .bind_of (finds_itemCreateReservedItem (leaseKey key) []) fun o hname =>
    .deref_bind fun leaseIt hit => ?_
  have hout : ¬ names { leaseIt with lease := kind }.key := by
    rwa [show leaseIt.key = _ from hname leaseIt hit, u8Name_leaseKey hkey]
  exact .bind (keepsFinds_itemStore hout) fun _ => .pure _

/-- An I lease gives way. -/
theorem keepsFinds_itemVoidILease {m : Option Item → ServerM A} (hn : ¬ names (leaseKey key))
    (hm : ∀ o, Keeps (Server.Finds names f) c (m o)) :
    Keeps (Server.Finds names f) c (do m (← itemVoidILease (← itemGetLease key))) := by
  refine .bind_of (finds_itemGet (leaseKey key)) fun o hname => .bind ?_ hm
  cases o with
  | none => exact .pure _
  | some l =>
    dsimp only [itemVoidILease]
    split
    · exact .bind (keepsFinds_itemUnlink (hname l rfl ▸ hn)) fun _ => .pure _
    · exact .pure _

theorem keepsFinds_itemOqregLease (hkey : key.length ≤ keyMaxLen) (hn : ¬ names (leaseKey key)) :
    Keeps (Server.Finds names f) c (itemOqregLease key) := by
  refine keepsFinds_itemVoidILease hn fun o => ?_
  cases o with
  | some l => exact .bind (keepsFinds_itemGet key) fun _ => .pure _
  | none =>
    refine .bind (keepsFinds_itemGet key) fun _ => ?_
    exact .bind (keepsFinds_itemCreateSessionLease hkey hn .qInv) fun _ => .pure _

end Frame

/-! ## Aborting -/

/-- A session that is marked as aborted. -/
def Item.abort (it : Item) : Item := { it with sessStatus := .abort }

/-- The entries of a list that are not taken for a session, each given with the memory from its
start on. -/
def strikes (sid : Bytes) (ps : List (Bytes × Bytes)) (r : Bytes) : Bool :=
  ps.any fun p => p.1 = r && !decide (sid <+: p.2)

/-- What is found after the readers in a list have been marked. -/
def struck (sid : Bytes) (ps : List (Bytes × Bytes)) (f : Bytes → Option Item) (r : Bytes) :
    Option Item :=
  if strikes sid ps r then (f r).map Item.abort else f r

section Lists

variable {sid r mem : Bytes} {R : List Bytes}

/-- When the comparison of `abort_sessions` stays inside the payload, it is the test for a
prefix. -/
theorem eq_of_sameSession {b : Bool} (h : sameSession sid mem = some b) :
    b = decide (sid <+: mem) := by
  have hiff : (mem.take sid.length = sid) ↔ sid <+: mem := by
    rw [prefix_iff_eq_take, eq_comm]
  rw [sameSession] at h
  split at h
  · rw [← some.inj h, decide_eq_decide]
    exact hiff
  · next hlong =>
    split at h
    · cases h
    · rw [← some.inj h, eq_comm, decide_eq_false_iff_not]
      exact fun hstart => hlong hstart.length_le

/-- The entries of a list, each with the memory from its start on. -/
theorem mem_zip_tails {fuel : Nat} (hs : ∀ k ∈ R, Short k) (hf : R.length ≤ fuel) :
    (r, mem) ∈ R.zip (trigTailsFrom fuel (encode R)) ↔ ∃ R₁ R₂, R = R₁ ++ r :: R₂ ∧
    mem = r ++ encode R₂ := by
  induction R generalizing fuel with
  | nil => simp
  | cons k R ih =>
    obtain ⟨fuel, rfl⟩ : ∃ f, fuel = f + 1 := ⟨fuel - 1, by simp at hf; omega⟩
    have ih' := @ih fuel (fun k' hk' => hs k' (mem_cons_of_mem _ hk')) (Nat.le_of_succ_le_succ hf)
    rw [encode_cons, trigTailsFrom, (hs k mem_cons_self).toNat_ofNat, drop_left, zip_cons_cons,
      mem_cons, ih']
    constructor
    · rintro (heq | ⟨R₁, R₂, rfl, rfl⟩)
      · cases heq
        exact ⟨[], R, rfl, rfl⟩
      · exact ⟨k :: R₁, R₂, rfl, rfl⟩
    · rintro ⟨R₁, R₂, hsplit, rfl⟩
      cases R₁ with
      | nil =>
        cases hsplit
        exact .inl rfl
      | cons k' R₁ =>
        cases hsplit
        exact .inr ⟨R₁, R₂, rfl, rfl⟩

/-- An entry is taken for another session when it and what follows it start with that identifier. -/
theorem strikes_iff {data : Bytes} (henc : Encodes data R) :
    strikes sid (R.zip (trigKeylistTails data)) r = true ↔
      ∃ R₁ R₂, R = R₁ ++ r :: R₂ ∧ ¬ sid <+: r ++ encode R₂ := by
  have hzip : ∀ mem, (r, mem) ∈ R.zip (trigKeylistTails data) ↔ ∃ R₁ R₂, R = R₁ ++ r :: R₂ ∧
    mem = r ++ encode R₂ := by
    intro mem
    rw [trigKeylistTails, henc.eq_encode]
    exact mem_zip_tails henc.short (length_le_length_encode R)
  rw [strikes, List.any_eq_true]
  constructor
  · rintro ⟨⟨r', mem⟩, hmem, htrue⟩
    simp only [Bool.and_eq_true, decide_eq_true_eq, Bool.not_eq_true',
      decide_eq_false_iff_not] at htrue
    obtain ⟨rfl, hnot⟩ := htrue
    obtain ⟨R₁, R₂, hsplit, rfl⟩ := (hzip mem).mp hmem
    exact ⟨R₁, R₂, hsplit, hnot⟩
  · rintro ⟨R₁, R₂, hsplit, hnot⟩
    exact ⟨_, (hzip _).mpr ⟨R₁, R₂, hsplit, rfl⟩, by simp [hnot]⟩

theorem struck_cons (p : Bytes × Bytes) (ps : List (Bytes × Bytes)) (f : Bytes → Option Item) :
    struck sid (p :: ps) f = struck sid ps (struck sid [p] f) := by
  funext r
  have hcons : strikes sid (p :: ps) r = (strikes sid [p] r || strikes sid ps r) := by
    rw [strikes, strikes, strikes, List.any_cons, List.any_cons, List.any_nil, Bool.or_false]
  have habort : (Item.abort ∘ Item.abort) = Item.abort := rfl
  rw [struck, struck, struck, hcons]
  cases strikes sid [p] r <;> cases strikes sid ps r <;> simp [habort]

theorem struck_singleton (f : Bytes → Option Item) : struck sid [(r, mem)] f =
    if sid <+: mem then f else update f r ((f r).map Item.abort) := by
  funext r'
  have hone : strikes sid [(r, mem)] r' = (decide (r = r') && !decide (sid <+: mem)) := by
    rw [strikes, List.any_cons, List.any_nil, Bool.or_false]
  rw [struck, hone]
  by_cases hstart : sid <+: mem
  · simp [hstart]
  · by_cases hr : r = r'
    · subst hr
      simp [hstart]
    · simp [hr, Ne.symm hr, hstart]

end Lists

section Aborting

variable {c : Settings} {s : Server} {names : Bytes → Prop} {f : Bytes → Option Item} {l : Item}
  {sid psid mem : Bytes}

/-- Taking an aborted session off the leases on its other keys leaves the sessions alone. -/
theorem keepsFinds_abortSessionsKey (l : Item) (psid key : Bytes)
    (hnames : ∀ n, names n → Unprefixed n) :
    Keeps (Server.Finds names f) c (abortSessionsKey l psid key) := by
  have hco : ¬ names (coLeaseKey key) := fun h => (hnames _ h).ne_coLeaseKey rfl
  have hls : ¬ names (leaseKey key) := fun h => (hnames _ h).ne_leaseKey rfl
  refine .bind_of (finds_itemGet (coLeaseKey key)) fun o hkey => .whenSome fun tcoleaseIt ht =>
    .when fun _ => ?_
  have hkey' : tcoleaseIt.key = coLeaseKey key := hkey tcoleaseIt ht
  refine .bind (keepsFinds_itemCheckEntry _ _) fun listed => .bind (.when fun _ => ?_) fun _ =>
    keepsFinds_unlinkFound hls
  refine keepsFinds_itemRemoveEntryFromList psid (hkey'.symm ▸ hco) ?_
  rwa [u8Name_of_lt (hkey' ▸ tcoleaseIt.key_lt)]

theorem finds_abortSession (hs : s.Finds names f) (hnames : ∀ n, names n → Unprefixed n)
    (hpsid : names psid) :
    wlp (abortSession l sid psid mem) (fun _ s' =>
        s'.Finds names (struck sid [(psid, mem)] f)) c s := by
  rw [abortSession, wlp_bind, wlp_itemGet, hs.live psid hpsid, struck_singleton]
  have hs₁ := hs.reap psid
  cases hsess : f psid with
  | none =>
    rw [whenSome_none, wlp_pure, map_none, ← hsess, update_eq_self, ite_self]
    exact hs₁
  | some psessIt =>
    rw [whenSome_some, wlp_bind, wlp_deref]
    intro same hsame
    obtain rfl := eq_of_sameSession hsame
    rw [wlp_when]
    constructor
    · intro hother
      have hlive : s.live psid = some psessIt := (hs.live psid hpsid).trans hsess
      obtain rfl := key_of_live hlive
      have hfind : (s.reap psessIt.key).find psessIt.key = some psessIt := by
        rw [find_reap_self, hlive]
      rw [if_neg (by simpa using hother), wlp_bind, wlp_itemWrite]
      have hkeep : Keeps (Server.Finds names (update f psessIt.key (some psessIt.abort))) c
          (do
            forEach (abortSessionsKey l psessIt.key)
              (← deref (trigKeylistEntries psessIt.data))) :=
        .deref_bind fun keys _ => .forEach fun key _ =>
          keepsFinds_abortSessionsKey l psessIt.key key hnames
      have hwrite : ∀ m, ((s.reap psessIt.key).write psessIt Item.abort).find m =
          if m = psessIt.key then some psessIt.abort else (s.reap psessIt.key).find m :=
        fun m => find_write_of_find _ _ (fun _ => rfl) hfind
      refine hkeep _ (hs₁.update (fun m hm _ => ?_) ?_ ?_)
      · exact live_congr ((hwrite m).trans (if_neg hm)) rfl
      · exact live_eq_some.mpr ⟨(hwrite _).trans (if_pos rfl), (live_eq_some.mp hlive).2⟩
      · rintro _ ⟨⟩
        exact hs.pinned psessIt.key psessIt hpsid hsess
    · intro hsame
      rw [if_pos (by simpa using hsame)]
      exact hs₁

/-- `abort_sessions` marks the live readers in its list that it does not take for the writer. -/
theorem finds_abortSessions {R : List Bytes} (hs : s.Finds names f)
    (hnames : ∀ n, names n → Unprefixed n) (henc : Encodes l.data R) (hR : ∀ r ∈ R, names r) :
    wlp (abortSessions l sid) (fun _ s' =>
        s'.Finds names (struck sid (R.zip (trigKeylistTails l.data)) f)) c s := by
  rw [abortSessions, wlp_bind, henc.entries, deref_some, wlp_pure]
  have hps : ∀ p ∈ R.zip (trigKeylistTails l.data), names p.1 := fun p hp =>
    hR p.1 (of_mem_zip hp).1
  generalize R.zip (trigKeylistTails l.data) = ps at hps
  induction ps generalizing s f with
  | nil => exact .pure hs
  | cons p ps ih =>
    obtain ⟨hp, hps⟩ := forall_mem_cons.mp hps
    rw [forEach_cons, wlp_bind, struck_cons]
    exact (finds_abortSession hs hnames hp).mono fun _ s₁ hs₁ => ih hs₁ hps

end Aborting

/-! ## Filing the writer -/

/-- What is found once a session has been filed: under its name an aborted session only if it was
found there. -/
structure Filed (sid : Bytes) (f f' : Bytes → Option Item) : Prop where
  other : ∀ r, r ≠ u8Name sid → f' r = f r
  own : ∀ it, f' (u8Name sid) = some it → it.sessStatus = .abort → sid.length < 256 ∧
    f (u8Name sid) = some it

/-- The state after a session has been filed. -/
def Server.Registers (N : Naming) (sid : Bytes) (f : Bytes → Option Item) (s : Server) : Prop :=
  ∃ f', s.Finds N.Sid f' ∧ Filed sid f f'

section Filing

variable {c : Settings} {N : Naming} {s : Server} {f : Bytes → Option Item} {sid : Bytes} {A : Type}

theorem Naming.Sid.not_key (hkey : N.Key key) : ¬ N.Sid key := fun h => h.notKey hkey.isKey

/-- What leaves the sessions alone may come after the filing. -/
theorem keepsRegisters (h : ∀ f', Keeps (Server.Finds N.Sid f') c m) :
    Keeps (Server.Registers N sid f) c m :=
  fun s ⟨f', hs, hfiled⟩ => (h f' s hs).mono fun _ _ hs' => ⟨f', hs', hfiled⟩

/-- Filing a session under the name that its identifier is cut to. -/
theorem registers_itemAssocKeySid (hs : s.Finds N.Sid f) (key : Bytes) :
    wlp (do itemAssocKeySid (← itemGet sid) key sid) (fun _ s' => s'.Registers N sid f) c s := by
  have hs₁ := hs.reap sid
  rw [wlp_bind, wlp_itemGet]
  refine wlp_itemAddEntry (fun o ho _ => ⟨f, hs₁, fun _ _ => rfl, fun it hit _ => ?_⟩)
    fun data _ _ _ => ?_
  · exact ⟨length_lt_of_find (live_eq_some.mp ho).1, hit⟩
  · -- a new record, which is alive
    have hname : ((s.reap sid).freshReserved c sid data .none .sess).key = u8Name sid := rfl
    have hlive : ∀ it, ((s.reap sid).allocate.link c
      ((s.reap sid).freshReserved c sid data .none .sess)).live (u8Name sid) = some it →
      it.pinned = true ∧ it.sessStatus = .alive := by
      intro it hit
      rw [live_link, hname, if_pos rfl] at hit
      obtain rfl := some.inj (filter_eq_some_iff.mp hit).1
      exact ⟨rfl, rfl⟩
    refine ⟨_, hs₁.allocate.update (n := u8Name sid) (fun m hm _ => ?_) rfl fun it hit =>
      (hlive it hit).1, fun r hr => ?_, fun it hit habort => ?_⟩
    · rw [live_link, hname, if_neg hm]
    · exact update_of_ne hr ..
    · rw [update_self] at hit
      rw [(hlive it hit).2] at habort
      cases habort

theorem registers_itemAssocKeySid_bind (hs : s.Finds N.Sid f)
    (hm : Keeps (Server.Registers N sid f) c m) :
    wlp (do itemAssocKeySid (← itemGet sid) key sid; m) (fun _ s' => s'.Registers N sid f) c s := by
  have h : wlp (do itemAssocKeySid (← itemGet sid) key sid) (fun _ s' =>
    s'.Registers N sid f) c s :=
    registers_itemAssocKeySid hs key
  rw [wlp_bind] at h ⊢
  refine h.mono fun _ s₁ h₁ => ?_
  exact .bind (h₁.mono fun _ s₂ hs₂ => hm s₂ hs₂)

end Filing

/-! ## Writing a key that sessions share -/

section Writing

variable {c : Settings} {N : Naming} {s : Server} {f : Bytes → Option Item}
  {sid n : Bytes} {l : Item} {R : List Bytes}

/-- The session lease `l` shares the key among the sessions `R`. -/
structure Server.SharedBy (N : Naming) (key : Bytes) (R : List Bytes) (l : Item)
    (s : Server) : Prop where
  live : s.live (coLeaseKey key) = some l
  shared : l.hasCLease = true
  encodes : Encodes l.data R
  sids : ∀ r ∈ R, N.Sid r

/-- An operation of a session that is not aborted starts from where it is. -/
theorem finds_unlessAborted {x : A} {Q : A → Server → Prop} (hs : s.Finds N.Sid f)
    (hl : s.SharedBy N key R l) (hx : ∀ s', Q x s')
    (hm : ∀ s₁ : Server, s₁.Finds N.Sid f → s₁.SharedBy N key R l → wlp m Q c s₁) :
    wlp (itemSessAborted sid >>= fun aborted => if aborted then pure x else m) Q c s := by
  have hend : wlp m Q c (s.reap sid) :=
    hm _ (hs.reap sid) { hl with live := (s.live_reap _ _).trans hl.live }
  rw [wlp_bind, itemSessAborted, wlp_bind, wlp_itemGet]
  cases s.live sid with
  | none => exact .pure hend
  | some sessIt =>
    dsimp only
    split
    · exact .bind (wlp_itemUnlink.mpr (.pure (.pure (hx _))))
    · exact .pure hend

/-- The readers of a key are aborted, and their lease dropped. -/
theorem finds_vacate {Q : A → Server → Prop} (hs : s.Finds N.Sid f) (hl : s.SharedBy N key R l)
    (hm : ∀ s₁ : Server, s₁.Finds N.Sid (struck sid (R.zip (trigKeylistTails l.data)) f) →
      wlp m Q c s₁) :
    wlp (abortSessions l sid >>= fun _ => itemUnlink l >>= fun _ => m) Q c
      (s.reap (coLeaseKey key)) := by
  refine .bind ((finds_abortSessions (hs.reap _) (fun _ => Naming.Sid.unprefixed) hl.encodes
    hl.sids).mono fun _ s₁ hs₁ => .bind ((keepsFinds_itemUnlink ?_ s₁ hs₁).mono fun _ => hm))
  rw [key_of_live hl.live]
  exact Naming.Sid.not_coLeaseKey key

theorem finds_itemExclusive (hs : s.Finds N.Sid f) (hl : s.SharedBy N key R l) :
    wlp (itemExclusive sid key) (fun e s' => e = .free ∧
        s'.Finds N.Sid (struck sid (R.zip (trigKeylistTails l.data)) f)) c s := by
  rw [itemExclusive, wlp_bind, itemGetCoLease, wlp_itemGet, hl.live]
  dsimp only
  rw [if_pos hl.shared]
  exact finds_vacate hs hl fun s₁ hs₁ => .pure ⟨rfl, hs₁⟩

theorem keepsFinds_itemAssocSidColease (hkey : N.Key key) (o : Option Item) (sid : Bytes)
    (type : CoFlag) :
    Keeps (Server.Finds N.Sid f) c (itemAssocSidColease o key sid type) := by
  refine keepsFinds_itemAddEntry o sid .none type ?_
  rw [u8Name_of_lt hkey.length_coLeaseKey]
  exact Naming.Sid.not_coLeaseKey key

/-! ### Reading for an update -/

theorem registers_itemOqreadGrant (hs : s.Finds N.Sid f) (hkey : N.Key key) :
    wlp (itemOqreadGrant sid key) (fun _ s' => s'.Registers N sid f) c s := by
  rw [itemOqreadGrant, wlp_bind]
  refine (finds_itemGet key s hs).mono ?_
  rintro it s₁ ⟨hs₁, hname⟩
  refine .bind ((keepsFinds_itemCreateSessionLease hkey.short (Naming.Sid.not_leaseKey key) .qRef s₁
    hs₁).mono fun leaseIt s₂ hs₂ => ?_)
  rw [wlp_bind]
  have hretime : Keeps (Server.Finds N.Sid f) c
      (whenSome it fun it => itemWrite it fun it => { it with exptime := leaseIt.exptime }) :=
    .whenSome fun it hit => keepsFinds_itemWrite (fun _ => rfl)
      (hname it hit ▸ Naming.Sid.not_key hkey)
  refine (hretime s₂ hs₂).mono fun _ s₃ hs₃ =>
    registers_itemAssocKeySid_bind hs₃ (keepsRegisters fun f' => ?_)
  exact .bind (keepsFinds_itemGet _) fun o =>
    .bind (keepsFinds_itemAssocSidColease hkey o sid .oLeaseRef) fun _ => .pure _

theorem registers_itemOqread (hs : s.Finds N.Sid f) (hkey : N.Key key) (hl : s.SharedBy N key R l) :
    wlp (itemOqread sid key) (fun r s' => r.1 = .ok →
      s'.Registers N sid (struck sid (R.zip (trigKeylistTails l.data)) f)) c s := by
  refine finds_unlessAborted hs hl (fun _ => nofun) fun s₁ hs₁ hl₁ => ?_
  refine .bind ((finds_itemExclusive hs₁ hl₁).mono fun e s₂ ⟨he, hs₂⟩ => ?_)
  subst he
  dsimp only
  rw [itemOqreadLease, wlp_bind]
  refine (keepsFinds_itemGet _ s₂ hs₂).mono fun lease s₃ hs₃ => ?_
  have hgrant : wlp (itemOqreadGrant sid key) (fun r s' => r.1 = .ok →
      s'.Registers N sid (struck sid (R.zip (trigKeylistTails l.data)) f)) c s₃ :=
    (registers_itemOqreadGrant hs₃ hkey).mono fun _ _ h _ => h
  cases lease with
  | none => exact hgrant
  | some leaseIt =>
    dsimp only
    split
    · rw [wlp_bind, wlp_itemWrite, wlp_pure]
      exact nofun
    · exact hgrant

/-! ### Writing -/

theorem keepsFinds_itemOqwriteVersion (hkey : N.Key it.key) :
    Keeps (Server.Finds N.Sid f) c (itemOqwriteVersion it) := by
  rw [itemOqwriteVersion]
  split
  · exact keepsFinds_unlinkFound (Naming.Sid.not_versionKey it.key)
  · refine .bind_of (finds_itemCreatePendingVersion it it.data) fun o hname =>
      .deref_bind fun pv hpv => ?_
    refine .bind (keepsFinds_itemStore ?_) fun _ => .pure _
    rw [hname pv hpv, u8Name_versionKey hkey.short]
    exact Naming.Sid.not_versionKey it.key

theorem registers_itemOqwrite (hs : s.Finds N.Sid f) (hkey : N.Key it.key)
    (hl : s.SharedBy N it.key R l) :
    wlp (itemOqwrite sid it) (fun r s' => r = .ok →
      s'.Registers N sid (struck sid (R.zip (trigKeylistTails l.data)) f)) c s := by
  refine finds_unlessAborted hs hl (fun _ => nofun) fun s₁ hs₁ hl₁ => ?_
  rw [wlp_bind, itemGetCoLease, wlp_itemGet, hl₁.live]
  dsimp only
  rw [if_pos hl.shared]
  refine finds_vacate hs₁ hl₁ fun s₂ hs₂ => ?_
  have hlease := keepsFinds_unlinkFound (c := c)
    (f := struck sid (R.zip (trigKeylistTails l.data)) f)
    (Naming.Sid.not_leaseKey (N := N) it.key) s₂ hs₂
  rw [wlp_bind] at hlease ⊢
  refine hlease.mono fun _ s₃ hs₃ => ?_
  refine .bind (hs₃.mono fun _ s₄ hs₄ => ?_)
  rw [itemOqwriteFree, wlp_bind]
  refine (keepsFinds_itemAssocSidColease hkey none sid .oLeaseRef s₄ hs₄).mono fun _ s₅ hs₅ => ?_
  rw [itemOqwriteBody, wlp_bind]
  refine (keepsFinds_itemOqwriteVersion hkey s₅ hs₅).mono fun _ s₆ hs₆ => ?_
  exact (registers_itemAssocKeySid_bind hs₆ (.pure _)).mono fun _ _ h _ => h

/-! ### Updating -/

/-- The pending version that an update works on is not under the name of a session. -/
theorem finds_itemSessionVersion (hkey : N.Key key) (ho : ∀ it, o = some it → it.key = key) :
    ∀ s : Server, s.Finds N.Sid f → wlp (itemSessionVersion key o)
      (fun pv s' => s'.Finds N.Sid f ∧ ∀ it, pv = some it → ¬ N.Sid it.key) c s := by
  intro s hs
  have hout : ∀ it : Item, it.key = versionKey key → ¬ N.Sid it.key := fun it hit =>
    hit ▸ Naming.Sid.not_versionKey key
  rw [itemSessionVersion, wlp_bind]
  refine (finds_itemGet (versionKey key) s hs).mono ?_
  rintro pv s₁ ⟨hs₁, hname⟩
  cases pv with
  | some pvIt =>
    refine .pure ⟨hs₁, ?_⟩
    rintro _ ⟨⟩
    exact hout pvIt (hname pvIt rfl)
  | none =>
    cases o with
    | none => exact .pure ⟨hs₁, by simp⟩
    | some it =>
      refine .bind ((finds_itemCreatePendingVersion it it.data s₁ hs₁).mono ?_)
      rintro pv s₂ ⟨hs₂, hmade⟩
      rw [wlp_bind, wlp_deref]
      rintro pvIt rfl
      have hpv : ¬ N.Sid pvIt.key := by
        refine hout pvIt ?_
        rw [hmade pvIt rfl, ho it rfl, u8Name_versionKey hkey.short]
      refine .bind ((keepsFinds_itemStore hpv s₂ hs₂).mono fun _ s₃ hs₃ => .pure ⟨hs₃, ?_⟩)
      rintro _ ⟨⟩
      exact hpv

theorem registers_itemOqDelta {update : Option Item → ServerM CoResult} (hs : s.Finds N.Sid f)
    (hkey : N.Key key) (hl : s.SharedBy N key R l)
    (hupdate : ∀ f' pv, (∀ it, pv = some it → ¬ N.Sid it.key) →
      Keeps (Server.Finds N.Sid f') c (update pv)) :
    wlp (itemOqDelta sid key update) (fun r s' => r = .ok →
      s'.Registers N sid (struck sid (R.zip (trigKeylistTails l.data)) f)) c s := by
  have hinner : ∀ f', Keeps (Server.Finds N.Sid f') c (itemOqDeltaUpdate key update) := by
    intro f'
    refine .bind_of (finds_itemGet key) fun it hname =>
      keepsFinds_itemVoidILease (Naming.Sid.not_leaseKey key) fun o => ?_
    cases o with
    | some _ => exact .pure _
    | none =>
      exact .bind_of (finds_itemSessionVersion hkey hname) (hupdate f')
  refine finds_unlessAborted hs hl (fun _ => nofun) fun s₁ hs₁ hl₁ => ?_
  refine .bind ((finds_itemExclusive hs₁ hl₁).mono fun e s₂ ⟨he, hs₂⟩ => ?_)
  subst he
  dsimp only
  refine .bind ((hinner _ s₂ hs₂).mono fun ret s₃ hs₃ => ?_)
  refine .bind ((keepsFinds_itemAssocSidColease hkey none sid .oLeaseRef s₃ hs₃).mono
    fun _ s₄ hs₄ => ?_)
  exact (registers_itemAssocKeySid_bind hs₄ (.pure _)).mono fun _ _ h _ => h

theorem keepsFinds_itemAppendPrependCo (append : Bool) (data : Bytes) (hit : ¬ N.Sid it.key) :
    Keeps (Server.Finds N.Sid f) c (itemAppendPrependCo append it data) := by
  refine .bind_of (finds_itemAlloc _ _ _ _) fun o hname => .whenSome fun nit hnit =>
    .bind (keepsFinds_itemStore ?_) fun _ => .pure _
  have hsame : nit.key = it.key := (hname nit hnit).trans (u8Name_of_lt it.key_lt)
  rwa [← hsame] at hit

theorem keepsFinds_itemAddDeltaCo (incr : Bool) (key : Bytes) (delta : UInt64) :
    Keeps (Server.Finds N.Sid f) c (itemAddDeltaCo incr key delta) := by
  refine .bind (keepsFinds_itemAddDelta incr delta (Naming.Sid.not_versionKey key)) fun r => ?_
  cases r <;> exact .pure _

/-! ### Registering -/

/-- The lease on the key that a registration makes does not take memory from its session lease. -/
theorem finds_itemOqregLease (hs : s.Finds N.Sid f) (hkey : N.Key key)
    (hl : s.live (coLeaseKey key) = some l) (hpinned : l.pinned = true) :
    wlp (itemOqregLease key)
      (fun _ s' => s'.Finds N.Sid f ∧ s'.live (coLeaseKey key) = some l) c s := by
  let names : Bytes → Prop := fun n => N.Sid n ∨ n = coLeaseKey key
  have hs' : s.Finds names s.live := by
    refine ⟨fun _ _ => rfl, fun n it hn hit => ?_⟩
    rcases hn with hn | rfl
    · exact hs.pinned n it hn ((hs.live n hn).symm.trans hit)
    · rw [hl] at hit
      cases hit
      exact hpinned
  have hout : ¬ names (leaseKey key) := by
    rintro (h | h)
    · exact Naming.Sid.not_leaseKey key h
    · exact coLeaseKey_ne_leaseKey h.symm
  refine (keepsFinds_itemOqregLease hkey.short hout s hs').mono fun _ s₁ hs₁ => ⟨?_, ?_⟩
  · exact hs.of_live fun n hn => hs₁.live n (.inl hn)
  · exact (hs₁.live _ (.inr rfl)).trans hl

theorem registers_itemOqreg (hs : s.Finds N.Sid f) (hkey : N.Key key) (hl : s.SharedBy N key R l)
    (hpinned : l.pinned = true) :
    wlp (itemOqreg sid key) (fun r s' => r = .ok →
      s'.Registers N sid (struck sid (R.zip (trigKeylistTails l.data)) f)) c s := by
  refine finds_unlessAborted hs hl (fun _ => nofun) fun s₁ hs₁ hl₁ => ?_
  refine .bind ((finds_itemOqregLease hs₁ hkey hl₁.live hpinned).mono fun _ s₂ ⟨hs₂, hl₂⟩ => ?_)
  rw [wlp_bind, itemOqregColease, wlp_bind, itemGetCoLease, wlp_itemGet, hl₂]
  dsimp only
  rw [wlp_pure, hl.shared, when_true, wlp_bind]
  refine finds_vacate hs₂ { hl with live := hl₂ } fun s₃ hs₃ => ?_
  refine (keepsFinds_itemAssocSidColease hkey none sid .oLeaseInv s₃ hs₃).mono fun _ s₄ hs₄ => ?_
  exact (registers_itemAssocKeySid_bind hs₄ (.pure _)).mono fun _ _ h _ => h

/-- Every operation that claims a shared key for its session marks the readers, and files the
session. -/
theorem registers_exec (hs : s.Finds N.Sid f) (hop : op.claims = some key) (hkey : N.Key key)
    (hl : s.SharedBy N key R l) (hpinned : l.pinned = true) :
    wlp (op.exec sid) (fun r s' => r = .ok →
      s'.Registers N sid (struck sid (R.zip (trigKeylistTails l.data)) f)) c s := by
  cases op with
  | oqread k =>
    cases hop
    rw [Op.exec, wlp_bind]
    exact (registers_itemOqread hs hkey hl).mono fun _ _ h => .pure h
  | oqwrite it =>
    cases hop
    exact registers_itemOqwrite hs hkey hl
  | oqDelta incr k delta =>
    cases hop
    exact registers_itemOqDelta hs hkey hl fun _ _ _ => keepsFinds_itemAddDeltaCo incr key delta
  | oqConcat append k data =>
    cases hop
    refine registers_itemOqDelta hs hkey hl fun f' pv hpv =>
      .bind (.whenSome fun it hit => ?_) fun _ => .pure _
    exact keepsFinds_itemAppendPrependCo append data (hpv it hit)
  | oqreg k =>
    cases hop
    exact registers_itemOqreg hs hkey hl hpinned
  | _ => cases hop

end Writing

/-! ## Who is marked -/

section Marked

variable {c : Settings} {N : Naming} {s s' : Server} {sid r : Bytes} {R R₁ R₂ : List Bytes}
  {data : Bytes}

/-- An aborted session is refused, whatever it asks for. -/
theorem refused_of_status (h : s.status r = some .abort) (op : Op) :
    ∃ s', run (op.exec r) c s = some (.abort, s') := by
  obtain ⟨it, hlive, habort⟩ := map_eq_some_iff.mp h
  obtain ⟨hfind, hdead⟩ := live_eq_some.mp hlive
  have hget : run (itemGet r) c s = some (some it, s) := by
    simp [itemGet, hfind, hdead]
  obtain ⟨s₁, hsess⟩ : ∃ s₁, run (itemSessAborted r) c s = some (true, s₁) := by
    rw [itemSessAborted, run_bind, hget]
    simp [habort, itemUnlink, modifyAssoc]
  cases op with
  | validate | dcommit | coUnlease =>
    simp [Op.exec, itemValidate, itemDcommit, itemCoUnlease, hget, habort, itemUnlink, modifyAssoc]
  | ciget | oqread | oqswap | oqwrite | oqDelta | oqConcat | oqreg =>
    simp [Op.exec, itemCiget, itemOqread, itemOqswap, itemOqwrite, itemOqDelta,
      itemOqappendOqprepend, itemOqreg, hsess]

/-- An entry is spared exactly when it and what follows it start with the identifier of the
writer. -/
theorem strikes_of_split (henc : Encodes data R) (hsplit : R = R₁ ++ r :: R₂) :
    strikes sid (R.zip (trigKeylistTails data)) r = !decide (sid <+: r ++ encode R₂) := by
  rw [Bool.eq_iff_iff, strikes_iff henc]
  constructor
  · rintro ⟨R₁', R₂', hsplit', hnot⟩
    have hmem : ∀ R₁ R₂, R = R₁ ++ r :: R₂ →
      (r, r ++ encode R₂) ∈ R.zip (trigTailsFrom R.length (encode R)) :=
      fun R₁ R₂ h => (mem_zip_tails henc.short le_rfl).mpr ⟨R₁, R₂, h, rfl⟩
    rw [← mem_zip_unique henc.nodup (hmem R₁' R₂' hsplit') (hmem R₁ R₂ hsplit)]
    simpa using hnot
  · intro hnot
    exact ⟨R₁, R₂, hsplit, by simpa using hnot⟩

/-- The writer is not among those that are struck. -/
theorem strikes_self (henc : Encodes data R) :
    strikes sid (R.zip (trigKeylistTails data)) sid = false := by
  rw [← Bool.not_eq_true, strikes_iff henc]
  rintro ⟨R₁, R₂, -, hnot⟩
  exact hnot (prefix_append ..)

theorem status_struck {f : Bytes → Option Item} {ps : List (Bytes × Bytes)} :
    (struck sid ps f r).map Item.sessStatus = some .abort ↔
      (f r).map Item.sessStatus = some .abort ∨ strikes sid ps r = true ∧
      (f r).map Item.sessStatus ≠ none := by
  rw [struck]
  cases strikes sid ps r with
  | false => simp
  | true => cases f r <;> simp [Item.abort]

/-- Exactly the live readers other than the writer are marked, and each is then refused. -/
structure AbortsReaders (c : Settings) (N : Naming) (s s' : Server) (sid : Bytes)
    (R : List Bytes) : Prop where
  marked : ∀ r, N.Sid r → (s'.status r = some .abort ↔ s.status r = some .abort ∨ r ∈ R ∧ r ≠ sid ∧
    s.status r ≠ none)
  refused : ∀ r ∈ R, r ≠ sid → s.status r ≠ none →
    ∀ op : Op, ∃ s'', run (op.exec r) c s' = some (.abort, s'')
  own : s'.status sid ≠ some .abort

/-- The identifier that an operation runs with: until its body has arrived, its length is kept in
one byte. -/
def Session.Op.taken (sid : Bytes) : Op → Bytes
  | .oqswap _ | .oqwrite _ | .oqConcat .. => u8Name sid
  | _ => sid

theorem Session.Op.taken_of_lt (op : Op) (h : sid.length < 256) : op.taken sid = sid := by
  cases op <;> simp [taken, u8Name_of_lt h]

theorem Session.Op.u8Name_taken (op : Op) (sid : Bytes) : u8Name (op.taken sid) = u8Name sid := by
  cases op <;> simp [taken, u8Name_of_lt (length_u8Name_lt sid)]

theorem Naming.Owner.taken (h : N.Owner sid) (op : Op) : N.Owner (op.taken sid) := by
  have hcut := h.u8Name
  cases op <;> assumption

/-- The writer can be told from the live readers: none starts, with the entries that follow it, with
the identifier that the operation runs with, and the name that a long identifier is cut to is that
of no reader and of no aborted session. -/
structure Distinguishes (s : Server) (op : Op) (sid : Bytes) (R : List Bytes) : Prop where
  readers : ∀ R₁ r R₂, R = R₁ ++ r :: R₂ → r ≠ sid → s.status r = some .alive →
    ¬ op.taken sid <+: r ++ encode R₂
  filed : 256 ≤ sid.length → s.status (u8Name sid) ≠ some .abort ∧ (u8Name sid ∈ R →
    s.status (u8Name sid) = none)

/-- The name that a session is filed under is a short identifier. -/
theorem Naming.sid_of_owner (h : N.Owner sid) : N.Sid (u8Name sid) :=
  ⟨h.unprefixed.u8Name, h.filed, length_u8Name_lt sid⟩

section

variable (h : s'.Registers N sid (struck sid (R.zip (trigKeylistTails data)) s.live))

include h

/-- Who is marked once a session has been filed. -/
theorem Server.Registers.status_iff (hr : N.Sid r)
    (hne : r ≠ u8Name sid) : s'.status r = some .abort ↔ s.status r = some .abort ∨
      strikes sid (R.zip (trigKeylistTails data)) r = true ∧ s.status r ≠ none := by
  obtain ⟨f', hfinds, hfiled⟩ := h
  rw [Server.status, hfinds.live r hr, hfiled.other r hne]
  exact status_struck

/-- A session that was not aborted is not filed as aborted. -/
theorem Server.Registers.own_status (hsid : N.Owner sid) (henc : Encodes data R)
    (hlive : s.status sid ≠ some .abort) :
    s'.status (u8Name sid) ≠ some .abort := by
  obtain ⟨f', hfinds, hfiled⟩ := h
  intro habort
  rw [Server.status, hfinds.live _ (Naming.sid_of_owner hsid)] at habort
  obtain ⟨it, hit, hstatus⟩ := Option.map_eq_some_iff.mp habort
  obtain ⟨hshort, hfound⟩ := hfiled.own it hit hstatus
  rw [u8Name_of_lt hshort, struck, strikes_self henc, if_neg Bool.false_ne_true] at hfound
  exact hlive (Option.map_eq_some_iff.mpr ⟨it, hfound, hstatus⟩)

end

end Marked

end Rejig
