import Rejig.Records

/-!
# Releasing a transaction

`release` gives up the leases of a transaction and forgets its pending versions.  It allocates
nothing, so it can be followed exactly: `Server.releaseKey` is what one pass of its loop does to the
state.

For an invalidate lease it should take the transaction off the list and leave the other transactions
on it, as `commit` and `dar` do.  It hands the record of the transaction, instead of the lease, to
the function that removes an entry from a list, which finds nothing to remove there; and then it
unlinks the lease as a whole.  So the other transactions lose their registration.
-/

namespace Rejig

open Prog Server Option List

variable {Q : Unit → Server → Prop}

/-- The state after one pass of `item_release`, for a transaction that does not list itself. -/
def Server.releaseKey (s : Server) (key : Bytes) : Server :=
  match (s.live (leaseKey key)).filter (·.hasQLease) with
  | none => (s.reap (leaseKey key)).reap (versionKey key)
  | some l =>
    (s.live (versionKey key)).elim (((s.reap (leaseKey key)).reap (versionKey key)).unlink l)
      (((s.reap (leaseKey key)).reap (versionKey key)).unlink l).unlink

section Pass

variable {c : Settings} {s : Server} {tid key : Bytes} {transIt : Item}

theorem wlp_itemReleaseKey (h : trigCheckKeylist transIt.data transIt.nbyte (u8Name tid) =
      some false) :
    wlp (itemReleaseKey tid transIt key) Q c s ↔ Q () (s.releaseKey key) := by
  have hremove : itemRemoveTidLease transIt key tid = pure () := by
    simp [itemRemoveTidLease, itemRemoveEntryFromList, itemCheckEntry, h]
    rfl
  rw [itemReleaseKey, hremove, Server.releaseKey]
  simp only [itemGetLease, itemGetPendingVersion, wlp_bind, wlp_itemGet, live_reap]
  cases s.live (leaseKey key) with
  | none => simp
  | some l =>
    cases hq : l.hasQLease with
    | false => simp [hq, filter_some]
    | true =>
      -- whether the lease lists transactions makes no difference
      have hwhen : when l.hasQInvLease (pure () : ServerM Unit) = pure () := by
        cases l.hasQInvLease <;> rfl
      cases s.live (versionKey key) <;> simp only [hwhen, hq, filter_some, whenSome_some,
        whenSome_none, when_true, if_true, wlp_bind, wlp_pure, wlp_itemUnlink, elim_none,
        elim_some]

/-- What is left after a pass: the Q lease of the key is gone, and so is its pending version. -/
theorem Server.live_releaseKey (s : Server) (key n : Bytes) : (s.releaseKey key).live n =
    if (n = leaseKey key ∨ n = versionKey key) ∧ (s.live (leaseKey key)).any (·.hasQLease) then
      none else s.live n := by
  rw [Server.releaseKey]
  cases hl : s.live (leaseKey key) with
  | none => simp
  | some l =>
    have hlk : l.key = leaseKey key := key_of_live hl
    cases hq : l.hasQLease with
    | false => simp [hq, filter_some]
    | true =>
      have hl' : ((s.reap (leaseKey key)).reap (versionKey key)).live l.key = some l := by
        simp only [live_reap, hlk, hl]
      have hunlink : ∀ n, (((s.reap (leaseKey key)).reap (versionKey key)).unlink l).live n =
          if n = leaseKey key then none else s.live n := by
        intro n
        rw [live_unlink_of_live _ _ hl', hlk, live_reap, live_reap]
      simp only [filter_some, hq, if_true, any_some, and_true]
      cases hpv : s.live (versionKey key) with
      | none =>
        rw [elim_none, hunlink]
        by_cases hn : n = leaseKey key
        · simp [hn]
        · by_cases hv : n = versionKey key
          · simp [hv, hpv]
          · simp [hn, hv]
      | some pv =>
        have hpk : pv.key = versionKey key := key_of_live hpv
        rw [elim_some, live_unlink_of_live, hunlink, hpk]
        · by_cases hn : n = leaseKey key <;> by_cases hv : n = versionKey key <;> simp [hn, hv]
        · rw [hunlink, hpk, if_neg leaseKey_ne_versionKey.symm, hpv]

/-- The lease of a key after the loop. -/
theorem Server.live_foldl_releaseKey (s : Server) (keys : List Bytes) (k : Bytes) :
    (keys.foldl Server.releaseKey s).live (leaseKey k) =
      if k ∈ keys ∧ (s.live (leaseKey k)).any (·.hasQLease) then none else s.live (leaseKey k) := by
  induction keys generalizing s with
  | nil => simp
  | cons key keys ih =>
    rw [foldl_cons, ih, live_releaseKey]
    by_cases hk : k = key
    · subst hk
      by_cases hq : (s.live (leaseKey k)).any (·.hasQLease) <;> simp [hq]
    · simp [hk]

theorem wlp_forEach_itemReleaseKey (h : trigCheckKeylist transIt.data transIt.nbyte
      (u8Name tid) = some false) {keys : List Bytes} :
    wlp (forEach (itemReleaseKey tid transIt) keys) Q c s ↔ Q ()
      (keys.foldl Server.releaseKey s) := by
  induction keys generalizing s with
  | nil => exact wlp_pure
  | cons key keys ih => rw [forEach_cons, wlp_bind, wlp_itemReleaseKey h, ih, foldl_cons]

end Pass

section Release

variable {c : Settings} {N : Naming} {s : Server} {t : Bytes}

/-- The state after `release`. -/
def Server.release (s : Server) (t : Bytes) : Server :=
  (s.live t).elim (s.reap t) ((s.listed t).foldl Server.releaseKey (s.reap t)).unlink

/-- `release` comes to an end in a state in which the records of transactions list keys. -/
theorem wlp_itemRelease (hs : s.ListsKeys N) (ht : N.isTid t) {Q : IqResult → Server → Prop} :
    wlp (itemRelease t) Q c s ↔ Q (if (s.live t).isSome then .ok else .notFound) (s.release t) := by
  rw [itemRelease, wlp_bind, wlp_itemGet, Server.release]
  cases hlive : s.live t with
  | none => simp
  | some transIt =>
    obtain ⟨ks, henc, hks⟩ := hs t transIt (N.tid_unprefixed ht) (fun hk => N.disjoint hk ht)
      (live_eq_some.mp hlive).1
    have hname : u8Name t = t := u8Name_of_lt (length_lt_of_find (live_eq_some.mp hlive).1)
    have hself : trigCheckKeylist transIt.data transIt.nbyte (u8Name t) = some false := by
      have hmem : t ∉ ks := fun hmem => N.disjoint (hks t hmem).1 ht
      rw [hname, Item.nbyte, henc.check, decide_eq_false hmem]
    have hlisted : s.listed t = ks := by simp [Server.listed, hlive, henc.entries]
    simp only [henc.entries, deref_some, wlp_bind, wlp_pure, wlp_forEach_itemReleaseKey hself,
      wlp_itemUnlink, hlisted]
    simp

theorem Server.live_release (ht : N.isTid t) (k : Bytes) : (s.release t).live (leaseKey k) =
      if k ∈ s.listed t ∧ (s.live (leaseKey k)).any (·.hasQLease) then none else s.live
      (leaseKey k) := by
  rw [Server.release]
  cases hlive : s.live t with
  | none => simp [Server.listed, hlive]
  | some transIt =>
    have htk : leaseKey k ≠ transIt.key := by
      rw [key_of_live hlive]
      exact (N.tid_unprefixed ht).ne_leaseKey.symm
    rw [elim_some, Server.live, find_unlink, if_neg htk]
    change ((s.listed t).foldl Server.releaseKey (s.reap t)).live (leaseKey k) = _
    rw [live_foldl_releaseKey, live_reap]

/-- `release` takes the transaction, and no other, off the invalidate leases that it registered for,
exactly if there is no other transaction on these leases. -/
theorem release_selective_iff {h : History} {w : World} (hr : IqRun c N h w) (ht : N.isTid t)
    (hlen : t.length ≤ tidMaxLen) :
    wp (ascDispatch (.release t)) (fun _ s' =>
      (∀ k ∈ w.server.listed t, ∀ l, s'.live (leaseKey k) = some l → l.hasQInvLease = true →
        ¬ l.Has t) ∧
      ∀ k u l, N.isKey k → u.length ≤ tidMaxLen → u ≠ t → w.server.live (leaseKey k) = some l →
        l.hasQInvLease = true → l.Has u →
        ∃ l', s'.live (leaseKey k) = some l' ∧ l'.hasQInvLease = true ∧ l'.Has u) c w.server ↔
    ∀ k ∈ w.server.listed t, ∀ l, w.server.live (leaseKey k) = some l → l.hasQInvLease = true →
      ∀ u, u.length ≤ tidMaxLen → l.Has u → u = t := by
  have hs := hr.listsKeys
  have hdispatch : ∀ Q : Server → Prop, wp (ascDispatch (.release t)) (fun _ => Q) c w.server ↔
      Q (w.server.release t) := by
    intro Q
    rw [wp_iff_not_wlp, ascDispatch, ascProcessRelease, ascCheckLength, if_neg (not_lt.mpr hlen),
      wlp_bind, wlp_itemRelease hs ht]
    cases (w.server.live t).isSome <;> simp
  rw [hdispatch]
  constructor
  · rintro ⟨-, hkeep⟩ k hk l hl hinv u hu hhas
    by_contra hne
    obtain ⟨l', hl', -⟩ := hkeep k u l (hs.of_listed ht hk).1 hu hne hl hinv hhas
    rw [live_release ht, if_pos ⟨hk, by simp [hl, Item.hasQLease, hinv]⟩] at hl'
    cases hl'
  · intro honly
    refine ⟨fun k hk l hl hinv hhas => ?_, fun k u l hkey hu hne hl hinv hhas => ?_⟩
    · rw [live_release ht] at hl
      split at hl
      · cases hl
      · next hnot => exact hnot ⟨hk, by simp [hl, Item.hasQLease, hinv]⟩
    · have hk : k ∉ w.server.listed t := fun hk => hne (honly k hk l hl hinv u hu hhas)
      refine ⟨l, ?_, hinv, hhas⟩
      rw [live_release ht, if_neg fun h => hk h.1, hl]

end Release

/-- `t` is alone on the lease of `k`, so that `u` keeps its registration for `j`. -/
theorem release_selective_iff_alone : ∃ (h : History) (w : World), IqRun {} pairNaming h w ∧
    w.server.listed [0x74] = [[0x6b]] ∧
    (∃ l, w.server.live (leaseKey [0x6a]) = some l ∧ l.hasQInvLease = true ∧ l.Has [0x75]) ∧
    wp (ascDispatch (.release [0x74])) (fun _ s' =>
      (∀ k ∈ w.server.listed [0x74], ∀ l, s'.live (leaseKey k) = some l → l.hasQInvLease = true →
        ¬ l.Has [0x74]) ∧
      ∀ k u l, pairNaming.isKey k → u.length ≤ tidMaxLen → u ≠ [0x74] →
        w.server.live (leaseKey k) = some l → l.hasQInvLease = true → l.Has u →
        ∃ l', s'.live (leaseKey k) = some l' ∧ l'.hasQInvLease = true ∧ l'.Has u) {} w.server := by
  obtain ⟨h, w, hr, hlisted, hother, hdata⟩ :=
    (playable_iq : Playable {} (IqRun {} pairNaming) _).exists_run
      [.line 0 (.qareg 0 [0x6b] [0x74]), .line 1 (.qareg 0 [0x6a] [0x75])]
      (P := fun _ w => w.server.listed [0x74] = [[0x6b]] ∧
        (∃ l, w.server.live (leaseKey [0x6a]) = some l ∧ l.hasQInvLease = true ∧ l.Has [0x75]) ∧
        ∃ l, w.server.live (leaseKey [0x6b]) = some l ∧ l.data = [1, 0x74]) (by decide +kernel)
  have ht : pairNaming.isTid [0x74] := mem_cons_self
  refine ⟨h, w, hr, hlisted, hother,
    (release_selective_iff hr ht (by decide)).mpr fun k hk l hl _ u hu hhas => ?_⟩
  rw [hlisted, mem_singleton] at hk
  subst hk
  obtain ⟨l', hl', hdata⟩ := hdata
  rw [hl] at hl'
  cases hl'
  have henc : Encodes l.data [[0x74]] := by
    rw [hdata]
    exact ⟨rfl, by simp [Short], by simp⟩
  rw [Item.Has, Item.nbyte, henc.check, u8Name_of_lt (hu.trans_lt (by decide))] at hhas
  simpa using hhas

/-- After `release` of one of two transactions that registered the key, a reader is handed an I
lease, although the other transaction has not finished. -/
theorem release_drops_others : ∃ (h : History) (w : World) (t t' : Moment) (l : Item),
    IqRun {} pairNaming (t' :: t :: h) w ∧
    (∀ e ∈ h, ∀ req, e.label.request = some req → req.finishes = none) ∧
    t.label = .line 0 (.release [0x74]) (.reply .ok) ∧
    t.pre.server.live (leaseKey [0x6b]) = some l ∧ l.hasQInvLease = true ∧ l.Has [0x75] ∧
    t.post.server.live (leaseKey [0x6b]) = none ∧
    t'.label = .line 2 (.iqget 0 [0x6b] 0) (.reply (.lvalue 5 0)) := by
  obtain ⟨older, t, t', w, hr, hnone, hlabel, hgone, hlabel', l, hl, hinv, hhas⟩ :=
    (playable_iq : Playable {} (IqRun {} pairNaming) _).exists_run₂
      [.line 0 (.qareg 0 [0x6b] [0x74]), .line 1 (.qareg 0 [0x6b] [0x75]),
        .line 0 (.release [0x74]), .line 2 (.iqget 0 [0x6b] 0)]
      (P := fun h t t' _ => (∀ e ∈ h, e.label.request.all (·.finishes = none)) ∧
        t.label = .line 0 (.release [0x74]) (.reply .ok) ∧ t.post.server.live
          (leaseKey [0x6b]) = none ∧
        t'.label = .line 2 (.iqget 0 [0x6b] 0) (.reply (.lvalue 5 0)) ∧
        ∃ l, t.pre.server.live (leaseKey [0x6b]) = some l ∧ l.hasQInvLease ∧ l.Has [0x75])
          (by decide +kernel)
  refine ⟨older, w, t, t', l, hr, fun e he req hreq => ?_, hlabel, hl, hinv, hhas, hgone, hlabel'⟩
  simpa [hreq] using hnone e he

end Rejig
