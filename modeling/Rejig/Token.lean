import Rejig.Lease

/-!
# Tokens that clients present

A client proves that it holds a lease by presenting the token it was handed.  The server keeps the
token as the payload of the lease record, in decimal, and reads it back for every comparison.

`swap` and `sar` are for the holders of refresh and increment leases, but they compare the token
with whatever lease there is.  So they also accept the token of an I lease, and `2 ^ 64 - 1` for an
invalidate lease, whose payload is a list of transactions and reads back as that number.

`iqset` is for the holder of an I lease and ends it, unless the body is empty: such an item is
refused before the lease is looked at.
-/

namespace Rejig

open Prog Server

variable {it : Item} {p : Pending} {body : Bytes}

/-! ## Swapping -/

/-- A refresh or increment lease with the token. -/
def Item.HoldsToken (it : Item) (token : UInt64) : Prop :=
  (it.hasQRefLease = true ∨ it.hasQIncrLease = true) ∧ it.data = decimal token

/-- The completions of `swap` and `sar` with the token. -/
def Completion.Swaps (completion : Completion) (token : UInt64) : Prop :=
  completion = .swap token ∨ completion = .sar token

section Swap

variable {c : Settings} {s : Server} {token : UInt64} {k : Bytes}

/-- Without a lease that reads back as the token, `item_swap` does nothing. -/
theorem refused_itemSwap (hk : it.key = k)
    (h : ∀ l, s.live (leaseKey k) = some l → l.leaseValue ≠ token) :
    wlp (itemSwap it token) (fun r s' => r = .notFound ∧ ∀ n, s'.live n = s.live n) c s := by
  subst hk
  rw [itemSwap, itemGetLease, wlp_bind, wlp_itemGet]
  cases hl : s.live (leaseKey it.key) with
  | none => exact .pure ⟨rfl, live_reap s _⟩
  | some l =>
    dsimp only
    rw [if_pos (h l hl)]
    exact .pure ⟨rfl, live_reap s _⟩

/-- Without a lease that reads back as the token, `item_swap_and_release` does nothing. -/
theorem refused_itemSwapAndRelease (hk : it.key = k)
    (h : ∀ l, s.live (leaseKey k) = some l → l.leaseValue ≠ token) :
    wlp (itemSwapAndRelease it token) (fun r s' => r = .notFound ∧
        ∀ n, s'.live n = s.live n) c s := by
  subst hk
  rw [itemSwapAndRelease, itemGetLease, wlp_bind, wlp_itemGet]
  cases hl : s.live (leaseKey it.key) with
  | none => exact .pure ⟨rfl, live_reap s _⟩
  | some l =>
    dsimp only
    rw [if_pos (h l hl)]
    exact .pure ⟨rfl, live_reap s _⟩

theorem refused_ascCompleteNread (hp : p.completion.Swaps token)
    (h : ∀ l, s.live (leaseKey p.item.key) = some l → l.leaseValue ≠ token) :
    wlp (ascCompleteNread p body) (fun r s' => r ≠ .stored ∧ ∀ n, s'.live n = s.live n) c s := by
  rw [ascCompleteNread]
  split
  · exact .pure ⟨by simp, fun _ => rfl⟩
  rcases hp with hp | hp
  · rw [hp, ascComplete, wlp_bind]
    refine wlp.mono (refused_itemSwap rfl h) ?_
    rintro r s' ⟨hr, hs'⟩
    subst hr
    exact .pure ⟨by simp, hs'⟩
  · rw [hp, ascComplete, wlp_bind]
    refine wlp.mono (refused_itemSwapAndRelease rfl h) ?_
    rintro r s' ⟨hr, hs'⟩
    subst hr
    exact .pure ⟨by simp, hs'⟩

/-- Whatever the lease is, a `swap` without a body is answered `STORED` if the lease reads back as
its token. -/
theorem run_ascCompleteNread_swap_empty {l : Item} (hp : p.completion = .swap token)
    (hv : p.vlen = 0) (hl : s.live (leaseKey p.item.key) = some l) (htok : l.leaseValue = token) :
    run (ascCompleteNread p [0x0d, 0x0a]) c s = some (.stored, s.reap (leaseKey p.item.key)) := by
  have hwp : wp (ascCompleteNread p [0x0d, 0x0a])
      (fun r s' => r = .stored ∧ s' = s.reap (leaseKey p.item.key)) c s := by
    rw [wp_iff_not_wlp, ascCompleteNread, hv, hp]
    simp [ascComplete, itemSwap, itemGetLease, hl, htok, Item.nbyte]
  obtain ⟨r, s', hrun, rfl, rfl⟩ := hwp
  exact hrun

/-- `swap` and `sar` are answered `STORED`, or change anything, only for the holder of a refresh or
increment lease, exactly if no other lease reads back as the token. -/
theorem swaps_iff_holdsToken (c : Settings) (s : Server) (k : Bytes) (token : UInt64) :
    (∀ (p : Pending) (body : Bytes) (r : Reply) (s' : Server), p.completion.Swaps token →
      p.item.key = k → run (ascCompleteNread p body) c s = some (r, s') →
      (r = .stored ∨ ∃ n, s'.live n ≠ s.live n) →
      ∃ l, s.live (leaseKey k) = some l ∧ l.HoldsToken token) ↔
    ∀ l, s.live (leaseKey k) = some l → l.leaseValue = token → l.HoldsToken token := by
  constructor
  · intro h l hl htok
    have hlen : k.length < 256 := by
      have := length_lt_of_find (live_eq_some.mp hl).1
      simp only [leaseKey, List.length_cons] at this
      omega
    let p : Pending := ⟨.swap token, { addr := 0, key := k, key_lt := hlen }, 0⟩
    obtain ⟨l', hl', hholds⟩ := h p [0x0d, 0x0a] .stored _ (.inl rfl) rfl
      (run_ascCompleteNread_swap_empty rfl rfl hl htok) (.inl rfl)
    rw [hl] at hl'
    cases hl'
    exact hholds
  · rintro h p body r s' hp rfl hrun hdone
    by_contra hne
    have hrefused : ∀ l, s.live (leaseKey p.item.key) = some l → l.leaseValue ≠ token :=
      fun l hl htok => hne ⟨l, hl, h l hl htok⟩
    obtain ⟨hr, hsame⟩ := refused_ascCompleteNread hp hrefused r s' hrun
    rcases hdone with hr' | ⟨n, hn⟩
    · exact hr hr'
    · exact hn (hsame n)

end Swap

/-- A `swap` is stored with the token of an I lease, and with `2 ^ 64 - 1` under an invalidate
lease. -/
theorem swap_without_holding :
    (∃ (h : History) (w : World) (t : Moment) (l : Item), (service {}).Run (t :: h) w ∧
      t.label.Completes (.swap 0 (-1) [0x6b] 0 0 1 5) .stored ∧
      t.pre.server.live (leaseKey [0x6b]) = some l ∧ l.lease = .i) ∧
    ∃ (h : History) (w : World) (t : Moment) (l : Item), (service {}).Run (t :: h) w ∧
      t.label.Completes (.swap 0 (-1) [0x6b] 0 0 1 (.ofNat uint64Max)) .stored ∧
      t.pre.server.live (leaseKey [0x6b]) = some l ∧ l.lease = .qInv := by
  constructor
  · obtain ⟨older, t, w, hr, hlabel, l, hl, hkind⟩ := (playable_run {}).exists_run₁
      [.line 0 (.iqget 0 [0x6b] 0), .line 1 (.swap 0 (-1) [0x6b] 0 0 1 5),
        .body 1 [0x76, 0x0d, 0x0a]]
      (P := fun _ t _ => t.label.Completes (.swap 0 (-1) [0x6b] 0 0 1 5) .stored ∧
        ∃ l, t.pre.server.live (leaseKey [0x6b]) = some l ∧ l.lease = .i) (by decide +kernel)
    exact ⟨older, w, t, l, hr, hlabel, hl, hkind⟩
  · obtain ⟨older, t, w, hr, hlabel, l, hl, hkind⟩ := (playable_run {}).exists_run₁
      [.line 0 (.qareg 0 [0x6b] [0x74]), .line 1 (.swap 0 (-1) [0x6b] 0 0 1 (.ofNat uint64Max)),
        .body 1 [0x76, 0x0d, 0x0a]]
      (P := fun _ t _ => t.label.Completes (.swap 0 (-1) [0x6b] 0 0 1 (.ofNat uint64Max)) .stored ∧
        ∃ l, t.pre.server.live (leaseKey [0x6b]) = some l ∧ l.lease = .qInv) (by decide +kernel)
    exact ⟨older, w, t, l, hr, hlabel, hl, hkind⟩

/-! ## Filling -/

section Fill

variable {c : Settings} {s : Server} {token : UInt64} {k : Bytes} {l : Item}

/-- A fill with the token of the I lease is stored, unless it is empty. -/
theorem stored_itemStore_iqset (hbytes : it.nbyte ≠ 0) (hl : s.live (leaseKey it.key) = some l)
    (hI : l.hasILease = true) (htok : l.leaseValue = token) :
    wp (itemStore it .iqset token) (fun r _ => r = .stored) c s := by
  rw [wp_iff_not_wlp]
  simp only [itemStore, hbytes, decide_false, Bool.false_and, Bool.false_eq_true,
    if_false, wlp_bind, wlp_itemGet, itemStoreIqset, itemGetLease, Server.live_reap, hl, hI, htok,
    Bool.not_true, ne_eq, not_true, wlp_itemUnlink, itemGetPending]
  split
  · rw [wlp_itemStoreLink fun o ho => Server.key_of_live ho]
    simp
  · rw [wlp_bind, wlp_itemUnlink, wlp_itemStoreLink]
    · simp
    · exact fun o ho => Server.key_of_live ho

/-- A client that finds no lease is not told to back off. -/
theorem notHeld_iqget {cfg : Int} {leaseToken : UInt64} (hnone : s.live (leaseKey k) = none) :
    wlp (ascDispatch (.iqget cfg k leaseToken))
      (fun out _ => ∀ p, out = .reply (.lvalue leaseHotmiss p) → s.token = leaseHotmiss) c s := by
  have hrefused : ∀ r ∈ Reply.refusals, ∀ p, Outcome.reply r = .reply (.lvalue leaseHotmiss p) →
      s.token = leaseHotmiss := by
    rintro r hr p ⟨⟩
    simp [Reply.refusals] at hr
  rw [ascDispatch, ascProcessIqget]
  refine wlp_ascCheckConfig hrefused fun _ => wlp_ascCheckLength hrefused fun _ => ?_
  rw [wlp_bind, itemIqget, itemIqgetTrans, if_pos List.length_nil]
  simp only [wlp_bind, wlp_pure, wlp_itemGet, itemCheckEntry, Bool.false_eq_true, if_false]
  cases hv : s.live k with
  | some v =>
    -- the value is returned
    simp only [itemIqgetPending, wlp_pure, itemIqgetValue, itemGetLease, wlp_bind, wlp_itemGet,
      live_reap, hnone, Option.any_none, Bool.false_eq_true, if_false]
    intro _ s' _
    rintro p ⟨⟩
  | none =>
    simp only [itemIqgetPending, itemGetPending, wlp_bind, wlp_itemGet, wlp_pure, itemGetLease,
      live_reap, hnone, itemIqgetGrant, wlp_itemCreateLease]
    intro _
    cases ((((s.reap k).reap (pendingKey k)).reap (leaseKey k))).room with
    | false =>
      rw [if_neg Bool.false_ne_true]
      refine .pure ?_
      rintro p ⟨⟩
    | true =>
      simp only [if_true, whenSome_none, wlp_bind, wlp_pure]
      intro _ s' _ p heq
      exact (Reply.lvalue.inj (Outcome.reply.inj heq)).1

/-- An `iqset` with the token of the I lease ends the lease, so that the next client is not told to
back off, exactly if its body is not empty. -/
theorem iqset_ends_lease_iff {s₀ : Server} {req : Request} {p : Pending} {body : Bytes}
    (hp : Prepared c s₀ req p) (hc : p.completion = .store (.iqset token))
    (hlen : body.length = p.vlen + 2) (hend : body.drop p.vlen = [0x0d, 0x0a])
    (hl : s.live (leaseKey p.item.key) = some l) (hI : l.hasILease = true)
    (htok : l.leaseValue = token) :
    wp (ascCompleteNread p body) (fun _ s' =>
      (∀ l', s'.live (leaseKey p.item.key) = some l' → l'.hasILease = false) ∧
      ∀ cfg leaseToken, wlp (ascDispatch (.iqget cfg p.item.key leaseToken))
        (fun out _ => ∀ b, out = .reply (.lvalue leaseHotmiss b) →
        s'.token = leaseHotmiss) c s') c s ↔
    p.vlen ≠ 0 := by
  have hplain := hp.plain body
  constructor
  · rintro ⟨r, s', hrun, hnone, -⟩ hempty
    have hwlp : wlp (ascCompleteNread p body) (fun _ s' => s' = s) c s := by
      have hbytes : (p.filled body).nbyte = 0 := by simp [Item.nbyte, Pending.filled, hempty]
      have hrefuse : (p.filled body).storable = false := by simp [hplain.storable, hbytes]
      rw [ascCompleteNread, if_neg (not_not.mpr hend), hc, ascComplete, wlp_bind]
      exact (wlp_itemStore_of_not_storable hrefuse).mpr (.pure rfl)
    obtain rfl := hwlp r s' hrun
    rw [hnone l hl] at hI
    cases hI
  · intro hne
    have hbytes : (p.filled body).nbyte ≠ 0 := by
      simp only [Item.nbyte, Pending.filled, List.length_take]
      omega
    obtain ⟨r, s', hrun, rfl⟩ := stored_itemStore_iqset (c := c) hbytes hl hI htok
    have hnone : s'.find (leaseKey p.item.key) = none := by
      rcases fillEnds_itemStore_iqset hplain .stored s' hrun with ⟨-, h, -⟩ | ⟨hne, -⟩
      · exact h
      · exact absurd rfl hne
    have hlive := live_of_find_none hnone
    refine ⟨.stored, s', ?_, fun l' hl' => ?_, fun cfg leaseToken => notHeld_iqget hlive⟩
    · rw [ascCompleteNread, if_neg (not_not.mpr hend), hc]
      change run (itemStore (p.filled body) .iqset token >>= fun r =>
        pure (ascStoreReply r)) c s = _
      rw [run_bind, hrun]
      rfl
    · rw [hlive] at hl'
      cases hl'

end Fill

/-- A fill with the token of a lease that was just handed out. -/
theorem iqset_ends_lease_iff_run : ∃ (s : Server) (p : Pending), p.vlen = 1 ∧ p.item.key = [0x6b] ∧
    wp (ascCompleteNread p [0x76, 0x0d, 0x0a]) (fun _ s' =>
      (∀ l', s'.live (leaseKey p.item.key) = some l' → l'.hasILease = false) ∧
      ∀ cfg leaseToken, wlp (ascDispatch (.iqget cfg p.item.key leaseToken))
        (fun out _ => ∀ b, out = .reply (.lvalue leaseHotmiss b) → s'.token = leaseHotmiss)
        {} s') {} s := by
  obtain ⟨h, w, hr, ⟨req, p⟩, hw, hv, hc, hk, l, hl, hI, htoken⟩ := (playable_run {}).exists_run
    [.line 0 (.iqget 0 [0x6b] 0), .line 1 (.update (.iqset 5) 0 (-1) [0x6b] 0 0 1)]
    (P := fun _ w => ∃ rp, w.conns 1 = some rp ∧ rp.2.vlen = 1 ∧ rp.2.completion = .store
      (.iqset 5) ∧
      rp.2.item.key = [0x6b] ∧ ∃ l, w.server.live (leaseKey rp.2.item.key) = some l ∧ l.hasILease ∧
      l.leaseValue = 5)
    (by decide +kernel)
  dsimp only at hv hc hk hl
  obtain ⟨t, -, -, hp⟩ := exists_line_of_waiting hr hw
  refine ⟨w.server, p, hv, hk, (iqset_ends_lease_iff hp hc ?_ ?_ hl hI htoken).mpr ?_⟩
  · rw [hv]
    rfl
  · rw [hv]
    rfl
  · rw [hv]
    exact one_ne_zero

/-- After an empty fill with the token of the I lease, the next client is told to back off. -/
theorem iqset_empty_keeps_lease : ∃ (h : History) (w : World) (t t' : Moment) (l : Item),
    (service {}).Run (t' :: t :: h) w ∧
    t.label.Completes (.update (.iqset 5) 0 (-1) [0x6b] 0 0 0) .notStored ∧
    t.pre.server.live (leaseKey [0x6b]) = some l ∧ l.hasILease = true ∧ l.leaseValue = 5 ∧
    t'.label = .line 2 (.iqget 0 [0x6b] 0) (.reply (.lvalue leaseHotmiss 0)) := by
  obtain ⟨older, t, t', w, hr, hlabel, hlabel', l, hl, hI, htoken⟩ := (playable_run {}).exists_run₂
    [.line 0 (.iqget 0 [0x6b] 0), .line 1 (.update (.iqset 5) 0 (-1) [0x6b] 0 0 0),
      .body 1 [0x0d, 0x0a], .line 2 (.iqget 0 [0x6b] 0)]
    (P := fun _ t t' _ => t.label.Completes (.update (.iqset 5) 0 (-1) [0x6b] 0 0 0) .notStored ∧
      t'.label = .line 2 (.iqget 0 [0x6b] 0) (.reply (.lvalue leaseHotmiss 0)) ∧
      ∃ l, t.pre.server.live (leaseKey [0x6b]) = some l ∧ l.hasILease ∧ l.leaseValue = 5)
        (by decide +kernel)
  exact ⟨older, w, t, t', l, hr, hlabel, hl, hI, htoken, hlabel'⟩

end Rejig
