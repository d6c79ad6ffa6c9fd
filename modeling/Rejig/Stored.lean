import Rejig.Stable

/-!
# Nothing empty is stored

`_item_store` refuses an item without a payload, unless it is a lease.  All operations store through
it, or make the same test, so no item in the table that is not a lease is empty, whatever clients
send.  Leases have names of their own, and none of them is the name of a pending version; so no
pending version is empty either.

This is an invariant of the primitive operations, so all operations keep it (`Stable`).
-/

namespace Rejig

open Prog

variable {buf key n tid : Bytes} {w : World} {it : Item}

/-- Every item in the table is one that `_item_store` does not refuse. -/
def Server.Stored (s : Server) : Prop := ∀ n it, s.find n = some it → it.storable = true

/-! ## Items -/

/-- `_item_store` does not refuse the item, and under the name of a pending version it is not
empty. -/
structure Item.Kept (it : Item) : Prop where
  storable : it.storable = true
  version : versionKey [] <+: it.key → it.data ≠ []

theorem Item.storable_of_data (h : it.data ≠ []) : it.storable = true := by
  simp [Item.storable, Item.nbyte, h]

namespace Item.Kept

theorem of_data (h : it.data ≠ []) : it.Kept := ⟨Item.storable_of_data h, fun _ => h⟩

theorem of_nbyte (h : it.nbyte ≠ 0) : it.Kept :=
  of_data (List.ne_nil_of_length_pos (Nat.pos_of_ne_zero h))

theorem of_plain (hp : Plain it) (h : it.storable = true) : it.Kept :=
  of_nbyte (of_decide_eq_true (hp.storable ▸ h))

/-- The name of a lease is not that of a pending version, even if it is cut off. -/
theorem of_lease (hk : it.key = u8Name (leaseKey key)) (h : it.storable = true) : it.Kept := by
  refine ⟨h, fun hv => ?_⟩
  have hle : versionKey [] <+: leaseKey key := (hk ▸ hv).trans (List.take_prefix _ _)
  simp [versionKey, leaseKey] at hle

theorem of_coLease (hk : it.key = u8Name (coLeaseKey key)) (h : it.storable = true) : it.Kept := by
  refine ⟨h, fun hv => ?_⟩
  have hle : versionKey [] <+: coLeaseKey key := (hk ▸ hv).trans (List.take_prefix _ _)
  simp [versionKey, coLeaseKey] at hle

end Item.Kept

/-! ## States -/

/-- Every item in the table is kept. -/
def Server.Kept (s : Server) : Prop := ∀ n it, s.find n = some it → it.Kept

section Invariant

variable {c : Settings} {s : Server}

theorem Item.Kept.marked {it' : Item} (h : it.Kept) (hm : it.Marked it') : it'.Kept := by
  refine ⟨?_, fun hv => ?_⟩
  · have hst := h.storable
    simp only [Item.storable, Item.nbyte, Item.isLeaseHolder, Item.hasILease, Item.hasQLease,
      Item.hasQInvLease, Item.hasQRefLease, Item.hasQIncrLease, Item.hasCoLease, Item.hasCLease,
      Item.hasOLease, Item.hasOLeaseInv, Item.hasOLeaseRef, hm.data, hm.lease, hm.co] at hst ⊢
    exact hst
  · rw [hm.key] at hv
    rw [hm.data]
    exact h.version hv

/-- Writing a number in place does not make an item empty. -/
theorem Server.Kept.place (h : s.Kept) (hfind : s.find it.key = some it) (hbuf : buf ≠ []) :
    (s.place c it buf).Kept :=
  Server.All.place h hfind fun _ => .of_data (inPlaceData_ne_nil hbuf)

/-- That the items in the table are kept is an invariant of all operations. -/
theorem stable_kept (c : Settings) : Stable c (fun _ => True) (fun _ => True) (fun _ => True)
      (fun _ => True) Item.Kept (fun _ => Item.Kept) (fun _ => Server.Kept) where
  found hs hit := hs _ _ hit
  shrink hs hle n it hit := hs n it (hle.find hit)
  fresh _ := trivial
  grow hs := hs
  less _ hs := hs
  link hs hit := Server.All.link hs ⟨hit.storable, hit.version⟩
  mark hs hf := Server.All.write hs (fun it => (hf it).key) fun it hit => hit.marked (hf it)
  touch hs _ := Server.All.write hs (fun _ => rfl) fun _ hit => ⟨hit.storable, hit.version⟩
  tick _ hs := hs
  marked hit hm := hit.marked hm
  flags _ := trivial
  place hs _ _ hfind hbuf _ := hs.place hfind hbuf
  list _ _ _ _ hext := .of_data (trigKeylistAddkey_ne_nil hext.added)
  share _ _ _ _ hext := .of_data (trigKeylistAddkey_ne_nil hext.added)
  unshare _ _ _ _ hmade _ hst := .of_coLease hmade.key hst
  lease _ hmade hst := .of_lease hmade.key hst
  version _ _ _ hne _ := .of_data hne
  marker _ _ hne _ := .of_data hne
  listed _ _ _ _ _ := trivial
  shared _ _ _ _ _ _ := trivial

end Invariant

/-! ## Runs -/

section Runs

variable {c : Settings} {s : Server}

theorem Server.Kept.line (hs : s.Kept) (req : Request) :
    Stable.Line c (fun _ => True) (fun _ => True) Server.Kept s req where
  keys _ _ _ := trivial
  owners _ _ := trivial
  arithmetic incr cfg key delta _ _ amount _ := by
    refine (stable_kept c).keeps_itemAddDelta (b := 0) hs ?_ fun _ it newIt value _ _ _ _ hdata _ =>
      ?_
    · intro it buf hk hit hbuf _
      have hfind : (s.reap key).find it.key = some it := by rw [hk, Server.find_reap_self, hit]
      exact ((stable_kept c).shrink (b := 0) hs (.reap s key)).place hfind hbuf
    · exact .of_data (hdata ▸ decimal_ne_nil _)
  commit cfg frag tid pending _ :=
    (stable_kept c).keeps_itemCommit (b := 0) trivial pending (fun _ _ _ _ _ _ _ _ _ _ hne =>
      .of_data hne) s hs
  dcommit sid _ := (stable_kept c).keeps_itemDcommit (b := 0) trivial
    (fun _ _ _ _ _ _ _ _ _ _ hne => .of_data hne) s hs
  flushall exptime _ := wlp_ascProcessFlushall.mpr (Server.All.flush hs _)

theorem Server.Kept.body {completion : Completion} (hs : s.Kept) (req : Request)
    (hplain : Plain it) :
    Stable.Body c (fun _ => True) (fun _ => True) (fun _ => True) Server.Kept s req
      completion it where
  key := trivial
  owners _ _ := trivial
  flags _ := trivial
  store cmd _ := by
    refine (stable_kept c).keeps_itemStore (b := 0) hs (.of_plain hplain) fun _ _ oit nit _ _ _ hne
      hlen => .of_nbyte ?_
    omega
  sar leaseToken _ := (stable_kept c).keeps_itemSwapAndRelease (b := 0) hs fun _ _ _ hne =>
    .of_nbyte hne

/-- In every run, whatever the clients send, the items in the table are kept. -/
theorem kept_of_run {h : History} (hr : (service c).Run h w) : w.server.Kept := by
  induction hr with
  | init hinit =>
    cases hinit
    intro n it hit
    cases hit
  | step hr hstep ih =>
    refine (stable_kept c).keeps_step (b := 0) hr hstep ih (fun _ req _ _ => ih.line req) ?_
    rintro conn req p body reply rfl
    obtain ⟨t, -, -, hp⟩ := exists_line_of_waiting hr hstep.of_body.1
    exact ih.body req (hp.plain body)

/-- In every run nothing empty is stored. -/
theorem IqRun.stored {N : Naming} {h : History} (hr : IqRun c N h w) :
    w.server.Stored := fun n it hit => (kept_of_run hr.run n it hit).storable

end Runs

/-! ## Values are not empty -/

/-- An item that is no lease of any kind. -/
structure Item.Unleased (it : Item) : Prop where
  lease : it.lease = .none
  co : it.hasCoLease = false

section Unleased

variable {c : Settings} {N : Naming} {s : Server} {it' : Item}

theorem Item.unleased_of_plain (h : Plain it) : it.Unleased :=
  ⟨h.1, by
    simp [Item.hasCoLease, Item.hasCLease, Item.hasOLease, Item.hasOLeaseInv, Item.hasOLeaseRef,
      h.2]⟩

theorem TransRecord.unleased (h : TransRecord c s tid key it) : it.Unleased := by
  obtain ⟨-, data, -, addr, cas, -, rfl⟩ := h
  exact ⟨rfl, rfl⟩

theorem Rewritten.unleased (h : Rewritten s it it') : it'.Unleased :=
  Item.unleased_of_plain ⟨h.lease, h.co⟩

theorem Committed.unleased {cfgId : Int} (h : Committed s cfgId it) : it.Unleased :=
  Item.unleased_of_plain ⟨h.lease, h.co⟩

theorem Linked.unleased (h : Linked s it it') (hit : it.Unleased) : it'.Unleased := by
  obtain ⟨cas, p, rfl⟩ := h
  exact ⟨hit.lease, hit.co⟩

theorem Request.Writes.unleased {req : Request} {o : Option Item} (h : req.Writes c s o it' n)
    (hn : Unprefixed n) (ho : ∀ it, o = some it → it.Unleased) : it'.Unleased := by
  cases h with
  | lease => exact absurd rfl hn.ne_leaseKey
  | version => exact absurd rfl hn.ne_versionKey
  | value h =>
    cases h with
    | rewrite _ h => exact h.unleased
    | inPlace hit h | delay hit h => exact h ▸ ⟨(ho _ hit).lease, (ho _ hit).co⟩
    | commit _ h => exact h.unleased
  | marker => exact absurd rfl hn.ne_pendingKey
  | record _ _ _ h => exact h.unleased

theorem Completion.Writes.unleased {completion : Completion} {o : Option Item}
    (h : completion.Writes c s it o it' n) (hn : Unprefixed n) (hit : it.Unleased) :
    it'.Unleased := by
  cases h with
  | link _ h => exact h.unleased hit
  | rewrite h => exact h.unleased
  | lease => exact absurd rfl hn.ne_leaseKey
  | version => exact absurd rfl hn.ne_versionKey
  | record _ h => exact h.unleased

/-- Under a name without a prefix there is no lease. -/
theorem IqRun.unleased {h : History} (hr : IqRun c N h w) (hn : Unprefixed n)
    (hit : w.server.find n = some it) :
    it.Unleased := by
  refine hr.invariant (I := fun _ w => ∀ it, w.server.find n = some it → it.Unleased) ?_ ?_ it hit
  · intro it hit
    cases hit
  intro h w e w' hr ih hstep he hadv
  refine hstep.items hr.run hadv (fun _ _ h => ⟨h.lease, h.co⟩) ?_ ?_ ih
  · rintro conn req out rfl o it ho hwrites
    exact hwrites.unleased hn ho
  · rintro conn req p data r s₀ rfl hp o it - hwrites
    exact hwrites.unleased hn (Item.unleased_of_plain (hp.plain data))

/-- What is under a name without a prefix is not empty. -/
theorem IqRun.data_ne_nil {h : History} (hr : IqRun c N h w) (hn : Unprefixed n)
    (hit : w.server.find n = some it) :
    it.data ≠ [] := by
  have hun := hr.unleased hn hit
  have hstored := hr.stored n it hit
  simpa [Item.storable, Item.isLeaseHolder, Item.hasILease, Item.hasQLease, Item.hasQInvLease,
    Item.hasQRefLease, Item.hasQIncrLease, hun.lease, hun.co, Item.nbyte] using hstored

end Unleased

end Rejig
