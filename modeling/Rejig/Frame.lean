import Rejig.Records

/-!
# What the end of a transaction leaves alone

`commit`, `dar` and `release` find the keys to work on in the record of the transaction.  Whatever
that list is, they touch only the record of the transaction and the four records of each listed key.

The permissions of `Rejig.IqEffect` do not say quite that, because they let the time of the last
access change and items be evicted.  `SameOutside S s s'` is the exact statement: every item with a
name outside of `S` is still there as it was, or it was dead and has been dropped.  It needs an
allocator that evicts nothing (`EvictsNothing`).
-/

namespace Rejig

open Prog Server

variable {cfgId pending : Int} {name tid : Bytes} {c : Settings} {req : Request}

/-- No allocation evicts an item. -/
def Server.EvictsNothing (s : Server) : Prop := ∀ names, .chunk names ∈ s.heap → names = []

/-- Outside of `S` the table is the same, but for items that were dead. -/
structure SameOutside (S : Bytes → Prop) (s s' : Server) : Prop where
  dead : s'.dead = s.dead
  evictsNothing : s'.EvictsNothing
  find : ∀ n, ¬ S n → s'.find n = s.find n ∨
    ∃ it, s.find n = some it ∧ s.dead it = true ∧ s'.find n = none

namespace SameOutside

variable {S : Bytes → Prop} {s₀ s s' : Server} {it : Item}

theorem refl (hs : s.EvictsNothing) : SameOutside S s s := ⟨rfl, hs, fun _ _ => .inl rfl⟩

section

variable (h : SameOutside S s₀ s)

include h

/-- A step that only touches names in `S`, or drops what is dead. -/
theorem step (hdead : s'.dead = s.dead) (hheap : s'.EvictsNothing)
    (hfind : ∀ n, ¬ S n → s'.find n = s.find n ∨
      ∃ it, s.find n = some it ∧ s.dead it = true ∧ s'.find n = none) : SameOutside S s₀ s' where
  dead := hdead.trans h.dead
  evictsNothing := hheap
  find n hn := by
    rcases hfind n hn with heq | ⟨it, hit, hd, hnone⟩
    · rw [heq]
      exact h.find n hn
    · rcases h.find n hn with heq | ⟨_, _, _, hnone'⟩
      · exact .inr ⟨it, heq ▸ hit, h.dead ▸ hd, hnone⟩
      · rw [hnone'] at hit
        cases hit

theorem reap (key : Bytes) : SameOutside S s₀ (s.reap key) := by
  refine h.step rfl h.evictsNothing fun n _ => ?_
  rw [find_reap]
  split
  · cases hf : s.find n with
    | none => exact .inl (live_of_find_none hf)
    | some it =>
      cases hd : s.dead it with
      | false => exact .inl (live_eq_some.mpr ⟨hf, hd⟩)
      | true => exact .inr ⟨it, rfl, hd, by simp [Server.live, hf, hd, Option.filter_some]⟩
  · exact .inl rfl

theorem unlink (hit : S it.key) : SameOutside S s₀ (s.unlink it) := by
  refine h.step rfl h.evictsNothing fun n hn => .inl ?_
  have hne : n ≠ it.key := by
    rintro rfl
    exact hn hit
  rw [find_unlink, if_neg hne]

theorem link (hit : S it.key) : SameOutside S s₀ (s.link c it) := by
  refine h.step rfl h.evictsNothing fun n hn => .inl ?_
  have hne : n ≠ it.key := by
    rintro rfl
    exact hn hit
  rw [find_link, if_neg hne]

theorem allocate : SameOutside S s₀ s.allocate := by
  refine h.step rfl (fun names hmem => h.evictsNothing names ?_) fun n _ => .inl ?_
  · exact List.mem_of_mem_tail hmem
  · have hevicted : s.evicted = [] := by
      rw [Server.evicted]
      split
      · next names _ hheap => exact h.evictsNothing names (by simp [hheap])
      · rfl
    simp [Server.find, Server.allocate, hevicted]

end

end SameOutside

/-- The names of the records that the end of a transaction may touch. -/
def endNames (tid : Bytes) (keys : List Bytes) (n : Bytes) : Prop :=
  n = tid ∨ ∃ k ∈ keys, n ∈ recordNames k

section Passes

variable {S : Bytes → Prop} {s₀ s : Server} {key : Bytes}

section

variable (h : SameOutside S s₀ s)

include h

theorem sameOutside_itemRemoveEntryFromList {o : Item} {entry : Bytes} (ho : S o.key)
    (hname : S (u8Name name)) :
    wlp (itemRemoveEntryFromList (some o) name entry) (fun _ => SameOutside S s₀) c s :=
  wlp_itemRemoveEntryFromList h (fun _ => h.unlink ho) h.allocate fun _ _ _ => h.allocate.link hname

theorem sameOutside_itemDropLease {leaseIt : Item} (hl : s.live (leaseKey key) = some leaseIt)
    (hS : S (leaseKey key)) :
    wlp (itemDropLease tid key leaseIt) (fun _ => SameOutside S s₀) c s := by
  have hlk : leaseIt.key = leaseKey key := key_of_live hl
  have hname : u8Name (leaseKey key) = leaseKey key :=
    u8Name_of_lt (length_lt_of_find (live_eq_some.mp hl).1)
  rw [itemDropLease]
  split
  · exact sameOutside_itemRemoveEntryFromList h (hlk ▸ hS) (by rwa [hname])
  · exact wlp_itemUnlink.mpr (h.unlink (hlk ▸ hS))

/-- Storing an item that has just been allocated. -/
theorem sameOutside_alloc_store {dataflags nbyte : Nat} {f : Item → Item} (hname : S (u8Name name))
    (hf : ∀ it, (f it).key = it.key) : wlp (do
      let newIt ← deref (← itemAllocConfig name dataflags 0 nbyte cfgId)
      let _ ← itemStore (f newIt) .set) (fun _ => SameOutside S s₀) c s := by
  rw [wlp_bind, wlp_itemAllocConfig]
  intro _
  refine wlp_deref_store ?_ ?_
  · exact .pure (h.allocate.link (by rwa [hf]))
  · exact .pure h.allocate

theorem sameOutside_itemCommitPending {it : Option Item} (hS : S (pendingKey key))
    (hlen : (pendingKey key).length < 256) :
    wlp (itemCommitPending key it pending cfgId) (fun _ => SameOutside S s₀) c s := by
  have hdrop : ∀ o, s.live (pendingKey key) = some o →
      SameOutside S s₀ ((s.reap (pendingKey key)).unlink o) := fun o ho =>
    (h.reap _).unlink ((key_of_live ho).symm ▸ hS)
  rw [itemCommitPending, wlp_bind, itemGetPending, wlp_itemGet]
  cases it with
  | some it =>
    dsimp only
    rw [wlp_whenSome]
    exact ⟨fun _ => h.reap _, fun o ho => wlp_itemUnlink.mpr (hdrop o ho)⟩
  | none =>
    cases hp : s.live (pendingKey key) with
    | some o =>
      dsimp only
      rw [wlp_when, wlp_itemUnlink]
      exact ⟨fun _ => hdrop o hp, fun _ => h.reap _⟩
    | none =>
      dsimp only
      rw [wlp_when]
      refine ⟨fun _ => ?_, fun _ => h.reap _⟩
      exact sameOutside_alloc_store (h.reap _) (by rwa [u8Name_of_lt hlen]) fun _ => rfl

section

variable (hS : ∀ n ∈ recordNames key, S n)

include hS

/-- One pass of `item_delete_and_release`. -/
theorem sameOutside_itemDeleteAndReleaseKey :
    wlp (itemDeleteAndReleaseKey tid key) (fun _ => SameOutside S s₀) c s := by
  simp only [itemDeleteAndReleaseKey, itemGetLease, wlp_bind, wlp_itemGet, wlp_whenSome,
    wlp_itemUnlink]
  have hlease : ∀ s₁, SameOutside S s₀ s₁ →
      (s₁.live (leaseKey key) = none → SameOutside S s₀ (s₁.reap (leaseKey key))) ∧
      ∀ l, s₁.live (leaseKey key) = some l →
        wlp (itemDropLease tid key l) (fun _ => SameOutside S s₀) c (s₁.reap (leaseKey key)) := by
    intro s₁ hs₁
    refine ⟨fun _ => hs₁.reap _, fun l hl => sameOutside_itemDropLease (hs₁.reap _) ?_ ?_⟩
    · rwa [live_reap]
    · exact hS _ (by simp [recordNames])
  refine ⟨fun _ => hlease _ (h.reap key), fun it hit => hlease _ ((h.reap key).unlink ?_)⟩
  rw [key_of_live hit]
  exact hS _ (by simp [recordNames])

/-- One pass of `item_commit`. -/
theorem sameOutside_itemCommitKey :
    wlp (itemCommitKey tid pending cfgId key) (fun _ => SameOutside S s₀) c s := by
  have hkey : S key := hS _ (by simp [recordNames])
  have hs₁ := (h.reap (leaseKey key)).reap (versionKey key)
  simp only [itemCommitKey, itemGetLease, itemGetPendingVersion, wlp_bind, wlp_itemGet,
    live_reap, wlp_whenSome, wlp_when]
  refine ⟨fun _ => hs₁, fun leaseIt hl => ⟨fun _ => ?_, fun _ => hs₁⟩⟩
  -- a key whose lease is found fits its length byte with any of the prefixes
  have hlen : (pendingKey key).length < 256 := by
    have := length_lt_of_find (live_eq_some.mp hl).1
    simpa [leaseKey, pendingKey] using this
  have hlen' : key.length < 256 := by
    simp only [pendingKey, List.length_cons] at hlen
    omega
  simp only [itemCommitLeased, wlp_bind, wlp_itemGet]
  refine (sameOutside_itemDropLease hs₁ (by simpa using hl) (hS _ (by simp [recordNames]))).mono
    fun _ s₂ hs₂ => ?_
  have happly : wlp (whenSome (s.live (versionKey key)) fun pvIt =>
      itemCommitApply key pvIt pending cfgId) (fun _ => SameOutside S s₀) c s₂ := by
    rw [wlp_whenSome]
    refine ⟨fun _ => hs₂, fun pvIt _ => sameOutside_alloc_store hs₂ ?_ fun _ => rfl⟩
    rwa [u8Name_of_lt hlen']
  refine happly.mono fun _ s₃ hs₃ => ?_
  have hunlink : wlp (whenSome (s₃.live key) fun it =>
      when ((s.live (versionKey key)).isNone || leaseIt.hasQInvLease) (itemUnlink it))
        (fun _ => SameOutside S s₀) c (s₃.reap key) := by
    simp only [wlp_whenSome, wlp_when, wlp_itemUnlink]
    refine ⟨fun _ => hs₃.reap _, fun it hit => ⟨fun _ => (hs₃.reap _).unlink ?_,
      fun _ => hs₃.reap _⟩⟩
    rwa [key_of_live hit]
  refine hunlink.mono fun _ s₄ hs₄ => ?_
  refine (sameOutside_itemCommitPending hs₄ (hS _ (by simp [recordNames])) hlen).mono
    fun _ s₅ hs₅ => ?_
  rw [wlp_whenSome]
  refine ⟨fun _ => hs₅, fun pvIt hpv => wlp_itemUnlink.mpr (hs₅.unlink ?_)⟩
  rw [key_of_live hpv]
  exact hS _ (by simp [recordNames])

/-- One pass of `item_release`. -/
theorem sameOutside_itemReleaseKey {transIt : Item} (htrans : S transIt.key) :
    wlp (itemReleaseKey tid transIt key) (fun _ => SameOutside S s₀) c s := by
  have hlease : S (leaseKey key) := hS _ (by simp [recordNames])
  have hs₁ := (h.reap (leaseKey key)).reap (versionKey key)
  simp only [itemReleaseKey, itemGetLease, itemGetPendingVersion, wlp_bind, wlp_itemGet,
    live_reap, wlp_whenSome, wlp_when]
  refine ⟨fun _ => hs₁, fun leaseIt hl => ⟨fun _ => ?_, fun _ => hs₁⟩⟩
  have hname : u8Name (leaseKey key) = leaseKey key :=
    u8Name_of_lt (length_lt_of_find (live_eq_some.mp hl).1)
  -- both records are unlinked, whether the list was rebuilt or not
  have hend : ∀ s₂, SameOutside S s₀ s₂ → wlp (itemUnlink leaseIt) (fun _ s₃ =>
      (s.live (versionKey key) = none → SameOutside S s₀ s₃) ∧
      ∀ pvIt, s.live (versionKey key) = some pvIt →
        wlp (itemUnlink pvIt) (fun _ => SameOutside S s₀) c s₃) c s₂ := by
    intro s₂ hs₂
    have hs₃ := hs₂.unlink ((key_of_live hl).symm ▸ hlease)
    rw [wlp_itemUnlink]
    refine ⟨fun _ => hs₃, fun pvIt hpv => wlp_itemUnlink.mpr (hs₃.unlink ?_)⟩
    rw [key_of_live hpv]
    exact hS _ (by simp [recordNames])
  refine ⟨fun _ => ?_, fun _ => hend _ hs₁⟩
  exact (sameOutside_itemRemoveEntryFromList hs₁ htrans (by rwa [hname])).mono fun _ s₂ => hend s₂

end

end

/-- An operation that ends a transaction, if every pass of its loop touches only the records of its
key and the record of the transaction. -/
theorem sameOutside_finish {A : Type} {pass : Item → Bytes → ServerM Unit} {a b : A}
    (hheap : s.EvictsNothing)
    (hpass : ∀ transIt, s.live tid = some transIt → ∀ key ∈ s.listed tid, ∀ s₁,
      SameOutside (endNames tid (s.listed tid)) s s₁ →
        wlp (pass transIt key) (fun _ => SameOutside (endNames tid (s.listed tid)) s) c s₁) :
    wlp (finish tid a b pass) (fun _ => SameOutside (endNames tid (s.listed tid)) s) c s := by
  have hs : SameOutside (endNames tid (s.listed tid)) s (s.reap tid) :=
    (SameOutside.refl hheap).reap tid
  refine wlp_finish (I := SameOutside (endNames tid (s.listed tid)) s) (fun _ => hs) hs hpass ?_
  exact fun transIt ht s₁ hs₁ => hs₁.unlink (.inl (key_of_live ht))

end Passes

/-! ## Requests -/

/-- The transaction that a request ends. -/
def Request.ends : Request → Option Bytes
  | commit _ _ tid _ | dar _ tid | release tid => some tid
  | _ => none

theorem sameOutside_ascDispatch {s : Server} (hend : req.ends = some tid)
    (hheap : s.EvictsNothing) :
    wlp (ascDispatch req) (fun _ => SameOutside (endNames tid (s.listed tid)) s) c s := by
  have hs : SameOutside (endNames tid (s.listed tid)) s s := .refl hheap
  have hS : ∀ key ∈ s.listed tid, ∀ n ∈ recordNames key, endNames tid (s.listed tid) n :=
    fun key hkey n hn => .inr ⟨key, hkey, hn⟩
  cases req with
  | dar cfg tid' =>
    cases hend
    rw [ascDispatch, ascProcessDar]
    refine wlp_ascCheckConfig (fun _ _ => hs) fun _ =>
      wlp_ascCheckLength (fun _ _ => hs) fun _ => ?_
    have hop : wlp (itemDeleteAndRelease tid) (fun _ =>
      SameOutside (endNames tid (s.listed tid)) s) c s :=
      sameOutside_finish hheap fun _ _ key hkey _ hs₁ =>
        sameOutside_itemDeleteAndReleaseKey hs₁ (hS key hkey)
    refine .bind (hop.mono fun r s' hs' => ?_)
    cases r <;> exact .pure hs'
  | commit cfg frag tid' pending =>
    cases hend
    rw [ascDispatch, ascProcessCommit]
    refine wlp_ascCheckLength (fun _ _ => hs) fun _ =>
      wlp_ascCheckConfig (fun _ _ => hs) fun _ => ?_
    have hop : ∀ cfgId, wlp (itemCommit tid pending cfgId)
        (fun _ => SameOutside (endNames tid (s.listed tid)) s) c s := fun cfgId =>
      sameOutside_finish hheap fun _ _ key hkey _ hs₁ => sameOutside_itemCommitKey hs₁ (hS key hkey)
    refine .bind ((hop _).mono fun r s' hs' => ?_)
    cases r <;> exact .pure hs'
  | release tid' =>
    cases hend
    rw [ascDispatch, ascProcessRelease]
    refine wlp_ascCheckLength (fun _ _ => hs) fun _ => ?_
    have hop : wlp (itemRelease tid) (fun _ => SameOutside (endNames tid (s.listed tid)) s) c s :=
      sameOutside_finish hheap fun _ ht key hkey _ hs₁ =>
        sameOutside_itemReleaseKey hs₁ (hS key hkey) (.inl (key_of_live ht))
    refine .bind (hop.mono fun r s' hs' => ?_)
    cases r <;> exact .pure hs'
  | _ => cases hend

/-- `commit`, `dar` and `release` leave alone every record but that of the transaction and the four
records of each key that it lists. -/
theorem ends_frame {c : Settings} {w w' : World} {conn : Nat} {req : Request} {out : Outcome}
    {tid n : Bytes} (hstep : World.Step c w (.line conn req out) w') (hend : req.ends = some tid)
    (hheap : w.server.EvictsNothing) (hn : n ≠ tid)
    (hkeys : ∀ k ∈ w.server.listed tid, n ∉ recordNames k) :
    w'.server.find n = w.server.find n ∨
      ∃ it, w.server.find n = some it ∧ w.server.dead it = true ∧ w'.server.find n = none := by
  refine (sameOutside_ascDispatch hend hheap _ _ hstep.of_line).find n ?_
  rintro (heq | ⟨k, hk, hmem⟩)
  · exact hn heq
  · exact hkeys k hk hmem

/-- A commit of the transaction `t` on `k`, seen from the value of another key. -/
theorem ends_frame_commit : ∃ (w w' : World) (it : Item), w.server.find [0x61] = some it ∧
    World.Step {} w (.line 1 (.commit 0 (-1) [0x74] 0) (.reply .ok)) w' ∧
    (w'.server.find [0x61] = w.server.find [0x61] ∨
      ∃ it, w.server.find [0x61] = some it ∧ w.server.dead it = true ∧
        w'.server.find [0x61] = none) := by
  obtain ⟨older, t, w, hr, hheap, hlisted, hlabel, hfound⟩ := (playable_run {}).exists_run₁
    [.line 0 (.update .set 0 (-1) [0x61] 0 0 1), .body 0 [0x76, 0x0d, 0x0a],
      .line 1 (.qareg 0 [0x6b] [0x74]), .line 1 (.commit 0 (-1) [0x74] 0)]
    (P := fun _ t _ => t.pre.server.heap = [] ∧ t.pre.server.listed [0x74] = [[0x6b]] ∧
      t.label = .line 1 (.commit 0 (-1) [0x74] 0) (.reply .ok) ∧ (t.pre.server.find [0x61]).isSome)
    (by decide +kernel)
  obtain ⟨it, hit⟩ := Option.isSome_iff_exists.mp hfound
  have hstep : World.Step {} t.pre t.label t.post := by
    cases hr with
    | step _ hstep => exact hstep
  rw [hlabel] at hstep
  refine ⟨t.pre, t.post, it, hit, hstep, ends_frame hstep rfl ?_ (by decide) ?_⟩
  · intro names hmem
    rw [hheap] at hmem
    cases hmem
  · rw [hlisted]
    decide

end Rejig
