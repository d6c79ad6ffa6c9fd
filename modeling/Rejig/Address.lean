import Rejig.Stored

/-!
# Addresses

An address is handed out once.  So no two items that are linked, or wait for their bodies, share
one, and an address that is in use when something happens tells the items from before apart from
those that come later.

`Tracks` is what is left of the conditions of `Stable` for a property of the table that looks at the
addresses of the items that are linked and not at their contents.
-/

namespace Rejig

open Prog

variable {completion : Completion} {key : Bytes} {req : Request} {vlen : Nat}

/-- An invariant `I` of the primitive operations.  Items with an address that has `P` may be
linked. -/
structure Tracks (c : Settings) (A : Nat → Prop) (P : Nat → Nat → Prop)
    (I : Nat → Server → Prop) : Prop where
  shrink : ∀ {b s s'}, I b s → s.Shrinks s' → I b s'
  fresh : ∀ {b s}, I b s → A s.nextAddr
  grow : ∀ {b s}, I b s → I (max b s.nextAddr) s
  less : ∀ {b b' s}, b ≤ b' → I b' s → I b s
  link : ∀ {b s it}, I b s → P b it.addr → I b (s.link c it)
  mark : ∀ {b s it} {f : Item → Item}, I b s → (∀ it : Item, it.Marked (f it)) → I b (s.write it f)
  touch : ∀ {b s it}, I b s → s.live it.key = some it →
    I b (s.write it fun it => { it with atime := s.now })
  tick : ∀ {b s} (seconds : Nat), I b s → I b { s with now := s.now + seconds }
  place : ∀ {b s it buf}, I b s → s.find it.key = some it → I b (s.place c it buf)
  made : ∀ {b a}, A a → a < b → P b a

namespace Tracks

variable {c : Settings} {A : Nat → Prop} {P : Nat → Nat → Prop} {I : Nat → Server → Prop} {b : Nat}
  {s : Server}

section Steps

variable (h : Tracks c A P I)

include h

theorem stable : Stable c (fun _ => True) (fun _ => True) (fun _ => True) A (fun _ => True)
      (fun b it => P b it.addr) I where
  found _ _ := trivial
  shrink := h.shrink
  fresh := h.fresh
  grow := h.grow
  less := h.less
  link := h.link
  mark := h.mark
  touch := h.touch
  tick := h.tick
  marked hit hm := hm.addr ▸ hit
  flags _ := trivial
  place hs _ _ hfind _ _ := h.place hs hfind
  list _ _ _ hmade _ := h.made hmade.addr hmade.addr_lt
  share _ _ _ hmade _ := h.made hmade.addr hmade.addr_lt
  unshare _ _ _ _ hmade _ _ := h.made hmade.addr hmade.addr_lt
  lease _ hmade _ := h.made hmade.addr hmade.addr_lt
  version _ _ hmade _ _ := h.made hmade.addr hmade.addr_lt
  marker _ hmade _ _ := h.made hmade.addr hmade.addr_lt
  listed _ _ _ _ _ := trivial
  shared _ _ _ _ _ _ := trivial

theorem line (hs : I b s) (req : Request)
    (hflush : ∀ exptime, req = .flushall exptime → I b (s.flush (s.cut c exptime))) :
    Stable.Line c (fun _ => True) (fun _ => True) (I b) s req where
  keys _ _ _ := trivial
  owners _ _ := trivial
  arithmetic incr cfg key delta _ _ amount _ := by
    refine h.stable.keeps_itemAddDelta hs (fun it buf hk hit _ _ => ?_)
      fun _ _ _ _ _ _ hmade _ _ _ =>
      h.made hmade.addr hmade.addr_lt
    exact h.place (h.shrink hs (.reap s key)) (by rw [hk, Server.find_reap_self, hit])
  commit cfg frag tid pending _ :=
    h.stable.keeps_itemCommit trivial pending (fun _ _ _ _ _ _ _ hmade _ _ _ =>
      h.made hmade.addr hmade.addr_lt) s hs
  dcommit sid _ :=
    h.stable.keeps_itemDcommit trivial (fun _ _ _ _ _ _ _ hmade _ _ _ =>
      h.made hmade.addr hmade.addr_lt) s hs
  flushall exptime hreq := wlp_ascProcessFlushall.mpr (hflush exptime hreq)

theorem body {it : Item} (hs : I b s) (hit : P b it.addr) :
    Stable.Body c (fun _ => True) (fun _ => True) (fun _ => True) (I b) s req completion it where
  key := trivial
  owners _ _ := trivial
  flags _ := trivial
  store _ _ := h.stable.keeps_itemStore hs (fun _ => hit) fun _ _ _ _ _ hmade _ _ _ =>
    h.made hmade.addr hmade.addr_lt
  sar _ _ := h.stable.keeps_itemSwapAndRelease hs fun _ _ _ _ => hit

/-- A step of the server keeps the invariant, if the item that a body completes may be linked. -/
theorem step {hist : History} {w w' : World} {e : Event} (hr : (service c).Run hist w)
    (hstep : World.Step c w e w') (hs : I b w.server)
    (hbody : ∀ conn req p body reply, e = .body conn req p body reply → P b p.item.addr)
    (hflush : ∀ conn exptime out, e = .line conn (.flushall exptime) out →
      I b (w.server.flush (w.server.cut c exptime))) : I b w'.server := by
  refine h.stable.keeps_step hr hstep hs (fun conn req out he => ?_) fun conn req p body reply he =>
    ?_
  · exact h.line hs req fun exptime hreq => hflush conn exptime out (hreq ▸ he)
  · exact h.body hs (hbody conn req p body reply he)

end Steps

end Tracks

/-! ## Addresses are handed out once -/

/-- The addresses in the table have been handed out. -/
def Server.Addressed (s : Server) : Prop := s.All (·.addr < s.nextAddr)

theorem tracks_addressed (c : Settings) : Tracks c (fun _ => True) (fun b a => a < b)
    (fun b s => b ≤ s.nextAddr ∧ s.Addressed) where
  shrink hs hle := ⟨hs.1.trans hle.nextAddr,
    fun n it hit => (hs.2 n it (hle.find hit)).trans_le hle.nextAddr⟩
  fresh _ := trivial
  grow hs := ⟨max_le hs.1 le_rfl, hs.2⟩
  less hle hs := ⟨hle.trans hs.1, hs.2⟩
  link hs hit := ⟨hs.1, Server.All.link hs.2 (hit.trans_le hs.1)⟩
  mark hs hf := ⟨hs.1, Server.All.write hs.2 (fun it => (hf it).key) fun it hit =>
    (hf it).addr ▸ hit⟩
  touch hs _ := ⟨hs.1, Server.All.write hs.2 (fun _ => rfl) fun _ => id⟩
  tick _ hs := hs
  place hs hfind :=
    have hit := hs.2 _ _ hfind
    ⟨hs.1, Server.All.place hs.2 hfind fun _ => hit⟩
  made _ hlt := hlt

/-- Some addresses have been handed out, and what is linked under one of them satisfies a
property. -/
structure Server.Marks (B : Nat → Prop) (P : Item → Prop) (s : Server) : Prop where
  used : ∀ a, B a → a < s.nextAddr
  all : s.All fun it => B it.addr → P it

theorem tracks_absent (c : Settings) (B : Nat → Prop) : Tracks c (fun a => ¬ B a) (fun _ a => ¬ B a)
    (fun _ => Server.Marks B fun _ => False) where
  shrink hs hle := ⟨fun a ha => (hs.used a ha).trans_le hle.nextAddr,
    fun n it hit => hs.all n it (hle.find hit)⟩
  fresh hs ha := lt_irrefl _ (hs.used _ ha)
  grow := id
  less _ := id
  link hs hit := ⟨hs.used, Server.All.link hs.all hit⟩
  mark hs hf := ⟨hs.used, Server.All.write hs.all (fun it => (hf it).key) fun it hit =>
    (hf it).addr ▸ hit⟩
  touch hs _ := ⟨hs.used, Server.All.write hs.all (fun _ => rfl) fun _ => id⟩
  tick _ hs := ⟨hs.used, hs.all⟩
  place hs hfind :=
    have hit := hs.all _ _ hfind
    ⟨hs.used, Server.All.place hs.all hfind fun _ => hit⟩
  made ha _ := ha

theorem tracks_recent (c : Settings) : Tracks c (fun _ => True) (fun _ _ => True)
    (fun _ s => s.All (·.atime ≤ s.now)) where
  shrink hs hle := fun n it hit => hle.now ▸ hs n it (hle.find hit)
  fresh _ := trivial
  grow := id
  less _ := id
  link hs _ := Server.All.link hs le_rfl
  mark hs hf := Server.All.write hs (fun it => (hf it).key) fun it hit => (hf it).atime ▸ hit
  touch hs _ := Server.All.write hs (fun _ => rfl) fun _ _ => le_rfl
  tick _ hs := fun n it hit => (hs n it hit).trans (Nat.le_add_right _ _)
  place hs hfind :=
    have hit := hs _ _ hfind
    Server.All.place hs hfind fun _ => hit
  made _ _ := trivial

theorem recent_of_run {c : Settings} {h : History} {w : World} (hr : (service c).Run h w) :
    w.server.All (·.atime ≤ w.server.now) := by
  induction hr with
  | init hinit =>
    cases hinit
    exact fun _ _ hit => nomatch hit
  | step hr hstep ih =>
    refine (tracks_recent c).step (b := 0) hr hstep ih (fun _ _ _ _ _ _ => trivial)
      fun _ exptime _ _ => ?_
    exact fun n it hit => ih n it (Server.find_of_flush hit)

/-! ## Items that wait for their bodies -/

section Waiting

variable {c : Settings} {s : Server}

/-- The handler leaves its connection waiting only if it has allocated an item and done nothing
else. -/
def Outcome.OnlyAllocates (s : Server) (out : Outcome) (s' : Server) : Prop :=
  ∀ p, out = .nread p → s' = s.allocate ∧ s.room = true

theorem Outcome.onlyAllocates_reply (r : Reply) (s' : Server) :
    (Outcome.reply r).OnlyAllocates s s' := by
  rintro p ⟨⟩

theorem onlyAllocates_ascAllocBody {flags : Nat} {exptime configNum : Int} {dropsValue : Bool} :
    wlp (ascAllocBody key flags exptime vlen configNum dropsValue completion)
      (Outcome.OnlyAllocates s) c s := by
  rw [ascAllocBody, wlp_bind, wlp_itemSlabid]
  split
  · exact .pure (Outcome.onlyAllocates_reply _ _)
  rw [wlp_bind, wlp_timeReltime, wlp_bind, wlp_itemAllocConfig]
  intro _
  cases hroom : s.room with
  | true =>
    rw [if_pos rfl, wlp_bind, wlp_ask, wlp_pure]
    exact fun _ _ => ⟨rfl, hroom⟩
  | false =>
    rw [if_neg Bool.false_ne_true, wlp_bind]
    exact fun _ s' _ => .pure (Outcome.onlyAllocates_reply _ _)

theorem onlyAllocates_ascAllocConcat :
    wlp (ascAllocConcat key vlen completion) (Outcome.OnlyAllocates s) c s := by
  rw [ascAllocConcat, wlp_bind, wlp_itemAlloc]
  intro _
  cases hroom : s.room with
  | true =>
    rw [if_pos rfl, wlp_pure]
    exact fun _ _ => ⟨rfl, hroom⟩
  | false => exact .pure (Outcome.onlyAllocates_reply _ _)

theorem onlyAllocates_ascDispatch (req : Request) :
    wlp (ascDispatch req) (Outcome.OnlyAllocates s) c s := by
  have hr : ∀ r ∈ Reply.refusals, (Outcome.reply r).OnlyAllocates s s := fun r _ =>
    Outcome.onlyAllocates_reply r s
  cases hp : req.pending c s with
  | none =>
    intro out s' hrun p hout
    have hpending := (prepared_ascDispatch req out s' hrun p hout).pending
    rw [hp] at hpending
    cases hpending
  | some p =>
    cases req with
    | update | swap =>
      exact wlp_ascCheckLength hr fun _ => wlp_ascCheckConfig hr fun _ => onlyAllocates_ascAllocBody
    | sar =>
      rw [ascDispatch, ascProcessSar]
      exact wlp_ascCheckConfig hr fun _ => wlp_ascCheckLength hr fun _ => onlyAllocates_ascAllocBody
    | iqConcat =>
      exact wlp_ascCheckLength hr fun _ => wlp_ascCheckConfig hr fun _ =>
        onlyAllocates_ascAllocConcat
    | oqswap | oqwrite => exact wlp_ascCheckLength hr fun _ => onlyAllocates_ascAllocBody
    | oqConcat => exact wlp_ascCheckLength hr fun _ => onlyAllocates_ascAllocConcat
    | _ => cases hp

theorem Prepared.addr {p : Pending} (hp : Prepared c s req p) : p.item.addr = s.nextAddr := by
  obtain ⟨hp, -, -⟩ := hp
  cases req with
  | update | swap | sar | iqConcat | oqswap | oqwrite | oqConcat =>
    cases hp
    rfl
  | _ => cases hp

end Waiting

/-- The addresses in use are handed out and not shared. -/
structure World.Addressed (w : World) : Prop where
  server : w.server.Addressed
  waiting : ∀ {conn req p}, w.conns conn = some (req, p) → p.item.addr < w.server.nextAddr
  unlinked : ∀ {conn req p n it}, w.conns conn = some (req, p) → w.server.find n = some it →
    it.addr ≠ p.item.addr
  apart : ∀ {conn conn' req req' p p'}, w.conns conn = some (req, p) →
    w.conns conn' = some (req', p') →
    p.item.addr = p'.item.addr → conn = conn'

section Runs

variable {c : Settings} {h : History} {w w' : World} {e : Event} {conn : Nat} {p : Pending}

/-- `flush_all` hands out nothing and links nothing. -/
theorem Server.Addressed.flush {s : Server} (hs : s.Addressed) (cut : Nat) :
    (s.flush cut).Addressed :=
  Server.All.flush hs cut

theorem World.Addressed.step_server (hr : (service c).Run h w) (hw : w.Addressed)
    (hstep : World.Step c w e w') :
    w.server.nextAddr ≤ w'.server.nextAddr ∧ w'.server.Addressed := by
  refine (tracks_addressed c).step hr hstep ⟨le_rfl, hw.server⟩ ?_ fun _ exptime _ _ =>
    ⟨le_rfl, hw.server.flush _⟩
  rintro conn req p body reply rfl
  exact hw.waiting hstep.of_body.1

/-- The item of a connection that starts to wait. -/
theorem World.Step.of_nread (hstep : World.Step c w (.line conn req (.nread p)) w') :
    p.item.addr = w.server.nextAddr ∧ w'.server = w.server.allocate ∧ w.server.room = true := by
  cases hstep with
  | line _ hrun =>
    obtain ⟨hs, hroom⟩ := onlyAllocates_ascDispatch req _ _ hrun p rfl
    exact ⟨(prepared_ascDispatch req _ _ hrun p rfl).addr, hs, hroom⟩

/-- As long as a connection waits, its item is not linked. -/
theorem World.Addressed.step_unlinked (hr : (service c).Run h w) (hw : w.Addressed)
    (hstep : World.Step c w e w') (hold : w.conns conn = some (req, p))
    (hnew : w'.conns conn = some (req, p)) :
    w'.server.All (·.addr ≠ p.item.addr) := by
  have habsent : w.server.Marks (· = p.item.addr) fun _ => False :=
    ⟨fun a ha => ha ▸ hw.waiting hold, fun n it hit => hw.unlinked hold hit⟩
  refine ((tracks_absent c (· = p.item.addr)).step (b := 0) hr hstep habsent ?_ ?_).all
  · rintro conn' req' p' body reply rfl haddr
    -- the connection whose body arrives does not wait any more
    obtain rfl := hw.apart hstep.of_body.1 hold haddr
    cases hstep
    simp at hnew
  · exact fun _ _ _ _ => ⟨habsent.used, habsent.all.flush _⟩

theorem World.Addressed.step (hr : (service c).Run h w) (hw : w.Addressed)
    (hstep : World.Step c w e w') :
    w'.Addressed := by
  obtain ⟨hgrows, hserver⟩ := hw.step_server hr hstep
  -- the connections that wait after the step did so before, or have just started
  have hcases : ∀ {conn req p}, w'.conns conn = some (req, p) →
      w.conns conn = some (req, p) ∨ e = .line conn req (.nread p) := by
    intro conn req p hconn
    rcases hstep.conns conn with heq | hnone | ⟨req', p', he, heq⟩
    · exact .inl (heq ▸ hconn)
    · rw [hnone] at hconn
      cases hconn
    · rw [heq] at hconn
      cases hconn
      exact .inr he
  refine ⟨hserver, fun hconn => ?_, fun hconn hfind => ?_, fun hconn hconn' haddr => ?_⟩
  · rcases hcases hconn with hold | rfl
    · exact (hw.waiting hold).trans_le hgrows
    · obtain ⟨haddr, hs, hroom⟩ := hstep.of_nread
      rw [haddr, hs, Server.allocate, hroom]
      exact Nat.lt_succ_self _
  · rcases hcases hconn with hold | rfl
    · exact hw.step_unlinked hr hstep hold hconn _ _ hfind
    · obtain ⟨haddr, hs, -⟩ := hstep.of_nread
      rw [haddr]
      rw [hs] at hfind
      exact (hw.server _ _ ((Server.Shrinks.allocate _).find hfind)).ne
  · rcases hcases hconn with hold | rfl
    · rcases hcases hconn' with hold' | rfl
      · exact hw.apart hold hold' haddr
      · have hlt := hw.waiting hold
        rw [haddr, hstep.of_nread.1] at hlt
        exact absurd hlt (lt_irrefl _)
    · rcases hcases hconn' with hold' | he
      · have hlt := hw.waiting hold'
        rw [← haddr, hstep.of_nread.1] at hlt
        exact absurd hlt (lt_irrefl _)
      · cases he
        rfl

/-- In every run, whatever the clients send, the addresses in use are handed out and not shared. -/
theorem addressed_of_run (hr : (service c).Run h w) : w.Addressed := by
  induction hr with
  | init hinit =>
    cases hinit
    exact ⟨nofun, nofun, nofun, nofun⟩
  | step hr hstep ih => exact ih.step hr hstep

end Runs

end Rejig
