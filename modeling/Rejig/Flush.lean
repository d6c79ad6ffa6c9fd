import Rejig.Address
import Rejig.Fields

/-!
# Flushing

`flush_all` does not empty the table.  It sets `oldest_live` to the second before, unlinks the items
that have been used since, and leaves the others to the comparison that `_item_get` makes at every
access.  So what it does is seen only along a run.  An item that was linked before is never returned
again as long as `oldest_live` stays between 1 and the present; an item that is linked or touched
later, in the same second or not, is past `oldest_live`.

A later `flush_all` with a delay moves `oldest_live` into the future, and one with a date before the
start of the server sets it to 0.  Either way the comparison is off, and the items that the first
request left to it come back.
-/

namespace Rejig

open Prog Server Option

/-- An item at this address is linked. -/
def Server.Linked (s : Server) (a : Nat) : Prop := ∃ n it, s.find n = some it ∧ it.addr = a

/-- The values at some addresses are left to the comparison of `_item_get`, and it finds them out of
date. -/
structure Server.Hides (B : Nat → Prop) (s : Server) : Prop where
  used : ∀ a, B a → a < s.nextAddr
  pos : 0 < s.oldestLive
  le_now : s.oldestLive ≤ s.now
  all : s.All fun it => B it.addr → it.isLeaseHolder = true ∨ it.atime ≤ s.oldestLive

/-- The items at all other addresses are recent. -/
structure Server.Spares (B : Nat → Prop) (cut : Nat) (s : Server) : Prop where
  oldestLive : s.oldestLive = cut
  lt_now : cut < s.now
  all : s.All fun it => ¬ B it.addr → cut < it.atime

section States

variable {c : Settings} {B : Nat → Prop} {s : Server} {key : Bytes} {it : Item} {cut : Nat}

/-- What the comparison of `_item_get` hides. -/
theorem Server.Hides.live (hs : s.Hides B) (hit : s.live key = some it) (hb : B it.addr) :
    it.isLeaseHolder = true := by
  obtain ⟨hfind, hdead⟩ := filter_eq_some_iff.mp hit
  refine (hs.all key it hfind hb).resolve_right fun hold => ?_
  have hflushed : it.flushed s.now s.oldestLive = true := by
    simp [Item.flushed, hs.pos.ne', hs.le_now, hold]
  simp [Server.dead, hflushed] at hdead

/-- What it does not hide. -/
theorem Server.Spares.live (hs : s.Spares B cut) (hit : s.find key = some it) (hb : ¬ B it.addr)
    (hexpired : it.expired s.now = false) : s.live key = some it := by
  have hflushed : it.flushed s.now s.oldestLive = false := by
    have hrecent := hs.all key it hit hb
    simp [Item.flushed, hs.oldestLive, hrecent]
  exact filter_eq_some_iff.mpr ⟨hit, by simp [Server.dead, hexpired, hflushed]⟩

/-- Only items that `_item_get` returns are touched, and these do not have one of the addresses. -/
theorem tracks_hides (c : Settings) (B : Nat → Prop) : Tracks c (fun a => ¬ B a) (fun _ a => ¬ B a)
    (fun _ => Server.Hides B) where
  shrink hs hle :=
    ⟨fun a ha => (hs.used a ha).trans_le hle.nextAddr, hle.oldestLive ▸ hs.pos,
      hle.oldestLive ▸ hle.now ▸ hs.le_now, fun n it hit =>
      hle.oldestLive ▸ hs.all n it (hle.find hit)⟩
  fresh hs ha := lt_irrefl _ (hs.used _ ha)
  grow := id
  less _ := id
  link hs hit := ⟨hs.used, hs.pos, hs.le_now, Server.All.link hs.all fun hb => absurd hb hit⟩
  mark hs hf := ⟨hs.used, hs.pos, hs.le_now, Server.All.write hs.all (fun it => (hf it).key)
    fun it hit => by
    rw [(hf it).addr, (hf it).isLeaseHolder, (hf it).atime]
    exact hit⟩
  touch {b s it} hs hit := by
    obtain ⟨hfind, -⟩ := filter_eq_some_iff.mp hit
    refine ⟨hs.used, hs.pos, hs.le_now, fun n it' hit' => ?_⟩
    rw [find_write_of_find (f := fun it => { it with atime := s.now }) s n (fun _ =>
      rfl) hfind] at hit'
    split at hit'
    · cases hit'
      intro hb
      have hlease := hs.live hit hb
      exact .inl hlease
    · exact hs.all n it' hit'
  tick _ hs := ⟨hs.used, hs.pos, hs.le_now.trans (Nat.le_add_right _ _), hs.all⟩
  place hs hfind :=
    have hit := hs.all _ _ hfind
    ⟨hs.used, hs.pos, hs.le_now, Server.All.place hs.all hfind fun _ => hit⟩
  made ha _ := ha

theorem tracks_spares (c : Settings) (B : Nat → Prop) (cut : Nat) :
    Tracks c (fun _ => True) (fun _ _ => True) (fun _ => Server.Spares B cut) where
  shrink hs hle :=
    ⟨hle.oldestLive.trans hs.oldestLive, hle.now ▸ hs.lt_now,
      fun n it hit => hs.all n it (hle.find hit)⟩
  fresh _ := trivial
  grow := id
  less _ := id
  link hs _ := ⟨hs.oldestLive, hs.lt_now, Server.All.link hs.all fun _ => hs.lt_now⟩
  mark hs hf := ⟨hs.oldestLive, hs.lt_now, Server.All.write hs.all (fun it => (hf it).key)
    fun it hit hb =>
    (hf it).atime ▸ hit ((hf it).addr ▸ hb)⟩
  touch hs _ := ⟨hs.oldestLive, hs.lt_now,
    Server.All.write hs.all (fun _ => rfl) fun _ _ _ => hs.lt_now⟩
  tick _ hs := ⟨hs.oldestLive, hs.lt_now.trans_le (Nat.le_add_right _ _), hs.all⟩
  place hs hfind :=
    have hit := hs.all _ _ hfind
    ⟨hs.oldestLive, hs.lt_now, Server.All.place hs.all hfind fun _ => hit⟩
  made _ _ := trivial

/-- A flush leaves only values that are older than the second it sets. -/
theorem Server.hides_flush (hused : ∀ a, B a → a < s.nextAddr) (hpos : 0 < cut)
    (hle : cut ≤ s.now) :
    (s.flush cut).Hides B where
  used := hused
  pos := hpos
  le_now := hle
  all n it hit _ := by
    have hkept := (filter_eq_some_iff.mp hit).2
    simp only [Bool.or_eq_true, decide_eq_true_eq] at hkept
    rcases hkept with (hzero | hlease) | hold
    · exact absurd hzero hpos.ne'
    · exact .inl hlease
    · exact .inr hold.le

theorem Server.spares_flush (hlt : cut < s.now) : (s.flush cut).Spares s.Linked cut where
  oldestLive := rfl
  lt_now := hlt
  all n it hit hb := absurd ⟨n, it, find_of_flush hit, rfl⟩ hb

end States

/-! ## Runs -/

/-- Whether a step is a `flush_all`. -/
def Moment.isFlushall (m : Moment) : Bool :=
  match m.label with
  | .line _ (.flushall _) _ => true
  | _ => false

/-- Whether a step is a `flush_all` without a delay. -/
def Moment.flushesNow (m : Moment) : Bool :=
  match m.label with
  | .line _ (.flushall exptime) _ => exptime ≤ 0
  | _ => false

/-- A `flush_all` sets `oldest_live` to a second between 1 and the present one. -/
def Moment.cuts (c : Settings) (m : Moment) : Bool :=
  match m.label with
  | .line _ (.flushall exptime) _ =>
    0 < m.pre.server.cut c exptime && m.pre.server.cut c exptime ≤ m.pre.server.now
  | _ => true

section Runs

variable {c : Settings} {h later earlier : History} {w w' : World} {e : Event} {t : Moment}
  {conn : Nat} {exptime : Int} {out : Outcome} {B : Nat → Prop} {cut : Nat}

theorem Moment.exists_of_flushesNow (h : t.flushesNow = true) :
    ∃ conn exptime out, t.label = .line conn (.flushall exptime) out ∧ exptime ≤ 0 := by
  rw [Moment.flushesNow] at h
  split at h
  · next conn exptime out hlabel => exact ⟨conn, exptime, out, hlabel, of_decide_eq_true h⟩
  · cases h

theorem World.Step.of_flushall (hstep : World.Step c w (.line conn (.flushall exptime) out) w') :
    w'.server = w.server.flush (w.server.cut c exptime) := by
  have hrun : wlp (ascProcessFlushall exptime)
    (fun _ s => s = w.server.flush (w.server.cut c exptime)) c w.server :=
    wlp_ascProcessFlushall.mpr rfl
  cases hstep with
  | line _ hline => exact hrun _ _ hline

/-- The server hides the values at some addresses, and no connection waits with one of these
addresses. -/
structure World.Hides (B : Nat → Prop) (w : World) : Prop where
  server : w.server.Hides B
  waiting : ∀ {conn req p}, w.conns conn = some (req, p) → ¬ B p.item.addr

theorem World.Hides.step (hr : (service c).Run h w) (hw : w.Hides B) (hstep : World.Step c w e w')
    (hcuts : Moment.cuts c ⟨w, e, w'⟩ = true) : w'.Hides B := by
  constructor
  · refine (tracks_hides c B).step (b := 0) hr hstep hw.server ?_ ?_
    · rintro conn req p body reply rfl
      exact hw.waiting hstep.of_body.1
    · rintro conn exptime out rfl
      simp only [Moment.cuts, Bool.and_eq_true, decide_eq_true_eq] at hcuts
      exact hides_flush hw.server.used hcuts.1 hcuts.2
  · intro conn req p hconn
    rcases hstep.conns conn with heq | hnone | ⟨req', p', rfl, heq⟩
    · exact hw.waiting (heq ▸ hconn)
    · rw [hnone] at hconn
      cases hconn
    · rw [heq] at hconn
      cases hconn
      -- the address of an item that has just been allocated is new
      rw [hstep.of_nread.1]
      exact fun hb => lt_irrefl _ (hw.server.used _ hb)

theorem World.Hides.run (hr : (service c).Run (later ++ t :: earlier) w) (hw : t.post.Hides B)
    (hcuts : ∀ m ∈ later, m.cuts c = true) : w.Hides B := by
  induction later generalizing w with
  | nil =>
    cases hr
    exact hw
  | cons m later ih =>
    cases hr with
    | step hr hstep =>
      obtain ⟨hm, hcuts⟩ := List.forall_mem_cons.mp hcuts
      exact (ih hr hcuts).step hr hstep hm

theorem Server.Spares.run (hr : (service c).Run (later ++ t :: earlier) w)
    (hw : t.post.server.Spares B cut) (hno : ∀ m ∈ later, m.isFlushall = false) :
    w.server.Spares B cut := by
  induction later generalizing w with
  | nil =>
    cases hr
    exact hw
  | cons m later ih =>
    cases hr with
    | step hr hstep =>
      obtain ⟨hm, hno⟩ := List.forall_mem_cons.mp hno
      refine (tracks_spares c B cut).step (b := 0) hr hstep (ih hr hno)
        (fun _ _ _ _ _ _ => trivial) ?_
      rintro conn exptime out rfl
      cases hm

/-- The clock starts at 2. -/
theorem one_lt_now_of_run (hr : (service c).Run h w) : 1 < w.server.now := by
  have htracks : Tracks c (fun _ => True) (fun _ _ => True) (fun _ s => 1 < s.now) := by
    refine ⟨fun hs hle => hle.now ▸ hs, fun _ => trivial, id, fun _ => id, fun hs _ => hs,
      fun hs _ => hs, fun hs _ => hs, fun _ hs => hs.trans_le (Nat.le_add_right _ _), fun hs _ =>
      hs, fun _ _ => trivial⟩
  induction hr with
  | init hinit =>
    cases hinit
    exact Nat.lt_succ_self 1
  | step hr hstep ih =>
    exact htracks.step (b := 0) hr hstep ih (fun _ _ _ _ _ _ => trivial) fun _ _ _ _ => ih

/-- Without a delay, `oldest_live` is set to the second before. -/
theorem Server.cut_of_nonpos {s : Server} (h : exptime ≤ 0) : s.cut c exptime = s.now - 1 := by
  rw [Server.cut, if_neg (not_lt.mpr h)]

/-- What a `flush_all` without a delay does. -/
theorem World.Step.hides_flushall (hr : (service c).Run h w)
    (hstep : World.Step c w (.line conn (.flushall exptime) out) w') (hnow : exptime ≤ 0) :
    w'.Hides w.server.Linked ∧ w'.server.Spares w.server.Linked (w.server.now - 1) := by
  have hone : 1 < w.server.now := one_lt_now_of_run hr
  have haddr : w.Addressed := addressed_of_run hr
  have hserver : w'.server = w.server.flush (w.server.now - 1) := by
    rw [hstep.of_flushall, cut_of_nonpos hnow]
  refine ⟨⟨?_, fun {conn' req p} hconn => ?_⟩, ?_⟩
  · rw [hserver]
    refine hides_flush ?_ (by omega) (by omega)
    rintro a ⟨n, it, hit, rfl⟩
    exact haddr.server n it hit
  · rintro ⟨n, it, hit, hitem⟩
    rcases hstep.conns conn' with heq | hnone | ⟨req', p', he, heq⟩
    · exact haddr.unlinked (heq ▸ hconn) hit hitem
    · rw [hnone] at hconn
      cases hconn
    · rw [heq] at hconn
      cases hconn
      cases he
      exact (haddr.server n it hit).ne (hitem.trans hstep.of_nread.1)
  · rw [hserver]
    exact spares_flush (by omega)

/-- What the text of a line is read as by a server with the number `0`; `flag` is the flag `noreply`
of the connection. -/
def lineRequest (flag : Bool) (command : Bytes) : Option (Except Halt Request) :=
  (ascHandler flag command).bind fun handler =>
    (ascRequestFields 0 handler.2 command (ascTokenize command) handler.1).map (·.result)

/-- The line `iqget 0 zz 0 1 noreply`.  It sets the flag, and the answer `LVALUE` does not clear
it. -/
def flagLine : Bytes :=
  ofChars ['i', 'q', 'g', 'e', 't', ' ', '0', ' ', 'z', 'z', ' ', '0', ' ', '1', ' ', 'n', 'o', 'r',
    'e', 'p', 'l', 'y']

/-- The line `flush_all x 100`.  A delay is read from the third word, which the bounds of the
command allow only if the flag is set. -/
def delayLine : Bytes :=
  ofChars ['f', 'l', 'u', 's', 'h', '_', 'a', 'l', 'l', ' ', 'x', ' ', '1', '0', '0']

end Runs

end Rejig
