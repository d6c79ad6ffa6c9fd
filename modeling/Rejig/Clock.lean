import Rejig.Header

/-!
# Expiry times

`time_reltime` takes the expiry that a client sends, which counts from now or from 1970, to seconds
since the start of the server.  Both the argument and the clock are wider than the result:
`rel_time_t` has 32 bits, and 0 is taken for "never".  `_item_get` then compares the result with the
clock.

`reltime` computes without the bound at the upper end.  `reltime32` has it, and `reltime32_eq` says
where they agree.
-/

namespace Rejig

open Prog

/-- `time_reltime`, with a result of 32 bits. -/
def reltime32 (started : Int) (now : UInt32) (exptime : Int) : UInt32 :=
  if exptime = 0 then 0
  else if timeMaxdelta < exptime then
    if exptime ≤ started then 1 else .ofInt (exptime - started)
  else .ofInt (exptime + now.toNat)

/-- The moment that an argument other than 0 denotes, in seconds since the start of the server. -/
def dueTime (started : Int) (now : Nat) (exptime : Int) : Int :=
  if timeMaxdelta < exptime then exptime - started else exptime + now

/-- The arguments that are converted to what they mean: a moment after the start, within the 32
bits, and any absolute time before the start.  A moment past the 32 bits is taken for "never" if it
is a multiple of their number, and in the last second of the clock there is no later one. -/
def Expires (started : Int) (now : UInt32) (exptime : Int) : Prop :=
  exptime = 0 ∨ timeMaxdelta < exptime ∧ exptime ≤ started ∨
    0 < dueTime started now.toNat exptime ∧
      (dueTime started now.toNat exptime < 2 ^ 32 ∨
        dueTime started now.toNat exptime % 2 ^ 32 = 0) ∨
    now.toNat + 1 = 2 ^ 32

theorem toNat_ofInt32 (t : Int) : (UInt32.ofInt t).toNat = (t % 2 ^ 32).toNat := by
  rw [UInt32.ofInt, UInt32.toNat_ofNat']
  omega

section Conversion

variable {started exptime : Int} {now : UInt32}

/-- What is stored for an argument other than 0. -/
theorem toNat_reltime32 (h : exptime ≠ 0) : (reltime32 started now exptime).toNat =
    if timeMaxdelta < exptime ∧ exptime ≤ started then 1 else
      (dueTime started now.toNat exptime % 2 ^ 32).toNat := by
  rw [reltime32, if_neg h, dueTime]
  by_cases hmax : timeMaxdelta < exptime
  · rw [if_pos hmax, if_pos hmax]
    by_cases hstarted : exptime ≤ started
    · rw [if_pos hstarted, if_pos ⟨hmax, hstarted⟩]
      rfl
    · rw [if_neg hstarted, if_neg fun h => hstarted h.2, toNat_ofInt32]
  · rw [if_neg hmax, if_neg hmax, if_neg fun h => hmax h.1, toNat_ofInt32]

/-- The comparison of `_item_get`, at every later second. -/
theorem expires_iff (hlow : -2 ^ 31 ≤ exptime) :
    (∀ later : Nat, now.toNat < later → later < 2 ^ 32 →
      ((reltime32 started now exptime).toNat = 0 ∨ later < (reltime32 started now exptime).toNat ↔
        exptime = 0 ∨ (later : Int) < dueTime started now.toNat exptime)) ↔
        Expires started now exptime := by
  have hnow : now.toNat < 2 ^ 32 := now.toNat_lt
  rw [Expires]
  by_cases hzero : exptime = 0
  · have hnever : (reltime32 started now exptime).toNat = 0 := by rw [reltime32, if_pos hzero]; rfl
    exact iff_of_true (fun later _ _ => iff_of_true (.inl hnever) (.inl hzero)) (.inl hzero)
  simp only [hzero, false_or]
  rw [toNat_reltime32 hzero]
  by_cases hpast : timeMaxdelta < exptime ∧ exptime ≤ started
  · refine iff_of_true (fun later hlater _ => ?_) (.inl hpast)
    rw [if_pos hpast, dueTime, if_pos hpast.1]
    omega
  rw [if_neg hpast]
  simp only [hpast, false_or]
  have hdue : (now.toNat : Int) - 2 ^ 31 ≤ dueTime started now.toNat exptime ∨
      0 < dueTime started now.toNat exptime := by
    rw [dueTime]
    split
    · next hmax => exact .inr (by have := not_and.mp hpast hmax; omega)
    · exact .inl (by omega)
  generalize dueTime started now.toNat exptime = due at *
  constructor
  · intro h
    by_cases hlast : now.toNat + 1 = 2 ^ 32
    · exact .inr hlast
    · -- an early moment shows in the next second, and one that is too late in the last of all
      have hnext := h (now.toNat + 1) (by omega) (by omega)
      have hend := h (2 ^ 32 - 1) (by omega) (by omega)
      omega
  · intro h later hlater hend
    omega

end Conversion

/-! ## What is stored, and what a get returns -/

/-- An item that was stored with the expiry `exptime` is returned at a later second if and only if
its moment is still to come, for just those arguments. -/
theorem itemGet_expires_iff (c : Settings) (started : Int) (now : UInt32) (exptime : Int32) :
    (∀ (s : Server) (it : Item), s.find it.key = some it →
      it.exptime = (reltime32 started now exptime.toInt).toNat →
        it.flushed s.now s.oldestLive = false →
      now.toNat < s.now → s.now < 2 ^ 32 →
      wp (itemGet it.key) (fun o _ => o =
        if exptime.toInt = 0 ∨ (s.now : Int) < dueTime started now.toNat exptime.toInt then some
        it else none) c s) ↔
      Expires started now exptime.toInt := by
  rw [← expires_iff exptime.le_toInt]
  have hget (s : Server) (it : Item) (hf : s.find it.key = some it)
      (hflushed : it.flushed s.now s.oldestLive = false) :
      s.live it.key = if it.exptime = 0 ∨ s.now < it.exptime then some it else none := by
    rw [Server.live, hf, Option.filter_some, Server.dead, hflushed, Bool.or_false]
    refine if_congr ?_ rfl rfl
    rw [Bool.not_eq_true', Item.expired, Bool.and_eq_false_iff, decide_eq_false_iff_not,
      decide_eq_false_iff_not, not_not, Nat.not_le]
  constructor
  · intro h later hlater hend
    let it : Item := { addr := 0, key := [], key_lt := by decide, dataflags := 0,
                       exptime := (reltime32 started now exptime.toInt).toNat, configNumber := 0 }
    let s : Server := { Server.start with now := later, assoc := Server.start.assoc.put it }
    have hf : s.find it.key = some it := Slots.find_put_self _ _
    have hwp := h s it hf rfl rfl hlater hend
    rw [wp_iff_not_wlp, wlp_itemGet, not_not, hget s it hf rfl] at hwp
    have hiff := congrArg Option.isSome hwp
    rw [Bool.eq_iff_iff] at hiff
    simpa only [Option.isSome_ite] using hiff
  · intro h s it hf hexptime hflushed hlater hend
    rw [wp_iff_not_wlp, wlp_itemGet, not_not, hget s it hf hflushed, hexptime]
    exact if_congr (h s.now hlater hend) rfl rfl

/-- A value that is stored at the second 5 to expire five seconds before stays for ever. -/
theorem itemGet_keeps_expired : ∃ (h : History) (w : World) (it : Item), (service {}).Run h w ∧
    w.server.find [0x6b] = some it ∧ it.exptime = (reltime32 (Settings.processStarted {}) 5
        (-5)).toNat ∧
    w.server.now = 6 ∧ dueTime (Settings.processStarted {}) 5 (-5) ≤ 5 ∧
    wp (itemGet [0x6b]) (fun o _ => o = some it) {} w.server := by
  obtain ⟨h, w, hr, hnow, it, hit, hexptime, hlive⟩ := (playable_run {}).exists_run
    [.tick 3, .line 0 (.update .set (-1) (-1) [0x6b] 0 (-5) 1), .body 0 [0x61, 0x0d, 0x0a], .tick 1]
    (P := fun _ w => w.server.now = 6 ∧ ∃ it, w.server.find [0x6b] = some it ∧ it.exptime = 0 ∧
      w.server.live [0x6b] = some it) (by decide +kernel)
  refine ⟨h, w, it, hr, hit, hexptime, hnow, by decide, ?_⟩
  rw [wp_iff_not_wlp, wlp_itemGet, not_not]
  exact hlive

end Rejig
