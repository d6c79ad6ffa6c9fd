import Rejig.Exec

/-!
# What an operation may do to the table

A `Perm` says which items an operation may drop, replace and install, and `Evolve P s s'` that the
table went from `s` to `s'` by changes that `P` permits, in some order and any number of them.  Two
changes need no permission.  An item may *lapse*: it is reaped once it is dead, and while memory is
short it is evicted unless it is pinned.  And the time of the last access may change.

Every operation is walked through once, to find the permission it keeps to.  A property of the items
under one name is then an invariant of the operation as soon as no permitted change destroys it, and
the program of the operation is not looked at again.
-/

namespace Rejig

open Prog Relation Server Option

variable {n : Bytes}

/-- What an operation may do to the items under each name. -/
structure Perm where
  /-- Items that may be unlinked. -/
  drop : Bytes → Item → Prop
  /-- Items that may take the place of an item. -/
  edit : Bytes → Item → Item → Prop
  /-- Items that may be linked where there is none. -/
  install : Bytes → Item → Prop

namespace Perm

/-- The permission to do nothing. -/
def none : Perm := ⟨fun _ _ => False, fun _ _ _ => False, fun _ _ => False⟩

/-- A permission is wider than another if it permits what the other does. -/
instance instLE : LE Perm where
  le P P' := (∀ n it, P.drop n it → P'.drop n it) ∧
    (∀ n it it', P.edit n it it' → P'.edit n it it') ∧ ∀ n it, P.install n it → P'.install n it

/-- One change of what is under a name, where the items with `lapses` may go at any time. -/
inductive Change (P : Perm) (lapses : Item → Prop) (n : Bytes) :
    Option Item → Option Item → Prop
  | lapse {it : Item} : lapses it → Change P lapses n (some it) .none
  | touch {it : Item} (now : Nat) : Change P lapses n (some it) (some { it with atime := now })
  | drop {it : Item} : P.drop n it → Change P lapses n (some it) .none
  | edit {it it' : Item} : P.edit n it it' → Change P lapses n (some it) (some it')
  | install {it : Item} : P.install n it → Change P lapses n .none (some it)

theorem Change.mono {P P' : Perm} {lapses lapses' : Item → Prop} {o o' : Option Item}
    (h : P.Change lapses n o o') (hl : ∀ it, lapses it → lapses' it)
    (hd : ∀ it, P.drop n it → P'.drop n it) (he : ∀ it it', P.edit n it it' → P'.edit n it it')
    (hi : ∀ it, P.install n it → P'.install n it) :
    P'.Change lapses' n o o' := by
  cases h with
  | lapse h => exact .lapse (hl _ h)
  | touch now => exact .touch now
  | drop h => exact .drop (hd _ h)
  | edit h => exact .edit (he _ _ h)
  | install h => exact .install (hi _ h)

end Perm

/-- The items that may go without being asked for. -/
def Server.Lapses (s : Server) (it : Item) : Prop :=
  s.dead it = true ∨ it.pinned = false ∧ s.heap ≠ []

/-- The table went from `s` to `s'` by changes that `P` permits. -/
structure Evolve (P : Perm) (s s' : Server) : Prop where
  now : s'.now = s.now
  oldestLive : s'.oldestLive = s.oldestLive
  configurationNumber : s'.configurationNumber = s.configurationNumber
  leaseCurrentToken : s.leaseCurrentToken ≤ s'.leaseCurrentToken
  nextAddr : s.nextAddr ≤ s'.nextAddr
  heap : s.heap = [] → s'.heap = []
  slots : Slots.Evolves (P.Change s.Lapses) s.assoc s'.assoc

namespace Evolve

variable {P P' : Perm} {s s' s'' : Server} {c : Settings} {it : Item}

theorem refl (P : Perm) (s : Server) : Evolve P s s :=
  ⟨rfl, rfl, rfl, le_rfl, le_rfl, id, .refl _⟩

section

variable (h : Evolve P s s')

include h

theorem dead_eq : s'.dead = s.dead := by
  funext it
  rw [Server.dead, Server.dead, h.now, h.oldestLive]

theorem lapses (hl : s'.Lapses it) : s.Lapses it := by
  rcases hl with hd | ⟨hp, hheap⟩
  · exact .inl (h.dead_eq ▸ hd)
  · exact .inr ⟨hp, mt h.heap hheap⟩

theorem leaseExpiry_eq : s'.leaseExpiry c = s.leaseExpiry c := by
  rw [Server.leaseExpiry, Server.leaseExpiry, h.now]

theorem trans (h' : Evolve P s' s'') : Evolve P s s'' where
  now := h'.now.trans h.now
  oldestLive := h'.oldestLive.trans h.oldestLive
  configurationNumber := h'.configurationNumber.trans h.configurationNumber
  leaseCurrentToken := h.leaseCurrentToken.trans h'.leaseCurrentToken
  nextAddr := h.nextAddr.trans h'.nextAddr
  heap := h'.heap ∘ h.heap
  slots := h.slots.trans <| h'.slots.mono fun _ _ _ ho =>
    ho.mono (fun _ => h.lapses) (fun _ => id) (fun _ _ => id) fun _ => id

/-- A property of what is under a name that no permitted change destroys survives. -/
theorem invariant {I : Option Item → Prop} (hI : ∀ o o', P.Change s.Lapses n o o' → I o → I o')
    (h₀ : I (s.find n)) : I (s'.find n) :=
  h.slots.invariant hI h₀

end

/-! ## Primitive operations -/

section

variable (h : Evolve P s s')

include h

/-- A step that leaves the registers alone and changes every slot by at most a permitted change. -/
theorem step (hnow : s''.now = s'.now) (hold : s''.oldestLive = s'.oldestLive)
    (hcfg : s''.configurationNumber = s'.configurationNumber)
    (htok : s'.leaseCurrentToken ≤ s''.leaseCurrentToken) (haddr : s'.nextAddr ≤ s''.nextAddr)
    (hheap : s'.heap = [] → s''.heap = [])
    (hslots : ∀ n, s''.find n = s'.find n ∨ P.Change s'.Lapses n (s'.find n) (s''.find n)) :
    Evolve P s s'' :=
  h.trans
    { now := hnow, oldestLive := hold, configurationNumber := hcfg, leaseCurrentToken := htok
      nextAddr := haddr, heap := hheap
      slots := fun n => (hslots n).elim (fun heq => by
        show ReflTransGen _ (s'.find n) (s''.find n)
        rw [heq]) .single }

theorem reap (key : Bytes) : Evolve P s (s'.reap key) := by
  refine h.step rfl rfl rfl le_rfl le_rfl id fun n => ?_
  rw [find_reap]
  split
  · cases hn : s'.find n with
    | none => exact Or.inl (by simp [Server.live, hn])
    | some it =>
      cases hd : s'.dead it with
      | false => exact Or.inl (by simp [Server.live, hn, hd, filter_some])
      | true =>
        refine Or.inr ?_
        rw [Server.live, hn, filter_some, hd]
        exact .lapse (.inl hd)
  · exact Or.inl rfl

theorem unlink (it : Item) (hd : ∀ it', s'.find it.key = some it' → it'.addr = it.addr →
      P.drop it.key it') :
    Evolve P s (s'.unlink it) := by
  refine h.step rfl rfl rfl le_rfl le_rfl id fun n => ?_
  rw [find_unlink]
  split
  · next hn =>
    subst hn
    cases hn : s'.find it.key with
    | none => exact Or.inl rfl
    | some it' =>
      by_cases ha : it'.addr = it.addr
      · refine Or.inr ?_
        rw [filter_some, if_neg (by simp [ha])]
        exact .drop (hd it' hn ha)
      · exact Or.inl (by simp [ha, filter_some])
  · exact Or.inl rfl

/-- Unlinking the item that was found. -/
theorem unlink_found (hf : s'.find it.key = some it) (hd : P.drop it.key it) :
    Evolve P s (s'.unlink it) :=
  h.unlink it fun it' hf' _ => by
    rw [hf] at hf'
    cases hf'
    exact hd

theorem link (he : ∀ o, s'.live it.key = some o → P.edit it.key o (s'.stamp c it))
    (hi : s'.live it.key = none → P.install it.key (s'.stamp c it)) :
    Evolve P s (s'.link c it) := by
  rw [← link_reap]
  refine (h.reap it.key).step rfl rfl rfl le_rfl le_rfl id fun n => ?_
  rw [find_link]
  split
  · next hn =>
    subst hn
    rw [find_reap_self]
    refine Or.inr ?_
    cases hl : s'.live it.key with
    | none => exact .install (hi hl)
    | some o => exact .edit (he o hl)
  · exact Or.inl rfl

theorem write {f : Item → Item} (hf : ∀ it', (f it').key = it'.key)
    (he : ∀ it', s'.find it.key = some it' → it'.addr = it.addr →
      P.Change s'.Lapses it.key (some it') (some (f it'))) :
    Evolve P s (s'.write it f) := by
  refine h.step rfl rfl rfl le_rfl le_rfl id fun n => ?_
  rw [find_write _ _ _ hf]
  split
  · next hn =>
    subst hn
    cases hn : s'.find it.key with
    | none => exact Or.inl rfl
    | some it' =>
      by_cases ha : it'.addr = it.addr
      · rw [map_some, if_pos ha]
        exact Or.inr (he it' hn ha)
      · exact Or.inl (by simp [ha])
  · exact Or.inl rfl

theorem allocate : Evolve P s s'.allocate := by
  refine h.step rfl rfl rfl le_rfl ?_ (fun hheap => ?_) fun n => ?_
  · rw [Server.allocate]
    dsimp only
    split <;> omega
  · rw [allocate_heap, hheap, List.tail_nil]
  · rcases s'.find_allocate_eq_or n with heq | ⟨it, hn, hp, hnone⟩
    · exact Or.inl heq
    · rw [hnone, hn]
      refine Or.inr (.lapse (.inr ⟨hp, fun hheap => ?_⟩))
      rw [find_allocate_of_heap_nil _ _ hheap, hn] at hnone
      cases hnone

theorem draw : Evolve P s s'.draw :=
  h.step rfl rfl rfl (Nat.le_succ _) le_rfl id fun _ => Or.inl rfl

end

end Evolve

end Rejig
