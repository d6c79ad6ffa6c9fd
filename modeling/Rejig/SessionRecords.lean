import Rejig.SessionService

/-!
# Sessions, read off the records

`Server.sessions` computes the state of the sessions from the records of the server.  In the states
of `Serving` it is the state that the operations work on, as far as keys and sessions have the names
of the naming.
-/

namespace Rejig

open Prog Session Option

variable {h : Hold}

namespace Server

/-- The pending version of a key. -/
def version (s : Server) (key : Bytes) : Option Item := s.live (versionKey key)

/-- The entries of the list in a record. -/
def entries (s : Server) (name : Bytes) : List Bytes :=
  ((s.live name).bind fun it => trigKeylistEntries it.data).getD []

/-- The sessions that share a key. -/
def readers (s : Server) (key : Bytes) : List Bytes :=
  if (s.live (coLeaseKey key)).any (·.hasCLease) then s.entries (coLeaseKey key) else []

/-- Whether a session is there and has not been aborted. -/
def alive (s : Server) (sid : Bytes) : Bool := (s.live sid).any (·.sessStatus ≠ .abort)

/-- The lease of a key. -/
def lease (s : Server) (key : Bytes) : Option Item := s.live (leaseKey key)

/-- The sessions that the session lease of a key names. -/
def holders (s : Server) (key : Bytes) : List Bytes := s.entries (coLeaseKey key)

/-- Whether some session may write a key. -/
def exclusive (s : Server) (key : Bytes) : Bool := (s.live (coLeaseKey key)).any (·.hasOLease)

end Server

/-- What the flag of a session lease says. -/
def CoFlag.kind : CoFlag → Kind
  | .oLeaseInv => .invalidate
  | .oLeaseRef => .refresh
  | _ => .shared

/-- The state of the sessions. -/
def Server.sessions (s : Server) : State where
  sess sid := (s.live sid).map fun it => ⟨it.sessStatus = .abort, (s.entries sid).toFinset⟩
  cell k :=
    { hold := (s.live (coLeaseKey k)).map fun it => ⟨it.co.kind, (s.holders k).toFinset⟩
      lease := s.lease k
      version := s.version k
      value := s.live k }

@[simp] theorem Session.Kind.kind_flag (kind : Kind) : kind.flag.kind = kind := by
  cases kind <;> rfl

/-- A session lease on the key names the session. -/
def Session.Cell.Lists (c : Cell) (u : Bytes) : Prop := ∃ h, c.hold = some h ∧ u ∈ h.holders

section Records

variable {c : Settings} {N : Naming} {s : Server} {a : State} {key sid u : Bytes}

variable (hs : Serving c N s a)

include hs

theorem Serving.version (hkey : N.Key key) : s.version key = (a.cell key).version := by
  obtain ⟨-, t, v, hserves⟩ := hs
  rw [Server.version, hserves.sees.live]
  exact (hserves.repr.cell key hkey).version

/-- The keys in the list of a session. -/
theorem Serving.key_of_mem (hsid : N.Sid sid) (hkey : key ∈ a.keys sid) : N.Key key := by
  obtain ⟨-, t, v, hserves⟩ := hs
  rw [State.keys] at hkey
  rcases hserves.repr.sess_cases hsid with ⟨-, hsess⟩ | ⟨it, q, -, hq, hof⟩
  · rw [hsess] at hkey
    cases hkey
  · rw [hq] at hkey
    exact hof.keys key hkey

/-- The sessions that hold a key. -/
theorem Serving.sid_of_mem (hkey : N.Key key) (hhold : (a.cell key).hold = some h)
    (hu : u ∈ h.holders) : N.Sid u := by
  obtain ⟨-, t, v, hserves⟩ := hs
  rcases hserves.repr.hold_cases hkey with ⟨-, hnone⟩ | ⟨it, h', -, hhold', hof⟩
  · rw [hhold] at hnone
    cases hnone
  · rw [hhold] at hhold'
    cases hhold'
    exact hof.sids u hu

theorem Serving.alive (hsid : N.Sid sid) : s.alive sid = true ↔ ∃ q, a.sess sid = some q ∧
      q.aborted = false := by
  obtain ⟨-, t, v, hserves⟩ := hs
  rw [Server.alive, hserves.sees.live]
  rcases hserves.repr.sess_cases hsid with ⟨hnone, hsess⟩ | ⟨it, q, hit, hq, hof⟩
  · simp [hnone, hsess]
  · have hstatus := hof.sessStatus_eq_iff
    rw [hit, hq, any_some, decide_eq_true_eq, ne_eq, hstatus]
    simp

theorem Serving.mem_entries (hsid : N.Sid sid) : key ∈ s.entries sid ↔ key ∈ a.keys sid := by
  obtain ⟨-, t, v, hserves⟩ := hs
  rw [Server.entries, hserves.sees.live, State.keys]
  rcases hserves.repr.sess_cases hsid with ⟨hnone, hsess⟩ | ⟨it, q, hit, hq, hof⟩
  · rw [hnone, hsess]
    simp
  · obtain ⟨ks, henc, hks⟩ := hof.lists
    rw [hit, hq, bind_some, henc.entries, getD_some, elim_some, ← hks, List.mem_toFinset]

section

variable (hkey : N.Key key)

include hkey

theorem Serving.mem_readers :
    u ∈ s.readers key ↔ ∃ h, (a.cell key).hold = some h ∧ h.kind = .shared ∧ u ∈ h.holders := by
  obtain ⟨-, t, v, hserves⟩ := hs
  rw [Server.readers, Server.entries, hserves.sees.live]
  rcases hserves.repr.hold_cases hkey with ⟨hnone, hhold⟩ | ⟨it, h, hit, hhold, hof⟩
  · simp [hnone, hhold]
  · obtain ⟨ks, henc, hks⟩ := hof.lists
    rw [hit, any_some, hof.hasCLease, bind_some, henc.entries, getD_some, hhold]
    by_cases hkind : h.kind = .shared
    · simp [hkind, ← hks]
    · simp [hkind]

theorem Serving.lease : s.lease key = (a.cell key).lease := by
  obtain ⟨-, t, v, hserves⟩ := hs
  rw [Server.lease, hserves.sees.live]
  exact (hserves.repr.cell key hkey).lease

theorem Serving.value : s.live key = (a.cell key).value := by
  obtain ⟨-, t, v, hserves⟩ := hs
  rw [hserves.sees.live]
  exact (hserves.repr.cell key hkey).value

theorem Serving.mem_holders : u ∈ s.holders key ↔ (a.cell key).Lists u := by
  obtain ⟨-, t, v, hserves⟩ := hs
  rw [Server.holders, Server.entries, hserves.sees.live, Cell.Lists]
  rcases hserves.repr.hold_cases hkey with ⟨hnone, hhold⟩ | ⟨it, h, hit, hhold, hof⟩
  · simp [hnone, hhold]
  · obtain ⟨ks, henc, hks⟩ := hof.lists
    rw [hit, bind_some, henc.entries, getD_some, hhold]
    simp [← hks]

theorem Serving.exclusive (hhold : (a.cell key).hold = some h) (hkind : h.kind ≠ .shared) :
    s.exclusive key = true := by
  obtain ⟨-, t, v, hserves⟩ := hs
  rw [Server.exclusive, hserves.sees.live]
  rcases hserves.repr.hold_cases hkey with ⟨-, hnone⟩ | ⟨it, h', hit, hhold', hof⟩
  · rw [hhold] at hnone
    cases hnone
  · rw [hhold] at hhold'
    cases hhold'
    rw [hit, any_some, hof.hasOLease]
    exact decide_eq_true hkind

/-- A key with a session lease is held, and may be written by a holder if the lease is exclusive. -/
theorem Serving.exists_hold (h : (s.live (coLeaseKey key)).isSome = true) :
    ∃ hold, (a.cell key).hold = some hold ∧ (s.exclusive key = true → hold.kind ≠ .shared) := by
  obtain ⟨-, t, v, hserves⟩ := hs
  rw [hserves.sees.live] at h
  rcases hserves.repr.hold_cases hkey with ⟨hnone, -⟩ | ⟨it, hold, hit, hhold, hof⟩
  · rw [hnone] at h
    cases h
  · refine ⟨hold, hhold, fun hexclusive => ?_⟩
    rw [Server.exclusive, hserves.sees.live, hit, any_some, hof.hasOLease] at hexclusive
    exact of_decide_eq_true hexclusive

end

/-- The session that the operations work on is the one in the records. -/
theorem Serving.sess_eq (hsid : N.Sid sid) : s.sessions.sess sid = a.sess sid := by
  obtain ⟨-, t, v, hserves⟩ := hs
  simp only [Server.sessions, Server.entries, hserves.sees.live]
  rcases hserves.repr.sess_cases hsid with ⟨hnone, hsess⟩ | ⟨it, q, hit, hq, hof⟩
  · rw [hnone, hsess, map_none]
  · obtain ⟨ks, henc, hks⟩ := hof.lists
    have hstatus : decide (it.sessStatus = .abort) = q.aborted := by
      rw [Bool.eq_iff_iff, decide_eq_true_eq]
      exact hof.sessStatus_eq_iff
    rw [hit, hq, map_some, bind_some, henc.entries, getD_some, hks, hstatus]

/-- The key that the operations work on is the one in the records. -/
theorem Serving.cell_eq (hkey : N.Key key) : s.sessions.cell key = a.cell key := by
  have hhold : (s.sessions.cell key).hold = (a.cell key).hold := by
    obtain ⟨-, t, v, hserves⟩ := hs
    simp only [Server.sessions, Server.holders, Server.entries, hserves.sees.live]
    rcases hserves.repr.hold_cases hkey with ⟨hnone, hhold⟩ | ⟨it, h, hit, hhold, hof⟩
    · rw [hnone, hhold, map_none]
    · obtain ⟨ks, henc, hks⟩ := hof.lists
      rw [hit, hhold, map_some, bind_some, henc.entries, getD_some, hks, hof.flag, Kind.kind_flag]
  calc s.sessions.cell key
    _ = ⟨(s.sessions.cell key).hold, s.lease key, s.version key, s.live key⟩ := rfl
    _ = a.cell key := by rw [hhold, hs.lease hkey, hs.version hkey, hs.value hkey]

/-- The state that the records show is one that the operations work on. -/
theorem Serving.sessions : Serving c N s s.sessions := by
  have hsess : ∀ sid, N.Sid sid → s.sessions.sess sid = a.sess sid := fun sid hsid =>
    hs.sess_eq hsid
  have hcell : ∀ k, N.Key k → s.sessions.cell k = a.cell k := fun k hk => hs.cell_eq hk
  obtain ⟨hflush, t, v, hsees, hrepr⟩ := hs
  refine ⟨hflush, t, v, hsees, ?_⟩
  exact
    { sess := fun sid hsid => hsess sid hsid ▸ hrepr.sess sid hsid
      cell := fun k hk => hcell k hk ▸ hrepr.cell k hk
      addr_inj := hrepr.addr_inj
      addr_lt := hrepr.addr_lt }

end Records

end Rejig
