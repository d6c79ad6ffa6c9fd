import Rejig.Balance
import Rejig.Lib.Transition
import Mathlib.Data.List.Dedup

/-!
# The coordinator

`ConfigurationManagement` prepares the configurations that the coordinator will go through, and
`CacheStateSimulator` goes through them: a loop looks at the clock, and when the time of an update
has come it tells every cache server the number of the next configuration, waits for all of them,
and makes that configuration the current one.  Clients ask for the current configuration at any
time, in two reads of which the loop may come between.

A server that does not acknowledge its number is not waited for again: the loop only prints the
exception. And nothing keeps the loop from moving past the last configuration.
`published_after_acknowledged` is what is left of publishing after installing: it needs every update
to be acknowledged.
-/

namespace Rejig

open List Function

variable {c : AssignmentConfiguration} {loop : LoopState} {n : Nat} {newConfigId : Int}
  {server : String}

/-! ## The configurations -/

/-- Whether a server has fragments whose entries are being moved. -/
inductive ServerState where
  | normal
  | migration
deriving DecidableEq, Repr

/-- Where the fragments are. -/
structure AssignmentConfiguration where
  configNumber : Int
  fragments : List Fragment
  serverState : HashMap String ServerState

/-- `ConfigurationManagement.from`. -/
def ServerState.ofFragment : FragmentState → ServerState
  | .migrate => .migration
  | .normal => .normal

/-- The loops of the builders go through the previous fragments, and take the new one at the same
place. -/
def pairFragments (pair : Nat → Fragment → Fragment → Fragment) :
    Nat → List Fragment → List Fragment → Except JavaException (List Fragment)
  | _, [], _ => return []
  | _, _ :: _, [] => throw .indexOutOfBounds
  | i, prevFrag :: prevFragments, newFrag :: newFragments => do
    let rest ← pairFragments pair (i + 1) prevFragments newFragments
    return pair i prevFrag newFrag :: rest

/-- A fragment that moves remembers where it comes from, one that stays is copied over. -/
def nextFragment (newConfigId : Int) (i : Nat) (prevFrag newFrag : Fragment) : Fragment :=
  if prevFrag.physicalServer = newFrag.physicalServer then
    { prevFrag with fragmentId := i }
  else
    { newFrag with
      migrateServer := prevFrag.physicalServer
      fragmentCfgId :=
        if prevFrag.nextFragmentCfgId ≠ -1 then prevFrag.nextFragmentCfgId else newConfigId
      prevFragmentCfgId := prevFrag.fragmentCfgId
      nextFragmentCfgId := -1
      state := .migrate
      fragmentId := i }

/-- A fragment of a configuration without migration. -/
def nextNormalFragment (newConfigId : Int) (i : Nat) (prevFrag newFrag : Fragment) : Fragment :=
  { newFrag with
    fragmentCfgId :=
      if prevFrag.physicalServer = newFrag.physicalServer then
        prevFrag.fragmentCfgId else newConfigId
    prevFragmentCfgId := -1
    nextFragmentCfgId := -1
    state := .normal
    fragmentId := i }

/-- A server is migrating if one of its fragments is. -/
def noteServerState (m : HashMap String ServerState) (frag : Fragment) :
    HashMap String ServerState :=
  let state := ServerState.ofFragment frag.state
  match m.get frag.physicalServer with
  | none => m.put frag.physicalServer state
  | some _ => if state = .migration then m.put frag.physicalServer state else m

/-- `ConfigurationManagement.buildNextConfig` and `buildNextNormalConfig`, which differ in what they
make of a pair of fragments.  New fragments beyond the previous ones are kept as they are. -/
def buildNext (pair : Int → Nat → Fragment → Fragment → Fragment)
    (prevFragments newFragments : List Fragment) (newConfigId : Int) :
    Except JavaException AssignmentConfiguration := do
  let paired ← pairFragments (pair newConfigId) 0 prevFragments newFragments
  return ⟨newConfigId, paired ++ newFragments.drop prevFragments.length,
    paired.foldl noteServerState .empty⟩

/-- `ConfigurationManagement.buildNextConfig`. -/
def buildNextConfig := buildNext nextFragment

/-- `ConfigurationManagement.buildNextNormalConfig`. -/
def buildNextNormalConfig := buildNext nextNormalFragment

/-- Configurations are numbered by their places in the list. -/
def Numbered (configurations : List AssignmentConfiguration) : Prop :=
  ∀ (i : Nat) (c : AssignmentConfiguration), configurations[i]? = some c → c.configNumber = i

theorem numbered_pair {c' : AssignmentConfiguration} (h : c.configNumber = 0)
    (h' : c'.configNumber = 1) :
    Numbered [c, c'] := by
  rintro (_ | _ | i) d hi
  · cases hi
    exact h
  · cases hi
    exact h'
  · cases hi

/-! ## The next configuration -/

section Next

variable {prevFragments newFragments : List Fragment}

/-- What a server is marked as: nothing if no fragment is placed on it, migrating if one of its
fragments is. -/
def serverMark (fragments : List Fragment) (server : String) : Option ServerState :=
  if ∃ frag ∈ fragments, frag.physicalServer = server ∧ frag.state = .migrate then some .migration
  else if ∃ frag ∈ fragments, frag.physicalServer = server then some .normal
  else none

theorem get_noteServerState {m : HashMap String ServerState} {fragments : List Fragment}
    (hm : ∀ server, m.get server = serverMark fragments server) (frag : Fragment)
    (server : String) :
    (noteServerState m frag).get server = serverMark (fragments ++ [frag]) server := by
  have hput : ∀ state, server ≠ frag.physicalServer → (m.put frag.physicalServer state).get server =
    m.get server :=
    fun state => m.get_put_of_ne state
  simp only [noteServerState]
  by_cases heq : server = frag.physicalServer
  · subst heq
    have hmark : serverMark (fragments ++ [frag]) frag.physicalServer =
        if (∃ f ∈ fragments, f.physicalServer = frag.physicalServer ∧ f.state = .migrate) ∨
        frag.state = .migrate
        then some .migration else some .normal := by
      simp [serverMark, or_and_right, exists_or]
    rw [hmark, hm, serverMark]
    -- the marks only rise: a new server takes any mark, one that is marked only a migration
    by_cases hmigrate : ∃ f ∈ fragments, f.physicalServer = frag.physicalServer ∧ f.state = .migrate
    · cases hstate : frag.state <;> simp [hmigrate, ServerState.ofFragment, hm, serverMark]
    · by_cases hseen : ∃ f ∈ fragments, f.physicalServer = frag.physicalServer
      · cases hstate : frag.state <;> simp [hmigrate, hseen, ServerState.ofFragment, hm, serverMark]
      · cases hstate : frag.state <;> simp [hmigrate, hseen, ServerState.ofFragment]
  · have hmark : serverMark (fragments ++ [frag]) server = serverMark fragments server := by
      simp [serverMark, or_and_right, exists_or, Ne.symm heq]
    rw [hmark, ← hm]
    split
    · exact hput _ heq
    · split
      · exact hput _ heq
      · rfl

/-- The marks of the servers, fragment by fragment. -/
theorem get_foldl_noteServerState (fragments : List Fragment) (server : String) :
    (fragments.foldl noteServerState .empty).get server = serverMark fragments server := by
  induction fragments using List.reverseRecOn generalizing server with
  | nil => simp [HashMap.get_eq_none_iff, serverMark]
  | append_singleton fragments frag ih =>
    rw [foldl_append]
    exact get_noteServerState ih frag server

theorem exists_pairFragments (pair : Nat → Fragment → Fragment → Fragment) (k : Nat)
    (hlength : newFragments.length = prevFragments.length) :
    ∃ paired, pairFragments pair k prevFragments newFragments = .ok paired ∧
      paired.length = prevFragments.length ∧ ∀ i prevFrag newFrag, prevFragments[i]? =
      some prevFrag →
        newFragments[i]? = some newFrag → paired[i]? = some (pair (k + i) prevFrag newFrag) := by
  induction prevFragments generalizing k newFragments with
  | nil => exact ⟨[], rfl, rfl, by simp⟩
  | cons prevFrag prevFragments ih =>
    obtain ⟨newFrag, newFragments, rfl⟩ := exists_cons_of_length_eq_add_one hlength
    obtain ⟨paired, hpaired, hsize, hget⟩ := ih (k + 1) (Nat.succ.inj hlength)
    refine ⟨pair k prevFrag newFrag :: paired, by
      simp only [pairFragments, hpaired]; rfl, by simp [hsize], ?_⟩
    rintro (_ | i) p n hp hn
    · cases hp
      cases hn
      rfl
    · rw [List.getElem?_cons_succ, hget i p n hp hn, Nat.add_right_comm, Nat.add_assoc]

/-- What the loop of a builder makes of placements for all the fragments. -/
theorem exists_buildNext (pair : Int → Nat → Fragment → Fragment → Fragment) (newConfigId : Int)
    (hlength : newFragments.length = prevFragments.length) :
    ∃ c, buildNext pair prevFragments newFragments newConfigId = .ok c ∧
    c.configNumber = newConfigId ∧
      c.fragments.length = prevFragments.length ∧
      (∀ i prevFrag newFrag, prevFragments[i]? = some prevFrag → newFragments[i]? = some newFrag →
        c.fragments[i]? = some (pair newConfigId i prevFrag newFrag)) ∧
      ∀ server, c.serverState.get server = serverMark c.fragments server := by
  obtain ⟨paired, hpaired, hsize, hget⟩ := exists_pairFragments (pair newConfigId) 0 hlength
  have hdrop : paired ++ newFragments.drop prevFragments.length = paired := by simp [← hlength]
  refine ⟨⟨newConfigId, paired, paired.foldl noteServerState .empty⟩, ?_, rfl, hsize, ?_,
    get_foldl_noteServerState paired⟩
  · simp only [buildNext, hpaired, bind, Except.bind, hdrop]
    rfl
  · simpa using hget

/-- How a fragment follows its predecessor on the server it is placed on. -/
structure Fragment.Follows (frag : Fragment) (newConfigId : Int) (i : Nat)
    (prevFrag newFrag : Fragment) : Prop where
  fragmentId : frag.fragmentId = i
  physicalServer : frag.physicalServer = newFrag.physicalServer
  le_fragmentCfgId : prevFrag.fragmentCfgId ≤ frag.fragmentCfgId
  fragmentCfgId_ne_iff : frag.fragmentCfgId ≠ prevFrag.fragmentCfgId ↔
    newFrag.physicalServer ≠ prevFrag.physicalServer
  moved : newFrag.physicalServer ≠ prevFrag.physicalServer →
    frag.migrateServer = prevFrag.physicalServer ∧
    frag.prevFragmentCfgId = prevFrag.fragmentCfgId ∧ frag.fragmentCfgId = newConfigId ∧
    frag.state = .migrate

theorem follows_nextFragment {prevFrag : Fragment} (i : Nat) (newFrag : Fragment)
    (hnext : prevFrag.nextFragmentCfgId = -1) (hnew : prevFrag.fragmentCfgId < newConfigId) :
    (nextFragment newConfigId i prevFrag newFrag).Follows newConfigId i prevFrag newFrag := by
  unfold nextFragment
  by_cases hstay : prevFrag.physicalServer = newFrag.physicalServer
  · rw [if_pos hstay]
    exact ⟨rfl, hstay, le_rfl, by simp [hstay], fun hmove => absurd hstay.symm hmove⟩
  · rw [if_neg hstay, if_neg (by simp [hnext])]
    exact ⟨rfl, rfl, hnew.le, by simp [hnew.ne', Ne.symm hstay], fun _ => ⟨rfl, rfl, rfl, rfl⟩⟩

/-- `buildNextConfig` and `buildNextNormalConfig` place every fragment as they are told, and give it
the new number exactly if it moves.  With migration, the fragments that move and the servers they
move to are marked. -/
theorem buildNextConfig_follows (prevFragments newFragments : List Fragment) (newConfigId : Int)
    (hlength : newFragments.length = prevFragments.length)
    (hnext : ∀ prevFrag ∈ prevFragments, prevFrag.nextFragmentCfgId = -1)
    (hnew : ∀ prevFrag ∈ prevFragments, prevFrag.fragmentCfgId < newConfigId) :
    ∃ c c', buildNextConfig prevFragments newFragments newConfigId = .ok c ∧
      buildNextNormalConfig prevFragments newFragments newConfigId = .ok c' ∧
      c.configNumber = newConfigId ∧ c'.configNumber = newConfigId ∧
      c.fragments.length = prevFragments.length ∧ c'.fragments.length = prevFragments.length ∧
      (∀ (i : Nat) (prevFrag newFrag : Fragment), prevFragments[i]? = some prevFrag →
        newFragments[i]? = some newFrag →
        ∃ frag frag' : Fragment, c.fragments[i]? = some frag ∧ c'.fragments[i]? = some frag' ∧
          frag.Follows newConfigId i prevFrag newFrag ∧ frag'.fragmentId = i ∧
          frag'.physicalServer = newFrag.physicalServer ∧
          frag'.fragmentCfgId = frag.fragmentCfgId) ∧
      (∀ server, c.serverState.get server = serverMark c.fragments server) ∧
      (∀ frag' ∈ c'.fragments, frag'.state = .normal) ∧
      ∀ server, c'.serverState.get server = serverMark c'.fragments server := by
  obtain ⟨c, hc, hnumber, hsize, hget, hstate⟩ := exists_buildNext nextFragment newConfigId hlength
  obtain ⟨c', hc', hnumber', hsize', hget', hstate'⟩ :=
    exists_buildNext nextNormalFragment newConfigId hlength
  refine ⟨c, c', hc, hc', hnumber, hnumber', hsize, hsize', fun i prevFrag newFrag hp hn => ?_,
    hstate, ?_, hstate'⟩
  · have hmem := mem_of_getElem? hp
    refine ⟨_, _, hget i _ _ hp hn, hget' i _ _ hp hn,
      follows_nextFragment i newFrag (hnext _ hmem) (hnew _ hmem), rfl, rfl, ?_⟩
    by_cases hstay : prevFrag.physicalServer = newFrag.physicalServer
    · simp [nextFragment, nextNormalFragment, hstay]
    · simp [nextFragment, nextNormalFragment, hstay, hnext _ hmem]
  · intro frag' hfrag'
    obtain ⟨i, hi, rfl⟩ := mem_iff_getElem.mp hfrag'
    have hp := List.getElem?_eq_getElem (hsize' ▸ hi)
    have hn := List.getElem?_eq_getElem (hlength ▸ hsize' ▸ hi)
    have hfrag := hget' i _ _ hp hn
    rw [List.getElem?_eq_getElem hi] at hfrag
    rw [Option.some.inj hfrag]
    rfl

/-- Of two fragments on one server, the second moves to a new one. -/
theorem buildNextConfig_follows_two :
    ∃ c, buildNextConfig [.initial 0 "h1", .initial 1 "h1"]
      [.initial 0 "h1", .initial 1 "h2"] 1 = .ok c ∧
      c.serverState.get "h1" = some .normal ∧ c.serverState.get "h2" = some .migration := by
  obtain ⟨c, c', hc, -, -, -, -, -, -, hstate, -⟩ := buildNextConfig_follows
    [.initial 0 "h1", .initial 1 "h1"] [.initial 0 "h1", .initial 1 "h2"] 1 rfl
      (by decide) (by decide)
  refine ⟨c, hc, ?_⟩
  cases hc
  rw [hstate, hstate]
  exact ⟨by decide, by decide⟩

end Next

/-! ## The loop and its readers -/

/-- What the coordinator is given: the servers it tells, the configurations and workloads it goes
through, and the times at which it moves on. -/
structure Plan (W : Type) where
  servers : List String
  configurations : List AssignmentConfiguration
  workloads : List W
  configurationUpdateTime : List Int
  loadUpdateTime : List Int
  /-- There is a first configuration. -/
  configurations_ne_nil : configurations ≠ []
  /-- There is a first workload. -/
  workloads_ne_nil : workloads ≠ []
  /-- The configurations are numbered. -/
  numbered : Numbered configurations

/-- Where the coordinator's thread is. -/
inductive LoopState where
  /-- In the constructor, which tells the servers one after the other that the number is 0. -/
  | starting (todo : List String)
  /-- Before it looks at the clock. -/
  | polling
  /-- Waiting for the servers it has told the next number. -/
  | updating (nextConfigNumber : Nat) (todo : List String)
deriving DecidableEq, Repr

/-- The state of the coordinator.  A request of a client that has read the configuration, and not
yet the workload, is in `reading`. -/
structure Coordinator where
  timeToUpdateConfig : List Int
  workloadTimeToUpdateConfig : List Int
  currentConfigNumber : Nat
  workloadConfigNumber : Nat
  loop : LoopState
  reading : Nat → Option AssignmentConfiguration

/-- What happens at the coordinator. -/
inductive CoordinatorEvent (W : Type) where
  /-- `updateServerConfigurationNumber` ends: the server has acknowledged the number, or the call
  has failed. -/
  | told (server : String) (number : Nat) (acknowledged : Bool)
  | ready
  | poll (currentSecond : Int)
  | incrementCfgId
  /-- The first read of `readConfig`. -/
  | getConfig (client : Nat)
  | respond (client : Nat) (configuration : AssignmentConfiguration) (workload : W)
  /-- An exception in `readConfig`. -/
  | fail (client : Nat) (e : JavaException)

/-- `TreeSet.lower`: the greatest time before this one. -/
def lower (times : List Int) (second : Int) : Option Int := (times.filter (· < second)).max?

namespace Coordinator

variable {W : Type}

/-- The coordinator before its constructor has told the servers. -/
def start (P : Plan W) : Coordinator where
  timeToUpdateConfig := P.configurationUpdateTime.dedup
  workloadTimeToUpdateConfig := P.loadUpdateTime.dedup
  currentConfigNumber := 0
  workloadConfigNumber := 0
  loop := .starting P.servers
  reading _ := none

/-- The loop moves to the next workload if it is time to. -/
def pollWorkload (s : Coordinator) (currentSecond : Int) : Coordinator :=
  match lower s.workloadTimeToUpdateConfig currentSecond with
  | none => s
  | some t =>
    { s with
      workloadTimeToUpdateConfig := s.workloadTimeToUpdateConfig.erase t
      workloadConfigNumber := s.workloadConfigNumber + 1 }

/-- The loop begins to move to the next configuration if it is time to. -/
def pollConfig (P : Plan W) (s : Coordinator) (currentSecond : Int) : Coordinator :=
  match lower s.timeToUpdateConfig currentSecond with
  | none => s
  | some t =>
    { s with
      timeToUpdateConfig := s.timeToUpdateConfig.erase t
      loop := .updating (s.currentConfigNumber + 1) P.servers.dedup }

/-- The steps of the coordinator's thread, of the tasks it waits for, and of the requests of
clients. -/
inductive Step (P : Plan W) : Coordinator → CoordinatorEvent W → Coordinator → Prop
  | start {s : Coordinator} {server : String} {todo : List String} (acknowledged : Bool) :
      s.loop = .starting (server :: todo) →
      Step P s (.told server 0 acknowledged) { s with loop := .starting todo }
  | ready {s : Coordinator} : s.loop = .starting [] → Step P s .ready { s with loop := .polling }
  | poll {s : Coordinator} (currentSecond : Int) : s.loop = .polling →
      Step P s (.poll currentSecond) ((s.pollWorkload currentSecond).pollConfig P currentSecond)
  | update {s : Coordinator} {n : Nat} {server : String} {todo : List String}
      (acknowledged : Bool) : s.loop = .updating n todo → server ∈ todo →
      Step P s (.told server n acknowledged) { s with loop := .updating n (todo.erase server) }
  | incrementCfgId {s : Coordinator} {n : Nat} : s.loop = .updating n [] →
      Step P s .incrementCfgId
        { s with currentConfigNumber := s.currentConfigNumber + 1, loop := .polling }
  | getConfig {s : Coordinator} {c : AssignmentConfiguration} (client : Nat) :
      (∀ todo, s.loop ≠ .starting todo) → P.configurations[s.currentConfigNumber]? = some c →
      Step P s (.getConfig client) { s with reading := update s.reading client (some c) }
  | getConfigFails {s : Coordinator} (client : Nat) :
      (∀ todo, s.loop ≠ .starting todo) → P.configurations[s.currentConfigNumber]? = none →
      Step P s (.fail client .indexOutOfBounds) s
  | respond {s : Coordinator} {c : AssignmentConfiguration} {w : W} (client : Nat) :
      s.reading client = some c → P.workloads[s.workloadConfigNumber]? = some w →
      Step P s (.respond client c w) { s with reading := update s.reading client none }
  | respondFails {s : Coordinator} {c : AssignmentConfiguration} (client : Nat) :
      s.reading client = some c → P.workloads[s.workloadConfigNumber]? = none →
      Step P s (.fail client .indexOutOfBounds)
        { s with reading := update s.reading client none }

/-- The coordinator as a transition system. -/
def system (P : Plan W) : System Coordinator (CoordinatorEvent W) where
  Init s := s = start P
  Step := Step P

end Coordinator

/-- Every update of a server is acknowledged. -/
def CoordinatorEvent.Acknowledged {W : Type} : CoordinatorEvent W → Prop
  | told _ _ acknowledged => acknowledged = true
  | _ => True

/-! ## Publishing after installing -/

section Publish

variable {W : Type} {P : Plan W} {h : List (Transition Coordinator (CoordinatorEvent W))}
  {s s' : Coordinator} {e : CoordinatorEvent W}

/-- The server has acknowledged this number or a later one. -/
def AcknowledgedIn (h : List (Transition Coordinator (CoordinatorEvent W))) (server : String)
    (n : Nat) : Prop :=
  ∃ t ∈ h, ∃ m, n ≤ m ∧ t.label = .told server m true

theorem AcknowledgedIn.cons (ha : AcknowledgedIn h server n)
    (t : Transition Coordinator (CoordinatorEvent W)) :
    AcknowledgedIn (t :: h) server n := by
  obtain ⟨t', ht', hm⟩ := ha
  exact ⟨t', mem_cons_of_mem t ht', hm⟩

theorem acknowledgedIn_cons_told {t : Transition Coordinator (CoordinatorEvent W)}
    (ht : t.label = .told server n true) : AcknowledgedIn (t :: h) server n :=
  ⟨t, mem_cons_self, n, le_rfl, ht⟩

/-- The servers have acknowledged what the thread has waited for. -/
def Waited (P : Plan W) (h : List (Transition Coordinator (CoordinatorEvent W))) (current : Nat) :
    LoopState → Prop
  | .starting todo => current = 0 ∧ ∀ server ∈ P.servers, server ∈ todo ∨ AcknowledgedIn h server 0
  | .polling => ∀ server ∈ P.servers, AcknowledgedIn h server current
  | .updating n todo => n = current + 1 ∧ ∀ server ∈ P.servers,
      AcknowledgedIn h server current ∧ (server ∈ todo ∨ AcknowledgedIn h server n)

/-- How many of the times of a plan the thread has used up. -/
def LoopState.used : LoopState → Nat
  | .updating _ _ => 1
  | _ => 0

/-- What holds along a run in which every update is acknowledged. -/
structure Publishing (P : Plan W) (h : List (Transition Coordinator (CoordinatorEvent W)))
    (s : Coordinator) :
    Prop where
  waited : Waited P h s.currentConfigNumber s.loop
  reading : ∀ client c, s.reading client = some c → ∃ n : Nat, c.configNumber = n ∧
    P.configurations[n]? = some c ∧ ∀ server ∈ P.servers, AcknowledgedIn h server n
  room : s.currentConfigNumber + s.loop.used + s.timeToUpdateConfig.length ≤
    P.configurationUpdateTime.dedup.length
  workloadRoom : s.workloadConfigNumber + s.workloadTimeToUpdateConfig.length ≤
    P.loadUpdateTime.dedup.length

theorem lower_mem {times : List Int} {second t : Int} (h : lower times second = some t) :
    t ∈ times :=
  (mem_filter.mp (List.max?_mem h)).1

theorem Waited.cons {current : Nat} (hw : Waited P h current loop)
    (t : Transition Coordinator (CoordinatorEvent W)) :
    Waited P (t :: h) current loop := by
  cases loop with
  | starting todo => exact ⟨hw.1, fun server hs => (hw.2 server hs).imp_right (·.cons t)⟩
  | polling => exact fun server hs => (hw server hs).cons t
  | updating n todo =>
    exact ⟨hw.1, fun server hs => ⟨(hw.2 server hs).1.cons t,
      (hw.2 server hs).2.imp_right (·.cons t)⟩⟩

/-- Outside the constructor all servers have acknowledged the current number. -/
theorem Waited.current {current : Nat} (hw : Waited P h current loop)
    (hloop : ∀ todo, loop ≠ .starting todo) :
    ∀ server ∈ P.servers, AcknowledgedIn h server current := by
  cases loop with
  | starting todo => exact absurd rfl (hloop todo)
  | polling => exact hw
  | updating n todo => exact fun server hs => (hw.2 server hs).1

theorem publishing_start (P : Plan W) : Publishing P [] (.start P) where
  waited := ⟨rfl, fun _ hs => Or.inl hs⟩
  reading _ _ hc := by cases hc
  room := by simp [Coordinator.start, LoopState.used]
  workloadRoom := by simp [Coordinator.start]

section

variable (hp : Publishing P h s)

include hp

theorem Publishing.pollWorkload (second : Int) : Publishing P h (s.pollWorkload second) := by
  unfold Coordinator.pollWorkload
  split
  · exact hp
  next t ht =>
    refine ⟨hp.waited, hp.reading, hp.room, ?_⟩
    have hlength := length_erase_add_one (lower_mem ht)
    have hroom := hp.workloadRoom
    dsimp only
    omega

theorem Publishing.pollConfig (hloop : s.loop = .polling) (second : Int) :
    Publishing P h (s.pollConfig P second) := by
  unfold Coordinator.pollConfig
  split
  · exact hp
  next t ht =>
    have hwaited := hp.waited
    have hlength := length_erase_add_one (lower_mem ht)
    have hroom := hp.room
    rw [hloop] at hwaited hroom
    refine ⟨⟨rfl, fun server hs => ⟨hwaited server hs, Or.inl (mem_dedup.mpr hs)⟩⟩, hp.reading, ?_,
      hp.workloadRoom⟩
    simp only [LoopState.used] at hroom ⊢
    omega

theorem Publishing.cons (t : Transition Coordinator (CoordinatorEvent W)) :
    Publishing P (t :: h) s :=
  ⟨hp.waited.cons t, fun client c hc => (hp.reading client c hc).imp fun _ hread =>
      ⟨hread.1, hread.2.1, fun server hs => (hread.2.2 server hs).cons t⟩,
    hp.room, hp.workloadRoom⟩

/-- A request that ends does not read any more. -/
theorem Publishing.respond (client : Nat) :
    Publishing P h { s with reading := update s.reading client none } := by
  refine ⟨hp.waited, fun client' c hc => ?_, hp.room, hp.workloadRoom⟩
  dsimp only at hc
  by_cases heq : client' = client
  · rw [heq, update_self] at hc
    cases hc
  · rw [update_of_ne heq] at hc
    exact hp.reading client' c hc

/-- One step keeps what holds if the update it ends, if any, was acknowledged. -/
theorem Publishing.step (hstep : Coordinator.Step P s e s') (he : e.Acknowledged) :
    Publishing P (⟨s, e, s'⟩ :: h) s' := by
  have hp := hp.cons ⟨s, e, s'⟩
  have hlabel : (⟨s, e, s'⟩ : Transition Coordinator (CoordinatorEvent W)).label = e := rfl
  generalize (⟨s, e, s'⟩ : Transition Coordinator (CoordinatorEvent W)) = t at hp hlabel
  have hwaited := hp.waited
  have hroom := hp.room
  cases hstep with
  | start acknowledged hloop =>
    obtain rfl : acknowledged = true := he
    rw [hloop] at hwaited hroom
    refine ⟨⟨hwaited.1, fun server' hs => ?_⟩, hp.reading, hroom, hp.workloadRoom⟩
    rcases hwaited.2 server' hs with hmem | hack
    · rcases mem_cons.mp hmem with rfl | hmem
      · exact Or.inr (acknowledgedIn_cons_told hlabel)
      · exact Or.inl hmem
    · exact Or.inr hack
  | ready hloop =>
    rw [hloop] at hwaited hroom
    refine ⟨fun server hs => ?_, hp.reading, hroom, hp.workloadRoom⟩
    have hack := (hwaited.2 server hs).resolve_left (by simp)
    rwa [← hwaited.1] at hack
  | poll second hloop =>
    have hloop' : (s.pollWorkload second).loop = .polling := by
      unfold Coordinator.pollWorkload
      split <;> exact hloop
    exact (hp.pollWorkload second).pollConfig hloop' second
  | update acknowledged hloop hmem =>
    obtain rfl : acknowledged = true := he
    rw [hloop] at hwaited hroom
    refine ⟨⟨hwaited.1, fun server' hs => ⟨(hwaited.2 server' hs).1, ?_⟩⟩, hp.reading, hroom,
      hp.workloadRoom⟩
    rename_i n server todo
    by_cases heq : server' = server
    · exact Or.inr (heq ▸ acknowledgedIn_cons_told hlabel)
    · exact (hwaited.2 server' hs).2.imp_left (mem_erase_of_ne heq).mpr
  | incrementCfgId hloop =>
    rw [hloop] at hwaited hroom
    refine ⟨fun server hs => ?_, hp.reading, ?_, hp.workloadRoom⟩
    · have hack := (hwaited.2 server hs).2.resolve_left (by simp)
      rwa [hwaited.1] at hack
    · simpa [LoopState.used] using hroom
  | getConfig client hloop hc =>
    refine ⟨hwaited, fun client' c' hc' => ?_, hroom, hp.workloadRoom⟩
    dsimp only at hc'
    by_cases heq : client' = client
    · rw [heq, update_self] at hc'
      cases hc'
      exact ⟨_, P.numbered _ _ hc, hc, hwaited.current hloop⟩
    · rw [update_of_ne heq] at hc'
      exact hp.reading client' c' hc'
  | getConfigFails client hloop hc => exact hp
  | respond client hc hw => exact hp.respond client
  | respondFails client hc hw => exact hp.respond client

end

/-- A run in which every update is acknowledged keeps it. -/
theorem publishing_of_run (hr : (Coordinator.system P).Run h s)
    (hack : ∀ t ∈ h, t.label.Acknowledged) :
    Publishing P h s := by
  induction hr with
  | init hs =>
    cases hs
    exact publishing_start P
  | step _ hstep ih =>
    obtain ⟨he, hack⟩ := forall_mem_cons.mp hack
    exact (ih hack).step hstep he

/-- While there are more configurations and workloads than times to move on, the current ones
exist. -/
theorem Publishing.current_exists (hp : Publishing P h s)
    (htimes : P.configurationUpdateTime.dedup.length < P.configurations.length)
    (hloads : P.loadUpdateTime.dedup.length < P.workloads.length) :
    s.currentConfigNumber < P.configurations.length ∧
    s.workloadConfigNumber < P.workloads.length := by
  have hroom := hp.room
  have hworkload := hp.workloadRoom
  constructor <;> omega

/-- In every run in which every update of a server is acknowledged, of a coordinator with more
configurations and workloads than times to move on, a client is told a configuration only after
every server has acknowledged its number or a later one, the current configuration and workload
always exist, and no request of a client fails. -/
theorem published_after_acknowledged (P : Plan W)
    (htimes : P.configurationUpdateTime.dedup.length < P.configurations.length)
    (hloads : P.loadUpdateTime.dedup.length < P.workloads.length)
    (hr : (Coordinator.system P).Run h s) (hack : ∀ t ∈ h, t.label.Acknowledged) :
    s.currentConfigNumber < P.configurations.length ∧ s.workloadConfigNumber < P.workloads.length ∧
      (∀ t ∈ h, ∀ client e, t.label ≠ .fail client e) ∧
      ∀ newer t older client c w, h = newer ++ t :: older → t.label = .respond client c w →
        ∃ n : Nat, c.configNumber = (n : Int) ∧ P.configurations[n]? = some c ∧
          ∀ server ∈ P.servers, AcknowledgedIn older server n := by
  obtain ⟨hcurrent, hworkload⟩ := (publishing_of_run hr hack).current_exists htimes hloads
  -- Every suffix of the history is such a run too, so what holds at its end holds before each step.
  have hsuffix : ∀ {newer older t}, h = newer ++ t :: older →
      Publishing P older t.pre ∧ Coordinator.Step P t.pre t.label t.post := by
    rintro newer older t rfl
    obtain ⟨hr, hstep⟩ := hr.of_suffix
    exact ⟨publishing_of_run hr fun t' ht' => hack t' (by simp [ht']), hstep⟩
  refine ⟨hcurrent, hworkload, fun t ht client e hlabel => ?_,
    fun newer t older client c w heq hlabel => ?_⟩
  · obtain ⟨newer, older, heq⟩ := append_of_mem ht
    obtain ⟨hp, hstep⟩ := hsuffix heq
    obtain ⟨hcurrent, hworkload⟩ := hp.current_exists htimes hloads
    rw [hlabel] at hstep
    generalize t.post = post at hstep
    cases hstep with
    | getConfigFails _ _ hnone => exact absurd (List.getElem?_eq_none_iff.mp hnone) hcurrent.not_ge
    | respondFails _ _ hnone => exact absurd (List.getElem?_eq_none_iff.mp hnone) hworkload.not_ge
  · obtain ⟨hp, hstep⟩ := hsuffix heq
    rw [hlabel] at hstep
    generalize t.post = post at hstep
    cases hstep with
    | respond _ hc _ => exact hp.reading client c hc

/-- A server, a configuration and one more, and a time to move on. -/
def onePlan : Plan Unit where
  servers := ["h1"]
  configurations := [⟨0, [], .empty⟩, ⟨1, [], .empty⟩]
  workloads := [()]
  configurationUpdateTime := [0]
  loadUpdateTime := []
  configurations_ne_nil := by simp
  workloads_ne_nil := by simp
  numbered := numbered_pair rfl rfl

/-- The second configuration of the plan is asked for after the server has answered the update, or
has not. -/
theorem run_onePlan (acknowledged : Bool) : ∃ h s, (Coordinator.system onePlan).Run h s ∧
      h.map Transition.label = [.respond 0 ⟨1, [], .empty⟩ (), .getConfig 0, .incrementCfgId,
        .told "h1" 1 acknowledged, .poll 1, .ready, .told "h1" 0 true] := by
  refine ⟨_, _, .step (.step
    (.step (.step (.step (.step (.step (.init rfl) (.start true rfl)) (.ready rfl)) (.poll 1 rfl))
    (.update acknowledged rfl (by decide))) (.incrementCfgId rfl))
    (.getConfig 0 (by rintro todo ⟨⟩) rfl)) (.respond 0 rfl rfl), rfl⟩

/-- One update of one server, which acknowledges it. -/
theorem published_after_acknowledged_one :
    ∃ h s, (Coordinator.system onePlan).Run h s ∧
      ∃ newer t older, h = newer ++ t :: older ∧ t.label = .respond 0 ⟨1, [], .empty⟩ () ∧
        AcknowledgedIn older "h1" 1 := by
  obtain ⟨h, s, hr, hlabels⟩ := run_onePlan true
  have hack : ∀ t ∈ h, t.label.Acknowledged := by
    intro t ht
    have hmem := mem_map_of_mem (f := Transition.label) ht
    rw [hlabels] at hmem
    simp only [mem_cons, not_mem_nil, or_false] at hmem
    rcases hmem with heq | heq | heq | heq | heq | heq | heq <;> rw [heq] <;>
      first | exact trivial | rfl
  obtain ⟨t, older, rfl, hlabel, -⟩ := map_eq_cons_iff.mp hlabels
  obtain ⟨-, -, -, hpublished⟩ :=
    published_after_acknowledged onePlan (by decide) (by decide) hr hack
  obtain ⟨n, hn, -, hold⟩ := hpublished [] t older 0 ⟨1, [], .empty⟩ () rfl hlabel
  obtain rfl : n = 1 := (Int.ofNat.inj hn).symm
  exact ⟨_, s, hr, [], t, older, rfl, hlabel, hold "h1" (by decide)⟩

/-- The update of the only server fails, the coordinator moves on, and a client is told a
configuration that the server has not acknowledged. -/
theorem published_not_acknowledged :
    ∃ h s, (Coordinator.system onePlan).Run h s ∧
      ∃ newer t older, h = newer ++ t :: older ∧ t.label = .respond 0 ⟨1, [], .empty⟩ () ∧
        ¬ AcknowledgedIn older "h1" 1 := by
  obtain ⟨h, s, hr, hlabels⟩ := run_onePlan false
  obtain ⟨t, older, rfl, hlabel, hlabels⟩ := map_eq_cons_iff.mp hlabels
  refine ⟨_, s, hr, [], t, older, rfl, hlabel, ?_⟩
  rintro ⟨t', ht', m, hm, heq⟩
  have hmem := mem_map_of_mem (f := Transition.label) ht'
  rw [hlabels, heq] at hmem
  simp only [mem_cons, not_mem_nil, or_false, CoordinatorEvent.told.injEq, reduceCtorEq, true_and,
    and_false, false_or, and_true] at hmem
  omega

end Publish

end Rejig
