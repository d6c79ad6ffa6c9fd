import Rejig.Assignment
import Mathlib.Data.Rat.Floor

/-!
# Reassigning fragments by load

`ConfigurationAssignment.assignBalanceLoad` of the coordinator, with loads as exact rationals.  A
server with more than its share of the load gives fragments away, the servers below their share take
them until they reach it, and what is left then goes to the servers that were below their share, in
turn.

A fragment that is given away is always taken by a server that was not above its share (`Moving`).
The program therefore fails exactly if there is no such server among the current ones, and a
fragment is on a server that is no target exactly if it was there before and was not given away.
-/

namespace Rejig

variable {e : String × List Nat} {es : List (String × List Nat)} {m : ServerFragments}
  {ids : List Nat} {kept : List (Nat × String)} {rest : List (Nat × ℚ)} {target : String → Prop}
  {balanceLoad : ℚ} {f : Fragment} {server : String}

/-- What the first pass of `assignBalanceLoad` finds. -/
structure LoadSplit where
  newServerFragments : ServerFragments
  /-- The fragments that leave their server, each with its load. -/
  reassignFragIds : List (Nat × ℚ)
  underLoadServers : List String

/-- A server with more than its share of the load gives fragments away, the first ones first. -/
def splitServer (initLoadPerServer : HashMap String Nat) (balanceLoad : ℚ) (acc : LoadSplit)
    (e : String × List Nat) : Except JavaException LoadSplit :=
  match initLoadPerServer.get e.1 with
  | none => throw .nullPointer
  | some curLoad =>
    let loadPerFrag : ℚ := curLoad / e.2.length
    if balanceLoad < curLoad then
      let moveFrags := e.2.length - (balanceLoad / loadPerFrag).floor.toNat
      return {
        acc with
        reassignFragIds := acc.reassignFragIds ++ (e.2.take moveFrags).map (·, loadPerFrag)
        newServerFragments := acc.newServerFragments.put e.1 (e.2.drop moveFrags) }
    else
      return {
        acc with
        newServerFragments := acc.newServerFragments.put e.1 e.2
        underLoadServers := acc.underLoadServers ++ [e.1] }

/-- A server takes fragments while its load is below its share. -/
def topUp (balanceLoad : ℚ) : ℚ → List Nat → List (Nat × ℚ) → List Nat × List (Nat × ℚ)
  | _, frags, [] => (frags, [])
  | curLoad, frags, frag :: rest =>
    if curLoad < balanceLoad then topUp balanceLoad (curLoad + frag.2) (frags ++ [frag.1]) rest
    else (frags, frag :: rest)

/-- One step of the walk in which the servers take fragments. -/
def topUpServer (initLoadPerServer : HashMap String Nat) (balanceLoad : ℚ)
    (acc : ServerFragments × List (Nat × ℚ)) (server : String) :
    Except JavaException (ServerFragments × List (Nat × ℚ)) :=
  match initLoadPerServer.get server with
  | none => throw .nullPointer
  | some curLoad =>
    let filled := topUp balanceLoad curLoad ((acc.1.get server).getD []) acc.2
    return (acc.1.put server filled.1, filled.2)

/-- What is left goes to the servers that were below their share, in turn. -/
def roundRobin (underLoadServers : List String) :
    Nat → ServerFragments → List (Nat × ℚ) → Except JavaException ServerFragments
  | _, serverFragments, [] => return serverFragments
  | i, serverFragments, frag :: rest =>
    if underLoadServers.length = 0 then
      throw .arithmetic
    else
      match underLoadServers[i % underLoadServers.length]? with
      | none => throw .indexOutOfBounds
      | some server =>
        match serverFragments.get server with
        | none => throw .nullPointer
        | some frags =>
          roundRobin underLoadServers (i % underLoadServers.length + 1)
            (serverFragments.put server (frags ++ [frag.1])) rest

/-- `ConfigurationAssignment.assignBalanceLoad`. -/
def assignBalanceLoad (scan : Scan String) (originalFragments : List Fragment)
    (servers : List String) (initLoadPerServer : HashMap String Nat) :
    Except JavaException (List Fragment) := do
  let balanceLoad : ℚ := 100 / servers.length
  let serverFragments : ServerFragments :=
    originalFragments.foldl (fun acc frag => acc.add frag.physicalServer [frag.fragmentId]) .empty
  let split ← (scan.entries serverFragments).foldlM (splitServer initLoadPerServer balanceLoad)
    ⟨.empty, [], []⟩
  let filled ← (scan.order split.newServerFragments.keys).foldlM
    (topUpServer initLoadPerServer balanceLoad) (split.newServerFragments, split.reassignFragIds)
  let serverFragments ← roundRobin split.underLoadServers 0 filled.1 filled.2
  return newFragments scan serverFragments

/-! ## The pass that splits -/

section Split

variable (initLoadPerServer : HashMap String Nat) (balanceLoad : ℚ)

/-- The load of a server. -/
def serverLoad (server : String) : Nat := (initLoadPerServer.get server).getD 0

/-- How many of its fragments a server gives away. -/
def givenAway (e : String × List Nat) : Nat :=
  if balanceLoad < serverLoad initLoadPerServer e.1 then
    e.2.length - (balanceLoad / (serverLoad initLoadPerServer e.1 / e.2.length : ℚ)).floor.toNat
  else 0

/-- The servers that are not above their share. -/
def underLoad (es : List (String × List Nat)) : List String :=
  (es.filter fun e => ¬ balanceLoad < serverLoad initLoadPerServer e.1).map Prod.fst

/-- What a server keeps. -/
def keptFragments (e : String × List Nat) : String × List Nat :=
  (e.1, e.2.drop (givenAway initLoadPerServer balanceLoad e))

/-- What a server gives away. -/
def movedFragments (e : String × List Nat) : List (Nat × ℚ) :=
  (e.2.take (givenAway initLoadPerServer balanceLoad e)).map
    (·, (serverLoad initLoadPerServer e.1 / e.2.length : ℚ))

/-- The servers with what they keep. -/
def keptServers (es : List (String × List Nat)) : ServerFragments :=
  (es.map (keptFragments initLoadPerServer balanceLoad)).foldl (fun m e => m.put e.1 e.2) .empty

/-- The fragments that stay where they are. -/
def keptPlacements (es : List (String × List Nat)) : List (Nat × String) :=
  es.flatMap fun e => (keptFragments initLoadPerServer balanceLoad e).2.map (·, e.1)

/-- The fragments that are given away. -/
def movedIds (es : List (String × List Nat)) : List Nat :=
  (es.flatMap (movedFragments initLoadPerServer balanceLoad)).map Prod.fst

variable {initLoadPerServer balanceLoad}

theorem splitServer_eq {acc : LoadSplit} (h : ∃ load, initLoadPerServer.get e.1 = some load) :
    splitServer initLoadPerServer balanceLoad acc e = .ok
      { newServerFragments := acc.newServerFragments.put e.1
          (keptFragments initLoadPerServer balanceLoad e).2
        reassignFragIds := acc.reassignFragIds ++ movedFragments initLoadPerServer balanceLoad e
        underLoadServers := acc.underLoadServers ++ underLoad initLoadPerServer
          balanceLoad [e] } := by
  obtain ⟨load, hload⟩ := h
  by_cases hover : balanceLoad < load
  · simp [splitServer, keptFragments, movedFragments, givenAway, underLoad, serverLoad,
      hload, hover]
    rfl
  · have hunder := not_lt.mp hover
    simp [splitServer, keptFragments, movedFragments, givenAway, underLoad, serverLoad,
      hload, hover, hunder]
    rfl

theorem foldlM_splitServer (es : List (String × List Nat)) (acc : LoadSplit)
    (h : ∀ e ∈ es, ∃ load, initLoadPerServer.get e.1 = some load) :
    es.foldlM (splitServer initLoadPerServer balanceLoad) acc = .ok
      { newServerFragments := (es.map (keptFragments initLoadPerServer balanceLoad)).foldl
          (fun m e => m.put e.1 e.2) acc.newServerFragments
        reassignFragIds :=
          acc.reassignFragIds ++ es.flatMap (movedFragments initLoadPerServer balanceLoad)
        underLoadServers := acc.underLoadServers ++ underLoad initLoadPerServer
          balanceLoad es } := by
  induction es generalizing acc with
  | nil => simp [underLoad]; rfl
  | cons e es ih =>
    rw [List.foldlM_cons, splitServer_eq (h e (by simp))]
    refine (ih _ fun e' he' => h e' (by simp [he'])).trans ?_
    have hunder : underLoad initLoadPerServer balanceLoad (e :: es) =
        underLoad initLoadPerServer balanceLoad [e] ++ underLoad initLoadPerServer
          balanceLoad es := by
      rw [underLoad, underLoad, underLoad, ← List.map_append, ← List.filter_append]
      rfl
    rw [hunder]
    simp [keptFragments]

/-- A server above its share keeps the fragments that its share has room for. -/
theorem givenAway_eq (h : balanceLoad < serverLoad initLoadPerServer e.1) :
    givenAway initLoadPerServer balanceLoad e = e.2.length -
      (balanceLoad * e.2.length / serverLoad initLoadPerServer e.1).floor.toNat := by
  rw [givenAway, if_pos h, div_div_eq_mul_div]

/-- A server above its share gives a fragment away, if it has any. -/
theorem givenAway_pos (hne : e.2 ≠ []) (hbalance : 0 ≤ balanceLoad)
    (h : balanceLoad < serverLoad initLoadPerServer e.1) :
    0 < givenAway initLoadPerServer balanceLoad e := by
  have hlength : (0 : ℚ) < e.2.length := by exact_mod_cast List.length_pos_of_ne_nil hne
  have hload : (0 : ℚ) < serverLoad initLoadPerServer e.1 := hbalance.trans_lt h
  have hlt : balanceLoad * e.2.length / serverLoad initLoadPerServer e.1 < (e.2.length : ℤ) := by
    rw [div_lt_iff₀ hload, mul_comm]
    exact_mod_cast mul_lt_mul_of_pos_left h hlength
  have hfloor := Rat.floor_lt_iff.mpr hlt
  have hpos := List.length_pos_of_ne_nil hne
  rw [givenAway_eq h]
  omega

/-- A server above its share keeps a fragment exactly if its share has room for one. -/
theorem givenAway_lt_iff (hne : e.2 ≠ []) (hbalance : 0 ≤ balanceLoad)
    (h : balanceLoad < serverLoad initLoadPerServer e.1) :
    givenAway initLoadPerServer balanceLoad e < e.2.length ↔
      (serverLoad initLoadPerServer e.1 : ℚ) ≤ balanceLoad * e.2.length := by
  have hlength := List.length_pos_of_ne_nil hne
  have hload : (0 : ℚ) < serverLoad initLoadPerServer e.1 := hbalance.trans_lt h
  have hone : (1 : ℤ) ≤ (balanceLoad * e.2.length / serverLoad initLoadPerServer e.1).floor ↔
      (serverLoad initLoadPerServer e.1 : ℚ) ≤ balanceLoad * e.2.length := by
    rw [Rat.le_floor_iff, Int.cast_one, le_div_iff₀ hload, one_mul]
  rw [← hone, givenAway_eq h]
  omega

end Split

/-! ## The passes that move -/

/-- Some of the fragments `ids` that were given away have been taken, by servers that may take some,
and the others wait. -/
def Moving (kept : List (Nat × String)) (ids : List Nat) (target : String → Prop)
    (m : ServerFragments) (rest : List (Nat × ℚ)) : Prop :=
  ∃ placed : List (Nat × String), m.placements.Perm (kept ++ placed) ∧
    placed.map Prod.fst ++ rest.map Prod.fst = ids ∧ ∀ p ∈ placed, target p.2

theorem Moving.add (server : String) (taken : List (Nat × ℚ))
    (h : Moving kept ids target m (taken ++ rest)) (hserver : taken ≠ [] → target server) :
    Moving kept ids target (m.add server (taken.map Prod.fst)) rest := by
  obtain ⟨placed, hperm, hids, htarget⟩ := h
  refine ⟨placed ++ (taken.map Prod.fst).map (·, server), ?_, ?_, ?_⟩
  · rw [← List.append_assoc]
    exact (m.placements_add server _).trans (hperm.append_right _)
  · rw [← hids]
    simp [Function.comp_def]
  · intro p hp
    rcases List.mem_append.mp hp with hp | hp
    · exact htarget p hp
    · simp only [List.map_map, List.mem_map, Function.comp_apply] at hp
      obtain ⟨f, hf, rfl⟩ := hp
      exact hserver (List.ne_nil_of_mem hf)

theorem topUp_eq (balanceLoad curLoad : ℚ) (frags : List Nat) (rest : List (Nat × ℚ)) :
    ∃ taken rest', rest = taken ++ rest' ∧
      topUp balanceLoad curLoad frags rest = (frags ++ taken.map Prod.fst, rest') ∧
      (taken ≠ [] → curLoad < balanceLoad) := by
  induction rest generalizing curLoad frags with
  | nil => exact ⟨[], [], rfl, by simp [topUp], by simp⟩
  | cons frag rest ih =>
    rw [topUp]
    split
    next hlt =>
      obtain ⟨taken, rest', rfl, heq, -⟩ := ih (curLoad + frag.2) (frags ++ [frag.1])
      exact ⟨frag :: taken, rest', rfl, by rw [heq]; simp, fun _ => hlt⟩
    next => exact ⟨[], frag :: rest, rfl, by simp, by simp⟩

theorem Moving.topUp (load : HashMap String Nat) (balanceLoad : ℚ) (ks : List String)
    (h : Moving kept ids target m rest) (hks : ∀ s ∈ ks, s ∈ m.keys ∧ (∃ l, load.get s = some l) ∧
      ((serverLoad load s : ℚ) < balanceLoad → target s)) :
    ∃ m' rest', ks.foldlM (topUpServer load balanceLoad) (m, rest) = .ok (m', rest') ∧
      (∀ s, s ∈ m'.keys ↔ s ∈ m.keys) ∧ Moving kept ids target m' rest' := by
  induction ks generalizing m rest with
  | nil => exact ⟨m, rest, rfl, fun s => Iff.rfl, h⟩
  | cons server ks ih =>
    obtain ⟨hkey, ⟨l, hl⟩, htarget⟩ := hks server (by simp)
    obtain ⟨taken, rest', rfl, heq, hlt⟩ := topUp_eq balanceLoad l ((m.get server).getD []) rest
    have hload : serverLoad load server = l := by rw [serverLoad, hl, Option.getD_some]
    have hkeys : ∀ s, s ∈ (m.add server (taken.map Prod.fst)).keys ↔ s ∈ m.keys := by
      intro s
      rw [HashMap.mem_keys_add]
      exact or_iff_right_of_imp fun hs => hs ▸ hkey
    have hstep : topUpServer load balanceLoad (m, taken ++ rest') server =
        .ok (m.add server (taken.map Prod.fst), rest') := by
      simp only [topUpServer, hl, heq]
      rfl
    have hmoved := h.add server taken fun hne => htarget (hload ▸ hlt hne)
    obtain ⟨m', rest'', hfold, hkeys', hmoving⟩ := ih hmoved fun s hs => by
      obtain ⟨hs, hrest⟩ := hks s (by simp [hs])
      exact ⟨(hkeys s).mpr hs, hrest⟩
    refine ⟨m', rest'', ?_, fun s => (hkeys' s).trans (hkeys s), hmoving⟩
    rw [List.foldlM_cons, hstep]
    exact hfold

theorem Moving.roundRobin {under : List String} (hne : under ≠ [])
    (htarget : ∀ s ∈ under, target s) (i : Nat) (h : Moving kept ids target m rest)
    (hkeys : ∀ s ∈ under, s ∈ m.keys) :
    ∃ m', Rejig.roundRobin under i m rest = .ok m' ∧ Moving kept ids target m' [] := by
  induction rest generalizing i m with
  | nil => exact ⟨m, rfl, h⟩
  | cons frag rest ih =>
    have hpos := List.length_pos_of_ne_nil hne
    have hi := Nat.mod_lt i hpos
    have hserver := List.getElem_mem hi
    obtain ⟨frags, hfrags⟩ := HashMap.exists_get_iff.mpr (hkeys _ hserver)
    have hmoved := Moving.add under[i % under.length] [frag] h
      fun _ => htarget _ hserver
    rw [HashMap.add, hfrags, Option.getD_some] at hmoved
    obtain ⟨m', heq, hmoving⟩ := ih (i % under.length + 1) hmoved fun s hs =>
      HashMap.mem_keys_put.mpr (Or.inr (hkeys s hs))
    refine ⟨m', ?_, hmoving⟩
    rw [Rejig.roundRobin, if_neg (by omega), List.getElem?_eq_getElem hi]
    simp only [hfrags]
    exact heq

/-! ## Load-balanced reassignment -/

/-- The aim of `assignBalanceLoad`: every fragment once, on a target server, and those of the
servers that are not above their share where they were. -/
structure BalancedAssignment (frags : List Fragment) (servers : List String)
    (load : HashMap String Nat) (result : List Fragment) : Prop where
  ids : (result.map Fragment.fragmentId).Perm (frags.map Fragment.fragmentId)
  placed : ∀ frag ∈ result, frag.physicalServer ∈ servers
  stays : ∀ frag ∈ frags, ∀ l, load.get frag.physicalServer = some l →
    (l : ℚ) ≤ 100 / servers.length →
    ∀ frag' ∈ result, frag'.fragmentId = frag.fragmentId →
    frag'.physicalServer = frag.physicalServer

/-- The fragments by server, as both the code and the proofs group them. -/
def groupFragments (frags : List Fragment) : ServerFragments :=
  frags.foldl (fun acc frag => acc.add frag.physicalServer [frag.fragmentId]) .empty

theorem placements_groupFragments (frags : List Fragment) :
    (groupFragments frags).placements.Perm (frags.map fun f =>
        (f.fragmentId, f.physicalServer)) := by
  induction frags using List.reverseRecOn with
  | nil => exact .refl _
  | append_singleton frags frag ih =>
    rw [groupFragments, List.foldl_append, List.map_append]
    exact (HashMap.placements_add _ _ _).trans (ih.append_right _)

theorem mem_keys_groupFragments (frags : List Fragment) (server : String) :
    server ∈ (groupFragments frags).keys ↔ ∃ f ∈ frags, f.physicalServer = server := by
  induction frags using List.reverseRecOn with
  | nil => simp [groupFragments]
  | append_singleton frags frag ih =>
    rw [groupFragments, List.foldl_append]
    refine HashMap.mem_keys_add.trans ?_
    change server = frag.physicalServer ∨ server ∈ (groupFragments frags).keys ↔ _
    rw [ih]
    simp [or_and_right, exists_or, or_comm, eq_comm]

theorem ne_nil_groupFragments (frags : List Fragment) :
    ∀ e ∈ (groupFragments frags).entries, e.2 ≠ [] := by
  induction frags using List.reverseRecOn with
  | nil => simp [groupFragments, HashMap.empty]
  | append_singleton frags frag ih =>
    rw [groupFragments, List.foldl_append]
    intro e he
    rcases HashMap.mem_entries_add.mp he with rfl | ⟨_, he⟩
    · simp
    · exact ih e he

theorem length_groupFragments {frags : List Fragment} (he : e ∈ (groupFragments frags).entries) :
    e.2.length = frags.countP (·.physicalServer = e.1) := by
  have hcount := (groupFragments frags).countP_placements e.1
  rw [(placements_groupFragments frags).countP_eq, HashMap.get_eq_some_iff.mpr he, Option.getD_some,
    List.countP_map] at hcount
  exact hcount.symm

section Balanced

variable {load : HashMap String Nat} {servers : List String}

/-- The share of the load that a target server should have. -/
def balancedShare (servers : List String) : ℚ := 100 / servers.length

theorem balancedShare_lt_iff (load : HashMap String Nat) (hne : servers ≠ []) (server : String) :
    balancedShare servers < serverLoad load server ↔
    100 < serverLoad load server * servers.length := by
  have hpos : (0 : ℚ) < servers.length := by exact_mod_cast List.length_pos_of_ne_nil hne
  rw [balancedShare, div_lt_iff₀ hpos]
  exact_mod_cast Iff.rfl

/-- A server keeps a fragment exactly if its share has room for one. -/
theorem givenAway_balanced_lt_iff (hne : servers ≠ []) (he : e.2 ≠ []) :
    givenAway load (balancedShare servers) e < e.2.length ↔
      serverLoad load e.1 * servers.length ≤ 100 * e.2.length := by
  have hpos : (0 : ℚ) < servers.length := by exact_mod_cast List.length_pos_of_ne_nil hne
  have hlength := List.length_pos_of_ne_nil he
  by_cases hover : balancedShare servers < serverLoad load e.1
  · rw [givenAway_lt_iff he (by unfold balancedShare; positivity) hover, balancedShare,
      div_mul_eq_mul_div, le_div_iff₀ hpos]
    exact_mod_cast Iff.rfl
  · have hle := (balancedShare_lt_iff load hne e.1).not.mp hover
    rw [givenAway, if_neg hover]
    exact ⟨fun _ => by omega, fun _ => hlength⟩

/-- What the servers keep and what they give away is what they had. -/
theorem perm_kept_moved (load : HashMap String Nat) (balanceLoad : ℚ)
    (es : List (String × List Nat)) :
    ((keptPlacements load balanceLoad es).map Prod.fst ++ movedIds load balanceLoad es).Perm
      (es.flatMap Prod.snd) := by
  rw [keptPlacements, movedIds, List.map_flatMap, List.map_flatMap]
  refine (List.flatMap_append_perm _ _ _).trans (List.Perm.flatMap_left _ fun e _ => ?_)
  simp only [keptFragments, movedFragments, List.map_map, Function.comp_def, List.map_id']
  refine List.perm_append_comm.trans ?_
  rw [List.take_append_drop]

theorem mem_keptPlacements {x : Nat} : (x, server) ∈ keptPlacements load balanceLoad es ↔
      ∃ e ∈ es, e.1 = server ∧ x ∈ e.2.drop (givenAway load balanceLoad e) := by
  simp only [keptPlacements, keptFragments, List.mem_flatMap, List.mem_map, Prod.mk.injEq]
  constructor
  · rintro ⟨e, he, _, hx, rfl, rfl⟩
    exact ⟨e, he, rfl, hx⟩
  · rintro ⟨e, he, rfl, hx⟩
    exact ⟨e, he, x, hx, rfl, rfl⟩

theorem mem_underLoad : server ∈ underLoad load balanceLoad es ↔
      server ∈ es.map Prod.fst ∧ ¬ balanceLoad < serverLoad load server := by
  simp only [underLoad, List.mem_map, List.mem_filter, decide_eq_true_eq]
  constructor
  · rintro ⟨e, ⟨he, hload⟩, rfl⟩
    exact ⟨⟨e, he, rfl⟩, hload⟩
  · rintro ⟨⟨e, he, rfl⟩, hload⟩
    exact ⟨e, ⟨he, hload⟩, rfl⟩

theorem entries_keptServers (load : HashMap String Nat) (balanceLoad : ℚ)
    (h : (es.map Prod.fst).Nodup) :
    (keptServers load balanceLoad es).entries = es.map (keptFragments load balanceLoad) := by
  rw [keptServers, HashMap.entries_foldl_put]
  · rfl
  · simp only [HashMap.empty, List.nil_append, List.map_map]
    exact h

/-- If every server is above its share, one of them gives a fragment away. -/
theorem eq_nil_of_movedIds_eq_nil (hes : ∀ e ∈ es, e.2 ≠ [])
    (hunder : underLoad load (balancedShare servers) es = [])
    (hmoved : movedIds load (balancedShare servers) es = []) : es = [] := by
  refine List.eq_nil_iff_forall_not_mem.mpr fun e he => ?_
  have hover : balancedShare servers < serverLoad load e.1 := by
    by_contra hover
    have hmem := mem_underLoad.mpr ⟨List.mem_map_of_mem he, hover⟩
    rw [hunder] at hmem
    cases hmem
  have hpos := givenAway_pos (hes e he) (by unfold balancedShare; positivity) hover
  have hnil := List.flatMap_eq_nil_iff.mp (List.map_eq_nil_iff.mp hmoved) e he
  rw [movedFragments, List.map_eq_nil_iff, List.take_eq_nil_iff] at hnil
  exact hnil.elim (by omega) (hes e he)

section Run

variable (load) (servers) (scan : Scan String) (frags : List Fragment)

/-- The servers and their fragments, as the program visits them. -/
def visited : List (String × List Nat) := scan.entries (groupFragments frags)

section

variable (hcover : ∀ f ∈ frags, ∃ l, load.get f.physicalServer = some l)

include hcover

/-- The program before its last loop. -/
theorem assignBalanceLoad_eq :
    ∃ m rest, assignBalanceLoad scan frags servers load =
        (roundRobin (underLoad load (balancedShare servers) (visited scan frags)) 0 m rest).map
          (newFragments scan) ∧
      (∀ e ∈ visited scan frags, e.1 ∈ m.keys) ∧
      Moving (keptPlacements load (balancedShare servers) (visited scan frags))
        (movedIds load (balancedShare servers) (visited scan frags))
        (· ∈ underLoad load (balancedShare servers) (visited scan frags)) m rest := by
  have hes := scan.perm_entries (groupFragments frags)
  have hget : ∀ e ∈ visited scan frags, ∃ l, load.get e.1 = some l := by
    intro e he
    obtain ⟨f, hf, hserver⟩ := (mem_keys_groupFragments frags e.1).mp
      (HashMap.fst_mem_keys (hes.mem_iff.mp he))
    exact hserver ▸ hcover f hf
  have hsplit : (visited scan frags).foldlM (splitServer load (balancedShare servers))
    ⟨.empty, [], []⟩ = .ok ⟨keptServers load (balancedShare servers) (visited scan frags),
        (visited scan frags).flatMap (movedFragments load (balancedShare servers)),
        underLoad load (balancedShare servers) (visited scan frags)⟩ :=
    foldlM_splitServer _ _ hget
  have hentries := entries_keptServers load (balancedShare servers)
    ((hes.map Prod.fst).nodup_iff.mpr (groupFragments frags).nodup)
  have hkeys : (keptServers load (balancedShare servers) (visited scan frags)).keys =
      (visited scan frags).map Prod.fst := by
    rw [HashMap.keys, visited, hentries, List.map_map]
    rfl
  have hstart : Moving (keptPlacements load (balancedShare servers) (visited scan frags))
      (movedIds load (balancedShare servers) (visited scan frags))
      (· ∈ underLoad load (balancedShare servers) (visited scan frags))
      (keptServers load (balancedShare servers) (visited scan frags))
      ((visited scan frags).flatMap (movedFragments load (balancedShare servers))) := by
    refine ⟨[], ?_, rfl, by simp⟩
    rw [List.append_nil, HashMap.placements, visited, hentries, List.flatMap_map]
    rfl
  obtain ⟨m, rest, htop, hkeys', hmoving⟩ := hstart.topUp load (balancedShare servers)
    (scan.order (keptServers load (balancedShare servers) (visited scan frags)).keys) (by
      intro s hs
      have hs := scan.mem_order.mp hs
      refine ⟨hs, ?_, fun hlt => mem_underLoad.mpr ⟨hkeys ▸ hs, hlt.le.not_gt⟩⟩
      rw [hkeys] at hs
      obtain ⟨e, he, rfl⟩ := List.mem_map.mp hs
      exact hget e he)
  refine ⟨m, rest, ?_, fun e he => (hkeys' _).mpr (hkeys ▸ List.mem_map_of_mem he), hmoving⟩
  unfold assignBalanceLoad
  change ((visited scan frags).foldlM (splitServer load (balancedShare servers)) ⟨.empty, [],
    []⟩ >>= _) = _
  rw [hsplit]
  change ((scan.order (keptServers load (balancedShare servers) (visited scan frags)).keys).foldlM
    (topUpServer load (balancedShare servers)) (keptServers load (balancedShare servers)
      (visited scan frags), (visited scan frags).flatMap
      (movedFragments load (balancedShare servers))) >>= _) = _
  rw [htop]
  rfl

/-- `assignBalanceLoad` fails if every current server is above its share, and otherwise ends with
the fragments that were given away on servers that were not. -/
theorem assignBalanceLoad_cases :
    (underLoad load (balancedShare servers) (visited scan frags) = [] ∧ visited scan frags ≠ [] ∧
      assignBalanceLoad scan frags servers load = .error .arithmetic) ∨
    ((underLoad load (balancedShare servers) (visited scan frags) ≠ [] ∨ visited scan frags = []) ∧
      ∃ m, assignBalanceLoad scan frags servers load = .ok (newFragments scan m) ∧
        Moving (keptPlacements load (balancedShare servers) (visited scan frags))
          (movedIds load (balancedShare servers) (visited scan frags))
          (· ∈ underLoad load (balancedShare servers) (visited scan frags)) m []) := by
  obtain ⟨m, rest, hrun, hkeys, hmoving⟩ := assignBalanceLoad_eq load servers scan frags hcover
  by_cases hnone : underLoad load (balancedShare servers) (visited scan frags) = []
  · obtain ⟨placed, hperm, hids, htarget⟩ := id hmoving
    have hplaced : placed = [] := List.eq_nil_iff_forall_not_mem.mpr fun p hp => by
      have hmem := htarget p hp
      rw [hnone] at hmem
      cases hmem
    subst hplaced
    cases rest with
    | nil =>
      have hes := scan.perm_entries (groupFragments frags)
      have hnil := eq_nil_of_movedIds_eq_nil
        (fun e he => ne_nil_groupFragments frags e (hes.mem_iff.mp he)) hnone hids.symm
      exact Or.inr ⟨Or.inr hnil, m, hrun, hmoving⟩
    | cons frag rest =>
      refine Or.inl ⟨hnone, ?_, ?_⟩
      · rintro hnil
        simp [hnil, movedIds] at hids
      · rw [hrun, hnone]
        rfl
  · obtain ⟨m', hround, hmoving'⟩ := hmoving.roundRobin hnone (fun s hs => hs) 0 (by
      intro s hs
      obtain ⟨e, he, rfl⟩ := List.mem_map.mp (mem_underLoad.mp hs).1
      exact hkeys e he)
    exact Or.inr ⟨Or.inl hnone, m', by rw [hrun, hround]; rfl, hmoving'⟩

end

variable {load servers scan frags}

/-- A current server keeps all its fragments if it is not above its share. -/
theorem mem_keptPlacements_of_le (scan : Scan String) (hf : f ∈ frags)
    (hle : ¬ balancedShare servers < serverLoad load f.physicalServer) :
    (f.fragmentId, f.physicalServer) ∈ keptPlacements load (balancedShare servers)
      (visited scan frags) := by
  have hgroup : (f.fragmentId, f.physicalServer) ∈ (groupFragments frags).placements :=
    (placements_groupFragments frags).mem_iff.mpr (List.mem_map.mpr ⟨f, hf, rfl⟩)
  obtain ⟨xs, he, hx⟩ := HashMap.mem_placements.mp hgroup
  refine mem_keptPlacements.mpr ⟨(f.physicalServer, xs), ?_, rfl, ?_⟩
  · exact (scan.perm_entries _).mem_iff.mpr he
  · rw [givenAway, if_neg hle]
    exact hx

/-- A current server keeps a fragment exactly if its share has room for one. -/
theorem exists_keptPlacements_iff (scan : Scan String) (hne : servers ≠ []) (hf : f ∈ frags) :
    (∃ x, (x, f.physicalServer) ∈ keptPlacements load (balancedShare servers)
        (visited scan frags)) ↔
      serverLoad load f.physicalServer * servers.length ≤
        100 * frags.countP (·.physicalServer = f.physicalServer) := by
  have hes := scan.perm_entries (groupFragments frags)
  have hkept : ∀ e ∈ visited scan frags, e.1 = f.physicalServer →
      ((∃ x, x ∈ e.2.drop (givenAway load (balancedShare servers) e)) ↔
        serverLoad load f.physicalServer * servers.length ≤
          100 * frags.countP (·.physicalServer = f.physicalServer)) := by
    intro e he heq
    have he := hes.mem_iff.mp he
    rw [← heq, ← length_groupFragments he,
      ← givenAway_balanced_lt_iff hne (ne_nil_groupFragments frags e he), ← not_le,
      ← List.drop_eq_nil_iff, List.eq_nil_iff_forall_not_mem, not_forall_not]
  constructor
  · rintro ⟨x, hx⟩
    obtain ⟨e, he, heq, hx⟩ := mem_keptPlacements.mp hx
    exact (hkept e he heq).mp ⟨x, hx⟩
  · intro hle
    obtain ⟨xs, hxs⟩ := HashMap.exists_get_iff.mpr ((mem_keys_groupFragments frags _).mpr
      ⟨f, hf, rfl⟩)
    have he : (f.physicalServer, xs) ∈ visited scan frags :=
      hes.mem_iff.mpr (HashMap.get_eq_some_iff.mp hxs)
    obtain ⟨x, hx⟩ := (hkept _ he rfl).mpr hle
    exact ⟨x, mem_keptPlacements.mpr ⟨_, he, rfl, hx⟩⟩

/-- What the end of `assignBalanceLoad` is worth: nothing is lost, and the fragments are on target
servers exactly if every current server that keeps one is a target. -/
theorem Moving.balanced_iff (hne : servers ≠ []) (hnodup : (frags.map Fragment.fragmentId).Nodup)
    (h : Moving (keptPlacements load (balancedShare servers) (visited scan frags))
      (movedIds load (balancedShare servers) (visited scan frags))
      (· ∈ underLoad load (balancedShare servers) (visited scan frags)) m []) :
    BalancedAssignment frags servers load (newFragments scan m) ↔
      ∀ f ∈ frags, f.physicalServer ∉ servers →
        100 * frags.countP (·.physicalServer = f.physicalServer) <
          serverLoad load f.physicalServer * servers.length := by
  obtain ⟨placed, hperm, hids, htarget⟩ := h
  have hes := scan.perm_entries (groupFragments frags)
  have hall : (m.placements.map Prod.fst).Perm (frags.map Fragment.fragmentId) := by
    have hgroup := (placements_groupFragments frags).map Prod.fst
    have hvisited := hes.flatMap_right Prod.snd
    rw [HashMap.placements, List.map_flatMap] at hgroup
    simp only [List.map_map, Function.comp_def, List.map_id'] at hgroup
    rw [List.map_nil, List.append_nil] at hids
    refine (hperm.map _).trans ?_
    rw [List.map_append, hids]
    exact (perm_kept_moved _ _ _).trans (hvisited.trans hgroup)
  have hmnodup := hall.nodup_iff.mpr hnodup
  have hresult := perm_newFragments scan m hmnodup
  have hmem : ∀ {x s}, (x, s) ∈ m.placements → Fragment.initial x s ∈ newFragments scan m :=
    fun {x s} hp => hresult.mem_iff.mpr (List.mem_map.mpr ⟨(x, s), hp, rfl⟩)
  constructor
  · intro hbalanced f hf hserver
    rw [← not_le, ← exists_keptPlacements_iff scan hne hf]
    rintro ⟨x, hx⟩
    exact hserver (hbalanced.placed (.initial x _)
      (hmem (hperm.mem_iff.mpr (List.mem_append_left _ hx))))
  · intro hgone
    have hkept : ∀ {x s}, (x, s) ∈ keptPlacements load (balancedShare servers)
      (visited scan frags) →
        s ∈ servers := by
      intro x s hx
      obtain ⟨e, he, rfl, hx'⟩ := mem_keptPlacements.mp hx
      obtain ⟨f, hf, hserver⟩ := (mem_keys_groupFragments frags e.1).mp
        (HashMap.fst_mem_keys (hes.mem_iff.mp he))
      rw [← hserver] at hx ⊢
      by_contra hnot
      exact absurd ((exists_keptPlacements_iff scan hne hf).mp ⟨x, hx⟩) (hgone f hf hnot).not_ge
    refine ⟨?_, ?_, ?_⟩
    · refine .trans (hresult.map _) ?_
      rw [List.map_map]
      exact hall
    · intro frag hfrag
      obtain ⟨⟨x, s⟩, hp, rfl⟩ := List.mem_map.mp (hresult.mem_iff.mp hfrag)
      rcases List.mem_append.mp (hperm.mem_iff.mp hp) with hp | hp
      · exact hkept hp
      · obtain ⟨hs, hunder⟩ := mem_underLoad.mp (htarget _ hp)
        obtain ⟨e, he, heq⟩ := List.mem_map.mp hs
        obtain ⟨f, hf, hserver⟩ := (mem_keys_groupFragments frags e.1).mp
          (HashMap.fst_mem_keys (hes.mem_iff.mp he))
        obtain rfl : f.physicalServer = s := hserver.trans heq
        exact hkept (mem_keptPlacements_of_le scan (f := f) hf hunder)
    · intro f hf l hl hle frag hfrag hid
      obtain ⟨⟨x, s⟩, hp, rfl⟩ := List.mem_map.mp (hresult.mem_iff.mp hfrag)
      have hload : serverLoad load f.physicalServer = l := by rw [serverLoad, hl, Option.getD_some]
      have hstays := hperm.mem_iff.mpr (List.mem_append_left placed
        (mem_keptPlacements_of_le scan hf (not_lt.mpr (hload ▸ hle : _ ≤ balancedShare servers))))
      exact congrArg Prod.snd (List.inj_on_of_nodup_map hmnodup hp hstays hid)

end Run

/-- `assignBalanceLoad` never looks at the names of the target servers, only at their number.  It
does what it is for exactly if there is nothing to assign, or some current server can take fragments
and every current server that is no target gives all its fragments away. -/
theorem assignBalanceLoad_balanced_iff (scan : Scan String) (frags : List Fragment)
    (servers : List String) (n : Nat) (load : HashMap String Nat)
    (hids : (frags.map Fragment.fragmentId).Perm (List.range n)) (hne : servers ≠ [])
    (hcover : ∀ f ∈ frags, ∃ l, load.get f.physicalServer = some l) :
    (∃ result, assignBalanceLoad scan frags servers load = .ok result ∧
        BalancedAssignment frags servers load result) ↔
      frags = [] ∨
        (∃ f ∈ frags, serverLoad load f.physicalServer * servers.length ≤ 100) ∧
        ∀ f ∈ frags, f.physicalServer ∉ servers →
          100 * frags.countP (·.physicalServer = f.physicalServer) <
            serverLoad load f.physicalServer * servers.length := by
  have hnodup := hids.nodup_iff.mpr List.nodup_range
  have hes := scan.perm_entries (groupFragments frags)
  have hvisited : ∀ server, server ∈ (visited scan frags).map Prod.fst ↔
      ∃ f ∈ frags, f.physicalServer = server := by
    intro server
    rw [← mem_keys_groupFragments]
    exact (hes.map Prod.fst).mem_iff
  have hunder : underLoad load (balancedShare servers) (visited scan frags) ≠ [] ↔
      ∃ f ∈ frags, serverLoad load f.physicalServer * servers.length ≤ 100 := by
    rw [ne_eq, List.eq_nil_iff_forall_not_mem, not_forall_not]
    constructor
    · rintro ⟨server, hserver⟩
      obtain ⟨hmem, hle⟩ := mem_underLoad.mp hserver
      obtain ⟨f, hf, rfl⟩ := (hvisited server).mp hmem
      exact ⟨f, hf, not_lt.mp ((balancedShare_lt_iff load hne _).not.mp hle)⟩
    · rintro ⟨f, hf, hle⟩
      refine ⟨f.physicalServer, mem_underLoad.mpr ⟨(hvisited _).mpr ⟨f, hf, rfl⟩, ?_⟩⟩
      exact (balancedShare_lt_iff load hne _).not.mpr (not_lt.mpr hle)
  have hempty : visited scan frags = [] ↔ frags = [] := by
    rw [← not_iff_not, List.eq_nil_iff_forall_not_mem, List.eq_nil_iff_forall_not_mem,
      not_forall_not, not_forall_not]
    constructor
    · rintro ⟨e, he⟩
      obtain ⟨f, hf, -⟩ := (hvisited e.1).mp (List.mem_map_of_mem he)
      exact ⟨f, hf⟩
    · rintro ⟨f, hf⟩
      obtain ⟨e, he, -⟩ := List.mem_map.mp ((hvisited f.physicalServer).mpr ⟨f, hf, rfl⟩)
      exact ⟨e, he⟩
  rcases assignBalanceLoad_cases load servers scan frags hcover with
    ⟨hnone, hsome, herr⟩ | ⟨hok, m, hrun, hmoving⟩
  · constructor
    · rintro ⟨result, hresult, -⟩
      rw [herr] at hresult
      cases hresult
    · rintro (hnil | ⟨hunder', -⟩)
      · exact absurd (hempty.mpr hnil) hsome
      · exact absurd hnone (hunder.mpr hunder')
  · rw [hrun]
    simp only [Except.ok.injEq, exists_eq_left']
    rw [hmoving.balanced_iff hne hnodup]
    rw [hunder, hempty] at hok
    constructor
    · intro hgone
      exact hok.symm.imp_right fun hunder => ⟨hunder, hgone⟩
    · rintro (rfl | ⟨-, hgone⟩)
      · simp
      · exact hgone

/-- A server with three quarters of the load gives a fragment to the other one. -/
theorem assignBalanceLoad_balanced_iff_pair :
    ∃ result, assignBalanceLoad .insertion [.initial 0 "h1", .initial 1 "h1", .initial 2 "h2"]
      ["h1", "h2"] ⟨[("h1", 75), ("h2", 25)], by decide⟩ = .ok result ∧
      BalancedAssignment [.initial 0 "h1", .initial 1 "h1", .initial 2 "h2"] ["h1", "h2"]
        ⟨[("h1", 75), ("h2", 25)], by decide⟩ result := by
  refine (assignBalanceLoad_balanced_iff _ _ _ 3 _ (by decide) (by decide) ?_).mpr
    (Or.inr ⟨by decide, by decide⟩)
  intro f hf
  exact Option.isSome_iff_exists.mp (by revert f hf; decide)

/-- All the load on one server, to be shared with a second one: nobody can take what it gives away,
and the turn among no servers divides by zero. -/
theorem assignBalanceLoad_fails :
    (([("h1", 100)] : List (String × Nat)).map Prod.snd).sum = 100 ∧
      assignBalanceLoad .insertion [.initial 0 "h1", .initial 1 "h1"] ["h1", "h2"]
        ⟨[("h1", 100)], by decide⟩ = .error .arithmetic := by
  decide +kernel

end Balanced

end Rejig
