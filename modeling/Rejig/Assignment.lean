import Rejig.Lib.HashMap
import Mathlib.Algebra.Order.BigOperators.Group.List
import Mathlib.Algebra.GroupWithZero.Nat
import Mathlib.Algebra.Order.Group.Nat
import Mathlib.Data.List.Induction

/-!
# Reassigning fragments to cache servers

`ConfigurationAssignment.assign` of the coordinator: which server every fragment is placed on when
the list of servers changes.  It aims at the same number of fragments on every server.

The program walks over a map whose keys are the names of servers.  The order of such a walk is that
of the hash codes of the names, and is any `Scan` here.  The new fragments are listed in the order
of a walk over a map whose keys are the ids of the fragments, and that order is known: an id is its
own hash code, and the table keeps it in the bin of that code folded onto its upper half.
-/

namespace Rejig

open Option List

variable {acc : ServerFragments × List Nat} {n q : Nat} {seen : List Fragment}

/-- The exceptions of the runtime that the coordinator's programs can raise. -/
inductive JavaException where
  | arithmetic
  | nullPointer
  | indexOutOfBounds
deriving DecidableEq, Repr

/-- Whether the entries of a fragment are being moved. -/
inductive FragmentState where
  | normal
  | migrate
deriving DecidableEq, Repr

/-- A fragment, as a configuration places it. -/
structure Fragment where
  fragmentId : Nat
  physicalServer : String
  migrateServer : String
  fragmentCfgId : Int
  prevFragmentCfgId : Int
  nextFragmentCfgId : Int
  state : FragmentState
deriving DecidableEq, Repr

/-- A fragment as it is placed at first. -/
def Fragment.initial (fragmentId : Nat) (physicalServer : String) : Fragment where
  fragmentId := fragmentId
  physicalServer := physicalServer
  migrateServer := "-1"
  fragmentCfgId := 0
  prevFragmentCfgId := -1
  nextFragmentCfgId := -1
  state := .normal

/-- The fragments that each server keeps. -/
abbrev ServerFragments := HashMap String (List Nat)

/-- The walk over a map whose keys are integers. -/
def integerScan : Scan Nat := .table fun id => id ^^^ (id >>> 16)

/-- The server of every fragment. -/
def fragIdServer (scan : Scan String) (serverFragments : ServerFragments) : HashMap Nat String :=
  (scan.entries serverFragments).foldl
    (fun acc e => e.2.foldl (fun acc fragId => acc.put fragId e.1) acc) .empty

/-- The list of fragments that a reassignment builds at its end. -/
def newFragments (scan : Scan String) (serverFragments : ServerFragments) : List Fragment :=
  (integerScan.entries (fragIdServer scan serverFragments)).map fun e => .initial e.1 e.2

/-! ## The same number of fragments -/

/-- A fragment stays on its server while the server has room, and is to be reassigned otherwise. -/
def assignKeep (fragsPerServer : Nat) (acc : ServerFragments × List Nat) (frag : Fragment) :
    ServerFragments × List Nat :=
  let frags := (acc.1.get frag.physicalServer).getD []
  if frags.length = fragsPerServer then
    (acc.1.put frag.physicalServer frags, acc.2 ++ [frag.fragmentId])
  else
    (acc.1.put frag.physicalServer (frags ++ [frag.fragmentId]), acc.2)

/-- A server with room takes the next fragments that are to be reassigned. -/
def assignFill (fragsPerServer : Nat) : List Nat → List Nat → List Nat × List Nat
  | frags, [] => (frags, [])
  | frags, fragId :: rest =>
    if frags.length < fragsPerServer then assignFill fragsPerServer (frags ++ [fragId]) rest
    else (frags, fragId :: rest)

/-- One step of the walk in which the servers take fragments. -/
def assignFillServer (fragsPerServer : Nat) (acc : ServerFragments × List Nat) (server : String) :
    ServerFragments × List Nat :=
  let filled := assignFill fragsPerServer ((acc.1.get server).getD []) acc.2
  (acc.1.put server filled.1, filled.2)

/-- `ConfigurationAssignment.assign`. -/
def assign (scan : Scan String) (originalFragments : List Fragment) (servers : List String)
    (totalFrags : Nat) : Except JavaException (List Fragment) :=
  if servers.length = 0 then
    throw .arithmetic
  else
    let fragsPerServer := totalFrags / servers.length
    let kept := originalFragments.foldl (assignKeep fragsPerServer) (.empty, [])
    let filled := (scan.order kept.1.keys).foldl (assignFillServer fragsPerServer) kept
    return newFragments scan filled.1

/-! ## The list of new fragments -/

theorem entries_fragIdServer (scan : Scan String) (m : ServerFragments)
    (h : (m.placements.map Prod.fst).Nodup) :
    (fragIdServer scan m).entries.Perm m.placements := by
  have hplaced := (scan.perm_entries m).flatMap_right fun e : String × List Nat => e.2.map (·, e.1)
  have hfold : fragIdServer scan m =
      ((scan.entries m).flatMap fun e => e.2.map (·, e.1)).foldl
        (fun acc e => acc.put e.1 e.2) .empty := by
    rw [fragIdServer, foldl_flatMap]
    simp only [foldl_map]
  have hnodup := ((hplaced.map Prod.fst).nodup_iff.mpr h)
  rw [hfold, HashMap.entries_foldl_put _ _ (by simpa [HashMap.empty] using hnodup)]
  exact hplaced

/-- The new fragments are the fragments of the servers, each on the server that keeps it. -/
theorem perm_newFragments (scan : Scan String) (m : ServerFragments)
    (h : (m.placements.map Prod.fst).Nodup) :
    (newFragments scan m).Perm (m.placements.map fun p => .initial p.1 p.2) :=
  ((integerScan.perm_entries _).trans (entries_fragIdServer scan m h)).map _

theorem map_fragmentId_newFragments (scan : Scan String) (m : ServerFragments) :
    (newFragments scan m).map Fragment.fragmentId = integerScan.order
      (fragIdServer scan m).keys := by
  rw [newFragments, List.map_map, ← integerScan.map_fst_entries]
  rfl

/-- Ids below `2 ^ 16` are their own bins, and the next two are exchanged: a walk over `n` ids
visits them in increasing order only if it does not meet both of those. -/
theorem order_integerScan_iff {ks : List Nat} (h : ks.Perm (List.range n)) :
    integerScan.order ks = List.range n ↔ n ≤ 65537 := by
  have hbins := Scan.pairwise_order_table (fun id : Nat => id ^^^ (id >>> 16)) ks
  have hlength : ks.length = n := by simpa using h.length_eq
  rw [hlength] at hbins
  have hcapacity := Scan.le_capacity n
  constructor
  · intro heq
    have heq : (Scan.table fun id : Nat => id ^^^ (id >>> 16)).order ks = List.range n := heq
    rw [heq, pairwise_iff_getElem] at hbins
    by_contra hn
    have hle := hbins 65536 65537 (by simp; omega) (by simp; omega) (by omega)
    simp only [getElem_range] at hle
    rw [show (65536 ^^^ 65536 >>> 16 : Nat) = 65537 from rfl,
      show (65537 ^^^ 65537 >>> 16 : Nat) = 65536 from rfl, Nat.mod_eq_of_lt (by omega),
      Nat.mod_eq_of_lt (by omega)] at hle
    omega
  · intro hn
    have hbin : ∀ k < n, (k ^^^ (k >>> 16)) % Scan.capacity n = if k < 65536 then k else 65537 := by
      intro k hk
      by_cases hsmall : k < 65536
      · have hshift : k >>> 16 = 0 := by
          rw [Nat.shiftRight_eq_div_pow]
          exact Nat.div_eq_of_lt hsmall
        rw [if_pos hsmall, hshift, Nat.xor_zero, Nat.mod_eq_of_lt (by omega)]
      · obtain rfl : k = 65536 := by omega
        rw [if_neg hsmall, show (65536 ^^^ 65536 >>> 16 : Nat) = 65537 from rfl,
          Nat.mod_eq_of_lt (by omega)]
    have hperm : (integerScan.order ks).Perm (List.range n) := (integerScan.perm ks).trans h
    refine hperm.eq_of_pairwise' (r := (· ≤ ·)) ?_ pairwise_le_range
    refine hbins.imp_of_mem fun {a b} ha hb hab => ?_
    have ha := mem_range.mp (hperm.mem_iff.mp ha)
    have hb := mem_range.mp (hperm.mem_iff.mp hb)
    rw [hbin a ha, hbin b hb] at hab
    split at hab <;> split at hab <;> omega

/-! ## What `assign` conserves -/

/-- What holds in both passes of `assign`, after the fragments `seen`: every fragment is on a server
or waits to be reassigned, the servers are those seen, and none has more than its number. -/
structure Assigning (fragsPerServer : Nat) (seen : List Fragment)
    (acc : ServerFragments × List Nat) :
    Prop where
  ids : (acc.1.placements.map Prod.fst ++ acc.2).Perm (seen.map Fragment.fragmentId)
  keys : ∀ server, server ∈ acc.1.keys ↔ server ∈ seen.map Fragment.physicalServer
  le : ∀ e ∈ acc.1.entries, e.2.length ≤ fragsPerServer
  ne_nil : 0 < fragsPerServer → ∀ e ∈ acc.1.entries, e.2 ≠ []

theorem Assigning.keep (h : Assigning q seen acc) (frag : Fragment) :
    Assigning q (seen ++ [frag]) (assignKeep q acc frag) := by
  obtain ⟨m, rest⟩ := acc
  have hkeys : ∀ xs server, server ∈ (m.add frag.physicalServer xs).keys ↔
      server ∈ (seen ++ [frag]).map Fragment.physicalServer := by
    intro xs server
    rw [HashMap.mem_keys_add, h.keys server]
    simp [or_comm]
  have hle := HashMap.forall_getD (P := fun xs => xs.length ≤ q) (Nat.zero_le q) h.le
    frag.physicalServer
  unfold assignKeep
  dsimp only at hle ⊢
  split
  next hfull =>
    have hadd : m.put frag.physicalServer ((m.get frag.physicalServer).getD []) =
        m.add frag.physicalServer [] := by
      rw [HashMap.add, append_nil]
    rw [hadd]
    refine ⟨?_, hkeys [], ?_, ?_⟩
    · have hplaced := (m.placements_add frag.physicalServer []).map Prod.fst
      rw [map_append]
      refine (hplaced.append_right _).trans ?_
      simpa [← append_assoc] using h.ids.append_right [frag.fragmentId]
    · rintro e he
      rcases HashMap.mem_entries_add.mp he with rfl | ⟨_, he⟩
      · simpa using hle
      · exact h.le e he
    · rintro hq e he
      rcases HashMap.mem_entries_add.mp he with rfl | ⟨_, he⟩
      · rw [append_nil]
        exact ne_nil_of_length_pos (hfull ▸ hq)
      · exact h.ne_nil hq e he
  next hroom =>
    refine ⟨?_, hkeys [frag.fragmentId], ?_, ?_⟩
    · have hplaced := (m.placements_add frag.physicalServer [frag.fragmentId]).map Prod.fst
      rw [map_append]
      refine (hplaced.append_right _).trans ?_
      rw [map_append, append_assoc]
      refine .trans (List.Perm.append_left _ perm_append_comm) ?_
      simpa [← append_assoc] using h.ids.append_right [frag.fragmentId]
    · rintro e he
      rcases HashMap.mem_entries_add.mp he with rfl | ⟨_, he⟩
      · rw [length_append, length_singleton]
        omega
      · exact h.le e he
    · rintro hq e he
      rcases HashMap.mem_entries_add.mp he with rfl | ⟨_, he⟩
      · simp
      · exact h.ne_nil hq e he

theorem assigning_foldl_keep (q : Nat) (frags : List Fragment) :
    Assigning q frags (frags.foldl (assignKeep q) (.empty, [])) := by
  induction frags using List.reverseRecOn with
  | nil =>
    refine ⟨?_, ?_, ?_, ?_⟩ <;> simp [HashMap.placements, HashMap.empty, HashMap.keys]
  | append_singleton frags frag ih =>
    rw [foldl_append]
    exact ih.keep frag

theorem assignFill_eq (q : Nat) (frags rest : List Nat) :
    assignFill q frags rest = (frags ++ rest.take (q - frags.length),
        rest.drop (q - frags.length)) := by
  induction rest generalizing frags with
  | nil => simp [assignFill]
  | cons fragId rest ih =>
    rw [assignFill]
    split
    next hroom =>
      have hsucc : q - frags.length = (q - (frags ++ [fragId]).length) + 1 := by
        rw [length_append, length_singleton]
        omega
      rw [ih, hsucc, take_succ_cons, drop_succ_cons, append_assoc, singleton_append]
    next hfull =>
      rw [Nat.sub_eq_zero_of_le (Nat.le_of_not_lt hfull)]
      simp

theorem assignFillServer_eq (q : Nat) (acc : ServerFragments × List Nat) (server : String) :
    assignFillServer q acc server =
      (acc.1.add server (acc.2.take (q - ((acc.1.get server).getD []).length)),
      acc.2.drop (q - ((acc.1.get server).getD []).length)) := by
  rw [assignFillServer, assignFill_eq]
  rfl

theorem Assigning.fill (h : Assigning q seen acc) {server : String}
    (hserver : server ∈ acc.1.keys) :
    Assigning q seen (assignFillServer q acc server) := by
  obtain ⟨m, rest⟩ := acc
  obtain ⟨frags, hfrags⟩ := HashMap.exists_get_iff.mpr hserver
  have hmem := HashMap.get_eq_some_iff.mp hfrags
  rw [assignFillServer_eq]
  dsimp only
  rw [hfrags, getD_some]
  refine ⟨?_, ?_, ?_, ?_⟩
  · have hplaced := (m.placements_add server (rest.take (q - frags.length))).map Prod.fst
    refine (hplaced.append_right _).trans ?_
    rw [List.map_append, List.append_assoc, List.map_map]
    have hfst : (Prod.fst ∘ fun x : Nat => (x, server)) = id := rfl
    rw [hfst, List.map_id, List.take_append_drop]
    exact h.ids
  · intro s
    rw [HashMap.mem_keys_add, ← h.keys s]
    exact or_iff_right_of_imp fun heq => heq ▸ hserver
  · rintro e he
    rcases HashMap.mem_entries_add.mp he with rfl | ⟨_, he⟩
    · have hle := h.le _ hmem
      simp only [hfrags, getD_some, length_append, length_take]
      dsimp only at hle
      omega
    · exact h.le e he
  · rintro hq e he
    rcases HashMap.mem_entries_add.mp he with rfl | ⟨_, he⟩
    · simpa [hfrags] using fun hnil => absurd hnil (h.ne_nil hq _ hmem)
    · exact h.ne_nil hq e he

/-- A walk in which the servers take fragments ends with nothing left to take, or with every server
it visited full. -/
theorem Assigning.foldl_fill (ks : List String) (h : Assigning q seen acc)
    (hks : ∀ s ∈ ks, s ∈ acc.1.keys) :
    Assigning q seen (ks.foldl (assignFillServer q) acc) ∧
    ((ks.foldl (assignFillServer q) acc).2 = [] ∨
        ∀ s ∈ ks, q ≤ (((ks.foldl (assignFillServer q) acc).1.get s).getD []).length) := by
  -- From the back: the last server fills up, and the ones before it keep what they have.
  induction ks using List.reverseRecOn with
  | nil => exact ⟨h, Or.inr (by simp)⟩
  | append_singleton ks server ih =>
    obtain ⟨hassigning, hfull⟩ := ih fun s hs => hks s (mem_append_left _ hs)
    rw [foldl_append, foldl_cons, foldl_nil]
    generalize ks.foldl (assignFillServer q) acc = acc' at hassigning hfull ⊢
    have hserver : server ∈ acc'.1.keys := by
      rw [hassigning.keys, ← h.keys]
      exact hks server (by simp)
    refine ⟨hassigning.fill hserver, ?_⟩
    rw [assignFillServer_eq]
    dsimp only
    rcases hfull with hnil | hfull
    · exact Or.inl (by rw [hnil, drop_nil])
    · by_cases hrest : acc'.2.length ≤ q - ((acc'.1.get server).getD []).length
      · exact Or.inl (drop_eq_nil_of_le hrest)
      · refine Or.inr fun s hs => ?_
        by_cases heq : s = server
        · subst heq
          rw [HashMap.add, HashMap.get_put_self, getD_some, length_append, length_take]
          omega
        · rw [HashMap.add, HashMap.get_put_of_ne _ _ heq]
          refine hfull s ?_
          simpa [heq] using hs

/-! ## Uniform reassignment -/

/-- The aim of `assign`: every one of `n` fragments once, in the order of their ids, on a target
server, and as many on one target as on another, up to the remainder. -/
structure UniformAssignment (n : Nat) (servers : List String) (result : List Fragment) : Prop where
  ids : result.map Fragment.fragmentId = List.range n
  placed : ∀ frag ∈ result, frag.physicalServer ∈ servers
  balanced : ∀ server ∈ servers,
    result.countP (·.physicalServer = server) = n / servers.length ∨
      result.countP (·.physicalServer = server) = (n + servers.length - 1) / servers.length

/-- What `assign` is left with when the servers have taken their fragments. -/
def assignServers (scan : Scan String) (q : Nat) (frags : List Fragment) :
    ServerFragments × List Nat :=
  let kept := frags.foldl (assignKeep q) (.empty, [])
  (scan.order kept.1.keys).foldl (assignFillServer q) kept

theorem assign_eq {scan : Scan String} {frags : List Fragment} {servers : List String}
    (h : servers ≠ []) :
    assign scan frags servers n = .ok
      (newFragments scan (assignServers scan (n / servers.length) frags).1) := by
  have hlength : servers.length ≠ 0 := fun h' => h (length_eq_zero_iff.mp h')
  rw [assign, if_neg hlength]
  rfl

theorem assigning_assignServers (scan : Scan String) (q : Nat) (frags : List Fragment) :
    Assigning q frags (assignServers scan q frags) ∧ ((assignServers scan q frags).2 = [] ∨
        ∀ e ∈ (assignServers scan q frags).1.entries, q ≤ e.2.length) := by
  have hkept := assigning_foldl_keep q frags
  have hscan : ∀ s ∈ scan.order (frags.foldl (assignKeep q) (.empty, [])).1.keys,
      s ∈ (frags.foldl (assignKeep q) (.empty, [])).1.keys := fun s => scan.mem_order.mp
  obtain ⟨hassigning, hfull⟩ := hkept.foldl_fill _ hscan
  refine ⟨hassigning, hfull.imp_right fun hfull e he => ?_⟩
  have hkey := (hassigning.keys _).mp (HashMap.fst_mem_keys he)
  rw [← hkept.keys, ← scan.mem_order] at hkey
  have hget : (assignServers scan q frags).1.get e.1 = some e.2 := HashMap.get_eq_some_iff.mpr he
  have hle : q ≤ (((assignServers scan q frags).1.get e.1).getD []).length := hfull e.1 hkey
  rwa [hget, getD_some] at hle

theorem length_placements (m : ServerFragments) :
    m.placements.length = (m.entries.map fun e => e.2.length).sum := by
  rw [HashMap.placements, length_flatMap]
  simp

theorem sum_length_const (m : ServerFragments) (q : Nat) :
    (m.entries.map fun _ => q).sum = m.keys.length * q := by
  simp [HashMap.keys]

theorem Assigning.length_le (h : Assigning q seen acc) :
    acc.1.placements.length ≤ acc.1.keys.length * q := by
  rw [length_placements, ← sum_length_const]
  exact sum_le_sum h.le

/-- If the servers can take all fragments between them, they do. -/
theorem Assigning.rest_eq_nil (h : Assigning q seen acc)
    (hfull : acc.2 = [] ∨ ∀ e ∈ acc.1.entries, q ≤ e.2.length)
    (hroom : seen.length ≤ acc.1.keys.length * q) : acc.2 = [] := by
  rcases hfull with hnil | hfull
  · exact hnil
  · have hlength := h.ids.length_eq
    have hle : acc.1.keys.length * q ≤ acc.1.placements.length := by
      rw [length_placements, ← sum_length_const]
      exact sum_le_sum hfull
    simp only [length_append, length_map] at hlength
    exact eq_nil_of_length_eq_zero (by omega)

/-- If the servers are all full, each has its number. -/
theorem Assigning.length_eq (h : Assigning q seen acc)
    (hfull : acc.1.placements.length = acc.1.keys.length * q) :
    ∀ e ∈ acc.1.entries, e.2.length = q := by
  rintro e he
  refine (h.le e he).antisymm (Nat.le_of_not_lt fun hlt => ?_)
  have hsum : (acc.1.entries.map fun e => e.2.length).sum < (acc.1.entries.map fun _ => q).sum :=
    sum_lt_sum _ _ h.le ⟨e, he, hlt⟩
  rw [← length_placements, sum_length_const] at hsum
  omega

theorem countP_newFragments (scan : Scan String) {m : ServerFragments} (server : String)
    (h : (m.placements.map Prod.fst).Nodup) :
    (newFragments scan m).countP (·.physicalServer = server) = ((m.get server).getD []).length := by
  rw [(perm_newFragments scan m h).countP_eq, countP_map, ← m.countP_placements server]
  rfl

/-- `assign` never looks at the names of the target servers, only at their number, and gives no
server more than its share rounded down.  It does what it is for exactly if the fragments are
already on the target servers, the targets divide them evenly, and there are not so many that the
walk over the ids leaves their order. -/
theorem assign_uniform_iff (scan : Scan String) (frags : List Fragment)
    (servers : List String) (n : Nat) (hids : (frags.map Fragment.fragmentId).Perm (List.range n))
    (hne : servers ≠ []) (hnodup : servers.Nodup) :
    (∃ result, assign scan frags servers n = .ok result ∧ UniformAssignment n servers result) ↔
      n = 0 ∨ servers.length ∣ n ∧ n ≤ 65537 ∧
        ∀ server, server ∈ frags.map Fragment.physicalServer ↔ server ∈ servers := by
  have hlength : frags.length = n := by simpa using hids.length_eq
  have hpos : 0 < servers.length := length_pos_of_ne_nil hne
  obtain ⟨h, hfull⟩ := assigning_assignServers scan (n / servers.length) frags
  rw [assign_eq hne]
  simp only [Except.ok.injEq, exists_eq_left']
  generalize assignServers scan (n / servers.length) frags = acc at h hfull
  have hperm := h.ids.trans hids
  have hplaced : (acc.1.placements.map Prod.fst).Nodup :=
    (nodup_append.mp (hperm.nodup_iff.mpr nodup_range)).1
  have hresult := perm_newFragments scan acc.1 hplaced
  have hkeys : acc.1.keys.Nodup := acc.1.nodup
  constructor
  · intro huniform
    by_cases hn : n = 0
    · exact Or.inl hn
    refine Or.inr ?_
    -- Every fragment is placed, so the servers have room for all of them.
    have htotal : acc.1.placements.length = n := by
      have heq := congrArg List.length huniform.ids
      rw [length_map, length_range, hresult.length_eq, length_map] at heq
      exact heq
    have hroom := h.length_le
    have hmul := Nat.mul_div_le n servers.length
    have hq : 0 < n / servers.length := by
      refine Nat.pos_of_ne_zero fun hzero => hn ?_
      rw [hzero, Nat.mul_zero] at hroom
      omega
    -- None of them is empty, so all of them are targets.
    have hsub : ∀ s ∈ acc.1.keys, s ∈ servers := by
      intro s hs
      obtain ⟨xs, hxs⟩ := HashMap.exists_get_iff.mpr hs
      have hxs := HashMap.get_eq_some_iff.mp hxs
      obtain ⟨x, hx⟩ := exists_mem_of_ne_nil _ (h.ne_nil hq _ hxs)
      refine huniform.placed (.initial x s) (hresult.mem_iff.mpr ?_)
      exact mem_map.mpr ⟨(x, s), HashMap.mem_placements.mpr ⟨xs, hxs, hx⟩, rfl⟩
    have hsubperm : acc.1.keys.Subperm servers := subperm_of_subset hkeys hsub
    have hle := Nat.mul_le_mul_right (n / servers.length) hsubperm.length_le
    have hsame : acc.1.keys.length = servers.length :=
      Nat.eq_of_mul_eq_mul_right hq (by omega)
    refine ⟨⟨n / servers.length, by omega⟩, ?_, fun s => ?_⟩
    · have hkeysid := (entries_fragIdServer scan acc.1 hplaced).map Prod.fst
      have hrest : acc.2 = [] := by
        have hcount := hperm.length_eq
        simp only [length_append, length_map, length_range] at hcount
        exact eq_nil_of_length_eq_zero (by omega)
      rw [hrest, append_nil] at hperm
      rw [← order_integerScan_iff (hkeysid.trans hperm), ← huniform.ids,
        map_fragmentId_newFragments]
      rfl
    · rw [← h.keys s]
      exact (hsubperm.perm_of_length_le hsame.ge).mem_iff
  · rintro (rfl | ⟨hdvd, hn, hservers⟩)
    · have hnil : acc.1.placements = [] := by
        have hcount := hperm.length_eq
        simp only [length_append, length_map, length_range] at hcount
        exact eq_nil_of_length_eq_zero (by omega)
      rw [hnil, map_nil, perm_nil] at hresult
      rw [hresult]
      exact ⟨rfl, by simp, fun s _ => Or.inl (by simp)⟩
    · have hmul := Nat.mul_div_cancel' hdvd
      have hsame : acc.1.keys.Perm servers :=
        (perm_ext_iff_of_nodup hkeys hnodup).mpr fun s => (h.keys s).trans (hservers s)
      have hroom : acc.1.keys.length * (n / servers.length) = n := by rw [hsame.length_eq, hmul]
      have hrest := h.rest_eq_nil hfull (by omega)
      rw [hrest, append_nil] at hperm
      have htotal : acc.1.placements.length = acc.1.keys.length * (n / servers.length) := by
        have hcount := hperm.length_eq
        rw [length_map, length_range] at hcount
        omega
      refine ⟨?_, ?_, ?_⟩
      · rw [map_fragmentId_newFragments]
        have hkeysid := (entries_fragIdServer scan acc.1 hplaced).map Prod.fst
        exact (order_integerScan_iff (hkeysid.trans hperm)).mpr hn
      · intro frag hfrag
        obtain ⟨⟨x, s⟩, hp, rfl⟩ := mem_map.mp (hresult.mem_iff.mp hfrag)
        obtain ⟨xs, hxs, -⟩ := HashMap.mem_placements.mp hp
        exact hsame.mem_iff.mp (HashMap.fst_mem_keys hxs)
      · intro s hs
        obtain ⟨xs, hxs⟩ := HashMap.exists_get_iff.mpr (hsame.mem_iff.mpr hs)
        refine Or.inl ?_
        rw [countP_newFragments scan s hplaced, hxs, getD_some]
        exact h.length_eq htotal _ (HashMap.get_eq_some_iff.mp hxs)

/-- Three fragments on one server and one on another, to be spread over the same two. -/
theorem assign_uniform_iff_pair :
    ∃ result, assign .insertion [.initial 0 "h1", .initial 1 "h1", .initial 2 "h1", .initial 3 "h2"]
        ["h1", "h2"] 4 = .ok result ∧ UniformAssignment 4 ["h1", "h2"] result := by
  refine (assign_uniform_iff _ _ _ 4 (by decide) (by decide) (by decide)).mpr
    (Or.inr ⟨by decide, by decide, ?_⟩)
  intro server
  simp [Fragment.initial]

/-- Four fragments of one server that are to be spread over that server and a new one: two of them
are on no server afterwards, and the new server has none. -/
theorem assign_loses_fragments :
    assign .insertion [.initial 0 "h1", .initial 1 "h1", .initial 2 "h1", .initial 3 "h1"]
        ["h1", "h2"] 4 = .ok [.initial 0 "h1", .initial 1 "h1"] ∧
      ¬ UniformAssignment 4 ["h1", "h2"] [.initial 0 "h1", .initial 1 "h1"] :=
  ⟨by decide, fun h => absurd h.ids (by decide)⟩

end Rejig
