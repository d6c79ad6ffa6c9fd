import Rejig.SessionRefines

/-!
# Records lie in their chunks

The source does not test whether a record that it makes for itself fits the largest chunk, so an
operation that makes records returns only if they do.  A commit makes records of two kinds: a value
from a pending version, under a shorter name, and a session lease with one session less.  Both are
smaller than what was there.  So it always returns from a state in which what is there lies in
chunks, `Server.Fits`, and the operations before it lead to such states.
-/

namespace Rejig

open Prog Server List

variable {it : Item} {name : Bytes} {Q : Option Item → Server → Prop}

/-- A record fits a chunk. -/
def Settings.Holds (c : Settings) (it : Item) : Prop := c.fits it.key.length it.nbyte = true

/-- All records lie in chunks. -/
def Server.Fits (c : Settings) (s : Server) : Prop := s.All c.Holds

section Sizes

variable {c : Settings} {n : Bytes} {nkey nkey' nbyte nbyte' : Nat}

theorem Settings.fits_mono (h : c.fits nkey nbyte = true) (hkey : nkey' % 256 ≤ nkey % 256)
    (hbyte : nbyte' ≤ nbyte) :
    c.fits nkey' nbyte' = true := by
  rw [fits, decide_eq_true_eq, itemNtotal] at h ⊢
  omega

theorem Server.All.shrink {P : Item → Prop} {s s' : Server} (h : s.All P)
    (hs : s.Shrinks s') : s'.All P :=
  fun n it hit => h n it (hs.find hit)

end Sizes

/-! ## Operations that make records -/

/-- A name is cut only when it is long, so records lie where they were allocated. -/
theorem Item.Made.holds {c : Settings} {A : Nat → Prop} {b : Nat} {flags : Nat} {configNum : Int}
    (h : it.Made c A b name flags configNum) : c.Holds it := by
  rw [Settings.Holds, h.key, c.fits_u8Name]
  exact h.fits

/-- Whatever is made lies in a chunk. -/
theorem stable_fits (c : Settings) : Stable c (fun _ => True) (fun _ => True) (fun _ => True)
      (fun _ => True) c.Holds (fun _ => c.Holds) (fun _ => Server.Fits c) := by
  have hmarked : ∀ {it it' : Item}, c.Holds it → it.Marked it' → c.Holds it' := by
    intro it it' hit hm
    rwa [Settings.Holds, Item.nbyte, hm.key, hm.data]
  constructor
  case found => exact fun hs hit => hs _ _ hit
  case shrink => exact fun hs hle => hs.shrink hle
  case fresh => exact fun _ => trivial
  case grow => exact id
  case less => exact fun _ => id
  case link => exact fun hs hit => Server.All.link hs hit
  case mark =>
    exact fun hs hf => Server.All.write hs (fun it => (hf it).key) fun it hit => hmarked hit (hf it)
  case touch => exact fun hs _ => Server.All.write hs (fun _ => rfl) fun _ => id
  case tick => exact fun _ => id
  case marked => exact hmarked
  case flags => exact fun _ => trivial
  case place =>
    intro _ s _ it buf hs _ _ hfind _ hle
    exact Server.All.place hs hfind fun _ =>
      Settings.fits_mono (hs _ it hfind) le_rfl ((length_inPlaceData hle).trans_le hle)
  case list => exact fun _ _ _ hmade _ => hmade.holds
  case share => exact fun _ _ _ hmade _ => hmade.holds
  case unshare => exact fun _ _ _ _ hmade _ _ => hmade.holds
  case lease => exact fun _ hmade _ => hmade.holds
  case version => exact fun _ _ hmade _ _ => hmade.holds
  case marker => exact fun _ hmade _ _ => hmade.holds
  case listed => exact fun _ _ _ _ _ => trivial
  case shared => exact fun _ _ _ _ _ _ => trivial

/-- A value of a pending version lies in a chunk too. -/
theorem applies_fits (c : Settings) (configNum : Int) :
    Stable.Applies c (fun _ => True) (fun _ => True) c.Holds (fun _ => c.Holds) configNum :=
  fun _ _ _ _ _ _ _ hmade _ _ _ => hmade.holds

/-! ## Commits return -/

section Returning

variable {c : Settings} {s : Server}

theorem returns_unlinkSome (it : Option Item) :
    wp (whenSome it itemUnlink) (fun _ _ => True) c s := by
  cases it with
  | none => exact wp_pure.mpr trivial
  | some it => exact wp_itemUnlink.mpr trivial

theorem returns_itemStore (it : Item) : wp (itemStore it .set) (fun _ _ => True) c s := by
  rw [wp_iff_not_wlp, wlp_itemStore_set (.inl rfl)]
  split <;> exact not_not_intro trivial

/-- A record that fits is made when there is memory. -/
theorem wp_itemAlloc {dataflags exptime nbyte : Nat} (hheap : s.heap = [])
    (hfits : c.fits name.length nbyte = true) (hQ : ∀ it s', Q (some it) s') :
    wp (itemAlloc name dataflags exptime nbyte) Q c s := by
  rw [wp_iff_not_wlp, wlp_itemAlloc, if_pos (room_of_heap_nil _ hheap)]
  exact fun h => h hfits (hQ _ _)

theorem wp_itemCreateReservedItem {data : Bytes} (hheap : s.heap = [])
    (hfits : c.fits name.length data.length = true) (hQ : ∀ it s', Q (some it) s') :
    wp (itemCreateReservedItem name data) Q c s := by
  rw [wp_iff_not_wlp, wlp_itemCreateReservedItem, if_pos (room_of_heap_nil _ hheap)]
  exact fun h => h hfits (hQ _ _)

variable {N : Naming} {t : Clock} {v : Sight} {a : Session.State} {key sid : Bytes}

open Session

section

variable (hs : Serves c N t s v a)

include hs

section

variable (hfits : s.Fits c)

include hfits

theorem returns_itemRemoveSidColease (hkey : N.Key key) (hsid : N.Sid sid)
    (hit : v.find (coLeaseKey key) = some it) :
    wp (itemRemoveSidColease (some it) key sid) (fun _ _ => True) c s := by
  rcases hs.repr.hold_cases hkey with ⟨hnone, -⟩ | ⟨it', h, hsome, hhold, hof⟩
  · rw [hit] at hnone
    cases hnone
  rw [hit] at hsome
  cases hsome
  obtain ⟨ks, henc, hks⟩ := hof.lists
  have hcheck : itemCheckEntry (some it) sid = pure (decide (sid ∈ ks)) := by
    rw [itemCheckEntry, u8Name_of_lt hsid.short, Item.nbyte, henc.check sid, deref_some]
  rw [itemRemoveSidColease, itemRemoveEntryFromList, whenSome_some, wp_bind, hcheck, wp_pure]
  by_cases hmem : sid ∈ ks
  · rw [decide_eq_true hmem, when_true]
    split
    · exact wp_itemUnlink.mpr trivial
    · obtain ⟨data, hdata, henc'⟩ := henc.rmvkey hmem
      have hlive : s.live (coLeaseKey key) = some it := hs.sees.live ▸ hit
      have hname : it.key = coLeaseKey key := key_of_live hlive
      have hholds : c.fits (coLeaseKey key).length it.nbyte = true :=
        hname ▸ hfits _ it (live_eq_some.mp hlive).1
      rw [u8Name_of_lt hsid.short, hdata, wp_bind, deref_some, wp_pure, wp_bind]
      refine wp_itemCreateReservedItem hs.sees.heap ?_ fun newIt s' => ?_
      · refine c.fits_mono hholds le_rfl ?_
        rw [Item.nbyte, henc.eq_encode, henc'.eq_encode, length_encode_erase hmem]
        exact Nat.le_add_left _ _
      · rw [wp_bind, deref_some, wp_pure, wp_bind]
        exact (returns_itemStore _).mono fun _ _ _ => wp_pure.mpr trivial
  · rw [decide_eq_false hmem, when_false]
    exact wp_pure.mpr trivial

theorem returns_itemDcommitValue {it : Option Item} {coleaseIt : Item} (hkey : N.Key key) :
    wp (itemDcommitValue key it coleaseIt) (fun _ _ => True) c s := by
  rw [itemDcommitValue]
  split
  · exact returns_unlinkSome it
  split
  · rw [itemDcommitApply, wp_bind]
    refine wp_itemGet.mpr ?_
    cases hpv : s.live (versionKey key) with
    | none => exact returns_unlinkSome it
    | some pv =>
      have hholds := hfits _ pv (live_eq_some.mp hpv).1
      rw [Settings.Holds, key_of_live hpv] at hholds
      have hshort := hkey.length_versionKey
      have hlength : key.length % 256 ≤ (versionKey key).length % 256 := by
        rw [Nat.mod_eq_of_lt hkey.length_lt, Nat.mod_eq_of_lt hshort, versionKey, length_cons]
        simp only [length_cons]
        omega
      dsimp only
      rw [wp_bind]
      refine wp_itemAlloc (hs.sees.reap _).heap (c.fits_mono hholds hlength le_rfl) fun newIt s' =>
        ?_
      rw [wp_bind, deref_some, wp_pure, wp_bind]
      exact (returns_itemStore _).mono fun _ _ _ => wp_itemUnlink.mpr trivial
  · cases coleaseIt.hasCLease with
    | false => exact wp_pure.mpr trivial
    | true =>
      cases it with
      | none => exact wp_pure.mpr trivial
      | some it =>
        rw [when_true, whenSome_some, wp_iff_not_wlp, wlp_itemWrite]
        exact not_not_intro trivial

theorem returns_itemDcommitKey (hkey : N.Key key) (hsid : N.Sid sid) :
    wp (itemDcommitKey sid key) (fun _ _ => True) c s := by
  rw [itemDcommitKey, wp_bind, wp_itemGet, wp_bind]
  have hs₁ : Serves c N t (s.reap key) v a := ⟨hs.sees.reap key, hs.repr⟩
  have hfits₁ : (s.reap key).Fits c := hfits.shrink (.reap s key)
  refine wp_itemGet.mpr ?_
  have hs₂ : Serves c N t ((s.reap key).reap (leaseKey key)) v a := ⟨hs₁.sees.reap _, hs.repr⟩
  have hfits₂ : ((s.reap key).reap (leaseKey key)).Fits c := hfits₁.shrink (.reap _ _)
  rw [wp_bind, hs₁.sees.live, hs.sees.live]
  have hlease : wlp (whenSome (v.find (leaseKey key)) itemUnlink) (fun _ s' =>
    Serves c N t s' (v.set (leaseKey key) none) (a.setCell key { a.cell key with lease := none })) c
    ((s.reap key).reap (leaseKey key)) :=
    hs₂.dropLease hkey fun _ => id
  have hkeep := (stable_fits c).keeps_unlinkSome (b := 0) (v.find (leaseKey key)) _ hfits₂
  refine ((returns_unlinkSome _).and_wlp (hlease.and hkeep)).mono ?_
  rintro _ s₃ ⟨_, hs₃, hfits₃⟩
  rw [wp_bind]
  refine wp_itemGet.mpr ?_
  have hs₄ : Serves c N t (s₃.reap (coLeaseKey key)) _ _ := ⟨hs₃.sees.reap _, hs₃.repr⟩
  have hfits₄ : (s₃.reap (coLeaseKey key)).Fits c := hfits₃.shrink (.reap _ _)
  rw [hs₃.sees.live]
  rcases hs₄.repr.hold_cases hkey with ⟨hnone, -⟩ | ⟨it, h, hit, -, hof⟩
  · rw [hnone]
    exact wp_pure.mpr trivial
  · have hvalue : v.find key = (v.set (leaseKey key) none).find key := by
      rw [Sight.find_set_of_ne hkey.unprefixed.ne_leaseKey]
    have hwlp : wlp (itemDcommitValue key (v.find key) it) (fun _ s' =>
      ∃ v' a', Serves c N t s' v' a' ∧
        v'.find (coLeaseKey key) = some it) c (s₃.reap (coLeaseKey key)) := by
      rw [hvalue]
      refine hs₄.dcommitValue hkey hof fun s₅ v₅ version value hs₅ _ hv₅ => ⟨v₅, _, hs₅, ?_⟩
      rw [hv₅ _ hkey.unprefixed.ne_coLeaseKey.symm coLeaseKey_ne_versionKey, hit]
    have hkeep : wlp (itemDcommitValue key (v.find key) it) (fun _ s' => s'.Fits c) c
      (s₃.reap (coLeaseKey key)) :=
      (stable_fits c).keeps_itemDcommitValue (b := 0) (applies_fits c _) trivial _ hfits₄
    rw [hit, whenSome_some, wp_bind]
    refine ((returns_itemDcommitValue hs₄ hfits₄ hkey).and_wlp (hwlp.and hkeep)).mono ?_
    rintro _ s₅ ⟨_, ⟨v₅, a₅, hs₅, hit₅⟩, hfits₅⟩
    exact returns_itemRemoveSidColease hs₅ hfits₅ hkey hsid hit₅

/-- The loop of a commit returns. -/
theorem returns_itemDcommit_loop {ks : List Bytes} (hkeys : ∀ k ∈ ks, N.Key k)
    (hsid : N.Sid sid) : wp (forEach (itemDcommitKey sid) ks) (fun _ _ => True) c s := by
  induction ks generalizing s v a with
  | nil => exact wp_pure.mpr trivial
  | cons key ks ih =>
    obtain ⟨hkey, hkeys⟩ := forall_mem_cons.mp hkeys
    rw [forEach_cons, wp_bind]
    have hwlp := (wlp_itemDcommitKey hs hkey hsid).and ((stable_fits c).keeps_itemDcommitKey
      (b := 0) (applies_fits c _) trivial s hfits)
    refine ((returns_itemDcommitKey hs hfits hkey hsid).and_wlp hwlp).mono fun _ s₁ ⟨_,
      ⟨v₁, c', hs₁, _⟩, hfits₁⟩ => ?_
    exact ih hs₁ hfits₁ hkeys

/-- The commit of a live session returns. -/
theorem returns_itemDcommit {q : Sess} (hsid : N.Sid sid)
    (hq : a.sess sid = some q) (halive : q.aborted = false) :
    wp (itemDcommit sid) (fun r _ => r = .ok) c s := by
  rcases hs.repr.sess_cases hsid with ⟨-, hnone⟩ | ⟨it, q', hit, hq', hof⟩
  · rw [hq] at hnone
    cases hnone
  rw [hq] at hq'
  cases hq'
  have hstatus : it.sessStatus ≠ .abort := by
    intro habort
    rw [hof.sessStatus_eq_iff, halive] at habort
    cases habort
  obtain ⟨ks, henc, hks⟩ := hof.lists
  rw [itemDcommit, wp_bind, wp_itemGet, hs.sees.live, hit]
  dsimp only
  rw [if_neg hstatus, henc.entries, wp_bind, deref_some, wp_pure, wp_bind]
  have hs₁ : Serves c N t (s.reap sid) v a := ⟨hs.sees.reap sid, hs.repr⟩
  have hkeys : ∀ k ∈ ks, N.Key k := fun k hk => hof.keys k (hks ▸ mem_toFinset.mpr hk)
  refine (returns_itemDcommit_loop hs₁ (hfits.shrink (.reap s sid)) hkeys hsid).mono fun _ s₂ _ =>
    ?_
  rw [wp_bind, wp_itemUnlink, wp_pure]

end

end

end Returning

end Rejig
