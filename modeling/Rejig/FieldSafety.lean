import Rejig.Fields
import Rejig.Stored

/-!
# Handlers that read past their line

The bounds on the number of tokens were written for lines without configuration numbers, and the
positions that the handlers read were moved on when these came in.  `Overreads` lists the lines that
a handler accepts and then takes a field from the terminal token, or from an entry behind it, and
`Unset` those with an answer made of a variable that no one has written to.

`field_safe_iff` says that there are no others.
-/

namespace Rejig

open Prog Walk Option List

variable {fields : LineM Request} {f : Bytes → LineM B} {i n : Nat} {w : Bytes} {admin : Admin}

/-! ## Walks over a line -/

section Walks

variable {t : List Token} {server cfg : Int} {A : Type} {read : Bytes → Option A} {k max : Nat}

@[simp] theorem within_lineNumber : (lineNumber read t i).Within n ↔ i < n := within_use i _

@[simp] theorem within_lineWord : (lineWord t i).Within n ↔ i < n := within_use i _

@[simp] theorem within_lineSubcommand : (lineSubcommand t i).Within n := forall_mem_nil _

@[simp] theorem within_lineConfig : (lineConfig server cfg).Within n := by
  rw [lineConfig]
  split
  · exact within_stop _
  · exact within_guard _ _

@[simp] theorem within_lineName : (lineName max t i).Within n ↔ i < n := by
  simp [lineName, within_bind]

@[simp] theorem within_lineToken : (lineToken t i).Within n ↔ i < n := by
  simp [lineToken, within_bind]

@[simp] theorem result_lineNumber {a : A} :
    (lineNumber read t i).result = .ok a ↔ numberAt read t i = some a := by
  rw [lineNumber, result_use]
  cases numberAt read t i <;> simp

@[simp] theorem result_lineWord : (lineWord t i).result = .ok w ↔
      i ≤ t.length ∧ wordAt t i = w := by
  rw [lineWord, result_use, entry]
  split <;> simp [*]

@[simp] theorem result_lineSubcommand :
    (lineSubcommand t i).result = .ok w ↔ i ≤ t.length ∧ wordAt t i = w := result_lineWord

@[simp] theorem result_lineConfig {u : Unit} :
    (lineConfig server cfg).result = .ok u ↔ (cfg = -1 ∨ cfg = server) ∧ server ≠ -1 := by
  rw [lineConfig]
  split
  · next h =>
    rw [Bool.and_eq_true, decide_eq_true_eq, decide_eq_true_eq] at h
    simp [h.1, h.2]
  · next h =>
    rw [result_guard_eq_ok, decide_eq_true_eq, iff_and_self]
    intro _
    by_contra hne
    rw [not_or] at hne
    exact h (by simp [hne.1, hne.2])

@[simp] theorem result_lineName :
    (lineName max t i).result = .ok w ↔ i ≤ t.length ∧ (wordAt t i).length ≤ max ∧
    wordAt t i = w := by
  simp only [lineName, result_bind_eq_ok_iff, result_lineWord, result_guard_eq_ok,
    decide_eq_true_eq, result_pure, Except.ok.injEq]
  constructor
  · rintro ⟨_, ⟨hi, rfl⟩, _, hlen, rfl⟩
    exact ⟨hi, hlen, rfl⟩
  · rintro ⟨hi, hlen, rfl⟩
    exact ⟨_, ⟨hi, rfl⟩, (), hlen, rfl⟩

@[simp] theorem result_lineToken {a : UInt64} :
    (lineToken t i).result = .ok a ↔ ∃ l, numberAt mcStrtoll t i = some l ∧ UInt64.ofInt l = a := by
  simp [lineToken, result_bind_eq_ok_iff]

section Avoids

variable {A : Type} {read : Bytes → Option A} {max : Nat}

@[simp] theorem avoids_lineNumber : (lineNumber read t i).Avoids t.length .fault := by
  intro hwithin
  rw [lineNumber, result_use]
  cases numberAt read t i with
  | none => simp [within_lineNumber.mp hwithin]
  | some a => simp

@[simp] theorem avoids_lineWord : (lineWord t i).Avoids t.length .fault := by
  intro hwithin
  rw [lineWord, result_use, entry, if_pos (within_lineWord.mp hwithin).le]
  exact nofun

@[simp] theorem avoids_lineSubcommand (h : i ≤ t.length) :
    (lineSubcommand t i).Avoids n .fault := by
  intro _
  rw [lineSubcommand, entry, if_pos h]
  exact nofun

@[simp] theorem avoids_lineConfig : (lineConfig server cfg).Avoids n .fault := by
  rw [lineConfig]
  split
  · exact avoids_stop (by decide)
  · exact avoids_guard _ (by decide)

@[simp] theorem avoids_lineName : (lineName max t i).Avoids t.length .fault :=
  avoids_bind avoids_lineWord fun _ => avoids_bind (avoids_guard _ (by decide)) fun _ =>
    avoids_pure _

@[simp] theorem avoids_lineToken : (lineToken t i).Avoids t.length .fault :=
  avoids_bind avoids_lineNumber fun _ => avoids_pure _

@[simp] theorem avoids_lineWords : (lineWords t i k).Avoids t.length .fault := by
  induction k generalizing i with
  | zero => exact avoids_pure _
  | succ k ih => exact avoids_bind avoids_lineWord fun _ => avoids_bind ih fun _ => avoids_pure _

end Avoids

/-- The loops over a number of keys stay on the line if the keys are there. -/
theorem within_lineWords : (lineWords t i k).Within t.length ↔ k = 0 ∨ i + k ≤ t.length := by
  induction k generalizing i with
  | zero => simp [lineWords]
  | succ k ih =>
    simp only [lineWords, within_bind, within_lineWord, result_lineWord, within_pure, ih]
    constructor
    · rintro ⟨hi, hrest⟩
      have := hrest _ ⟨hi.le, rfl⟩
      omega
    · rintro (h | h)
      · cases h
      · exact ⟨by omega, fun _ _ => ⟨by omega, fun _ _ => trivial⟩⟩

variable {B : Type}

theorem within_lineNumber_bind {f : A → LineM B} : (lineNumber read t i >>= f).Within n ↔
    i < n ∧ ∀ a, numberAt read t i = some a → (f a).Within n := by
  simp only [within_bind, within_lineNumber, result_lineNumber]

theorem within_lineToken_bind {f : UInt64 → LineM B} : (lineToken t i >>= f).Within n ↔
    i < n ∧ ∀ l, numberAt mcStrtoll t i = some l → (f (.ofInt l)).Within n := by
  simp [within_bind]

theorem within_lineWord_bind : (lineWord t i >>= f).Within t.length ↔
    i < t.length ∧ (f (wordAt t i)).Within t.length := by
  simp only [within_bind, within_lineWord, result_lineWord]
  exact and_congr_right fun hi => ⟨fun h => h _ ⟨hi.le, rfl⟩, fun h a ha => ha.2 ▸ h⟩

theorem within_lineName_bind : (lineName max t i >>= f).Within t.length ↔
    i < t.length ∧ ((wordAt t i).length ≤ max → (f (wordAt t i)).Within t.length) := by
  simp only [within_bind, within_lineName, result_lineName]
  exact and_congr_right fun hi =>
    ⟨fun h hfits => h _ ⟨hi.le, hfits, rfl⟩, fun h a ha => ha.2.2 ▸ h ha.2.1⟩

theorem within_lineSubcommand_bind : (lineSubcommand t i >>= f).Within n ↔
    (i ≤ t.length → (f (wordAt t i)).Within n) := by
  simp only [within_bind, within_lineSubcommand, result_lineSubcommand, true_and]
  exact ⟨fun h hi => h _ ⟨hi, rfl⟩, fun h a ha => ha.2 ▸ h ha.1⟩

/-- Some server takes a configuration number. -/
theorem exists_server (cfg : Int) : ∃ server : Int, (cfg = -1 ∨ cfg = server) ∧ server ≠ -1 := by
  by_cases h : cfg = -1
  · exact ⟨0, .inl h, by decide⟩
  · exact ⟨cfg, .inr rfl, h⟩

/-- A walk behind the test of a configuration number, for every server. -/
theorem forall_within_config {f : Int → LineM B} :
    (∀ server : Int, (lineNumber mcStrtol t 1 >>= fun cfg => lineConfig server cfg >>= fun _ =>
        f cfg).Within n) ↔
      1 < n ∧ ∀ cfg, numberAt mcStrtol t 1 = some cfg → (f cfg).Within n := by
  simp only [within_bind, within_lineNumber, result_lineNumber, within_lineConfig,
    result_lineConfig, true_and]
  constructor
  · intro h
    refine ⟨(h 0).1, fun cfg hcfg => ?_⟩
    obtain ⟨server, hserver⟩ := exists_server cfg
    exact (h server).2 cfg hcfg () hserver
  · rintro ⟨hn, h⟩ server
    exact ⟨hn, fun cfg hcfg _ _ => h cfg hcfg⟩

end Walks

/-! ## The lines that are read past their end -/

/-- The number at a position can be read. -/
def Reads {A : Type} (read : Bytes → Option A) (t : List Token) (i : Nat) : Prop :=
  (numberAt read t i).isSome = true

/-- The name at a position is not too long. -/
def NameFits (max : Nat) (t : List Token) (i : Nat) : Prop := (wordAt t i).length ≤ max

/-- A field is taken from the terminal token or from behind it: that word is missing, and the words
before it are not refused.  A subcommand may be the terminal token, which is empty, but no entry
behind it. -/
def Overreads (noreply : Bool) (t : List Token) : Command → Prop
  | .storage .replace | .storage .append | .storage .prepend =>
    t.length = 6 ∧ Reads mcStrtol t 1 ∧ Reads mcStrtol t 2 ∧ NameFits keyMaxLen t 3 ∧
      Reads mcStrtoul t 4 ∧
      Reads mcStrtol t 5
  | .iqget => t.length = 4 ∧ Reads mcStrtol t 1 ∧ NameFits keyMaxLen t 2 ∧ Reads mcStrtoll t 3
  | .iset =>
    Reads mcStrtol t 1 ∧ NameFits keyMaxLen t 2 ∧
      (t.length = 3 ∨ t.length = 4 ∧ Reads mcStrtoll t 3)
  | .qaread => Reads mcStrtol t 1 ∧ NameFits keyMaxLen t 2 ∧ Reads mcStrtol t 3 ∧
      (t.length = 4 ∨ t.length = 5 ∧ Reads mcStrtoll t 4)
  | .commit => t.length = 4 ∧ Reads mcStrtol t 1 ∧ Reads mcStrtol t 2 ∧ NameFits tidMaxLen t 3
  | .oqread => t.length = 2
  | .oqincr | .oqdecr => t.length = 4 ∧ Reads mcStrtol t 1 ∧ NameFits keyMaxLen t 3
  | .flushall => noreply = false ∧ t.length = 2
  | .verbosity => t.length = 2
  | .check => ∃ num, numberAt mcStrtoll t 1 = some num ∧ 0 < num ∧ t.length < 2 + num
  | .ftrans => ∃ num, numberAt mcStrtoll t 2 = some num ∧ 0 < num ∧ t.length < 3 + num
  | .stats => t.length = 4 ∧ abbreviates (wordAt t 1) ['r', 'e', 's', 'e', 't'] = false ∧
      abbreviates (wordAt t 1) ['s', 'e', 't', 't', 'i', 'n', 'g', 's'] = false ∧
      abbreviates (wordAt t 1) ['c', 'a', 'c', 'h', 'e', 'd', 'u', 'm', 'p'] = true ∧
      Reads mcStrtoul t 3
  | .config => t.length < 2 ∨ t.length = 3 ∧
      (abbreviates (wordAt t 2) ['a', 'g', 'g', 'r', 'e', 'g', 'a', 't', 'e'] = true ∨
        abbreviates (wordAt t 2) ['k', 'l', 'o', 'g'] = true ∨
        abbreviates (wordAt t 2) ['e', 'v', 'i', 'c', 't'] = true)
  | _ => False

theorem reads_iff {A : Type} {read : Bytes → Option A} {t : List Token} :
    Reads read t i ↔ ∃ a, numberAt read t i = some a := isSome_iff_exists

/-- The fields of a walk are words of the line, and no entry behind the terminal token is looked
at. -/
structure OnLine {A : Type} (t : List Token) (x : LineM A) : Prop where
  within : x.Within t.length
  entries : x.result ≠ .error .fault

/-! ### One handler after the other -/

section Handlers

variable {t : List Token} {noreply : Bool}

theorem within_ascUpdateFields {cmd : UInt64 → UInt64 → Update} {type : Storage} (h : 6 ≤ t.length)
    (htype : type ∈ [.replace, .append, .prepend]) :
    (∀ server, (ascUpdateFields (pure 0) (pure 0) cmd server t).Within t.length) ↔
      ¬ Overreads noreply t (.storage type) := by
  have hover : Overreads noreply t (.storage type) = Overreads noreply t (.storage .replace) := by
    simp only [List.mem_cons, List.not_mem_nil, or_false] at htype
    rcases htype with rfl | rfl | rfl <;> rfl
  rw [hover]
  delta Overreads
  simp only [ascUpdateFields, within_lineName_bind, within_lineNumber_bind, pure_bind_eq,
    within_bind_pure, within_lineConfig, implies_true, and_true, forall_const, reads_iff, NameFits]
  grind

theorem within_ascIqgetFields (h : 4 ≤ t.length) :
    (∀ server, (ascIqgetFields server t).Within t.length) ↔ ¬ Overreads noreply t .iqget := by
  delta Overreads
  simp only [ascIqgetFields]
  rw [forall_within_config]
  simp only [within_lineName_bind, within_lineToken_bind, within_bind_pure, within_lineNumber,
    reads_iff, NameFits]
  grind

theorem within_ascIsetFields (h : 3 ≤ t.length) :
    (∀ server, (ascIsetFields server t).Within t.length) ↔ ¬ Overreads noreply t .iset := by
  delta Overreads
  simp only [ascIsetFields]
  rw [forall_within_config]
  simp only [within_lineName_bind, within_lineToken_bind, within_bind_pure, within_optional,
    decide_eq_true_eq, within_lineWord, reads_iff, NameFits]
  grind

theorem within_ascQareadFields (h : 4 ≤ t.length) :
    (∀ server, (ascQareadFields server t).Within t.length) ↔ ¬ Overreads noreply t .qaread := by
  delta Overreads
  have htoken : decide (4 < t.length + 1) = true := decide_eq_true (Nat.lt_succ_of_le h)
  simp only [ascQareadFields, htoken, optional_true]
  rw [forall_within_config]
  simp only [within_lineName_bind, within_lineNumber_bind, within_lineToken_bind, within_bind_pure,
    within_optional, decide_eq_true_eq, within_lineWord, reads_iff, NameFits]
  grind

theorem within_ascCommitFields (h : 4 ≤ t.length) :
    (∀ server, (ascCommitFields server t).Within t.length) ↔ ¬ Overreads noreply t .commit := by
  delta Overreads
  simp only [ascCommitFields, within_lineName_bind, within_lineNumber_bind, within_bind_pure,
    within_lineConfig, implies_true, and_true, forall_const, reads_iff, NameFits]
  grind

theorem within_ascOqDeltaFields {incr : Bool} (h : 4 ≤ t.length) :
    (∀ server, (ascOqDeltaFields incr server t).Within t.length) ↔
    ¬ Overreads noreply t .oqincr := by
  delta Overreads
  simp only [ascOqDeltaFields]
  rw [forall_within_config]
  simp only [within_lineName_bind, within_bind_pure, within_lineNumber, within_lineWord_bind,
    reads_iff, NameFits]
  grind

theorem within_ascCheckFields (h : 3 ≤ t.length) :
    (ascCheckFields t).Within t.length ↔ ¬ Overreads noreply t .check := by
  delta Overreads
  simp only [ascCheckFields, within_lineNumber_bind, within_bind_pure, within_lineWords]
  grind

theorem within_ascFtransFields (h : 3 ≤ t.length) :
    (ascFtransFields t).Within t.length ↔ ¬ Overreads noreply t .ftrans := by
  delta Overreads
  simp only [ascFtransFields, within_lineWord_bind, within_lineNumber_bind, within_bind_pure,
    within_lineWords]
  grind

/-- The walk behind a test of the settings, for all settings. -/
theorem forall_admin_within {f : Unit → LineM Action} :
    (∀ admin : Admin, (Walk.guard admin.stats Halt.serverError >>= f).Within n) ↔
    (f ()).Within n := by
  simp only [within_guard_bind]
  exact ⟨fun h => h ⟨true, true⟩ rfl, fun h _ _ => h⟩

theorem within_ascStatsFields (h : 1 ≤ t.length) (hmax : t.length ≤ 4) :
    (∀ admin, (ascStatsFields admin t).Within t.length) ↔ ¬ Overreads noreply t .stats := by
  delta Overreads
  simp only [ascStatsFields]
  rw [forall_admin_within]
  split
  · next hone => simp [show t.length = 1 by omega]
  · rw [within_lineSubcommand_bind]
    simp only [h, forall_const]
    split
    · next hreset => simp [hreset]
    · split
      · next hsettings => simp [hsettings]
      · split
        · next hreset hsettings hdump =>
          simp only [within_guard_bind, decide_eq_true_eq, within_lineNumber_bind,
            within_pure, reads_iff]
          grind
        · next hdump =>
          split <;> simp [hdump]

/-- The last word that the log commands look at is never there, and nothing abbreviates
everything. -/
theorem within_ascKlogNumber {least : Int} (h : t.length ≤ 4) :
    (ascKlogNumber t least).Within t.length := by
  rw [ascKlogNumber, within_lineSubcommand_bind]
  intro hle
  have hlast : wordAt t 4 = [] := by rw [wordAt, List.getElem?_eq_none h, elim_none]
  rw [hlast, if_pos (show abbreviates [] ['r', 'e', 's', 'e', 't'] = true from rfl)]
  exact within_pure _

theorem within_ascKlogFields : (ascKlogFields admin t).Within t.length := by
  rw [ascKlogFields, within_guard_bind, within_lineSubcommand_bind]
  intro hcount _
  rw [Bool.and_eq_true, decide_eq_true_eq, decide_eq_true_eq] at hcount
  have hmax : t.length ≤ 4 := Nat.le_of_succ_le_succ hcount.2
  split
  · simp only [within_guard_bind, within_lineSubcommand_bind, within_pure, implies_true]
  · split
    · exact within_ascKlogNumber hmax
    · split
      · exact within_ascKlogNumber hmax
      · exact within_stop _

theorem lineSubcommand_bind {B : Type} {f : Bytes → LineM B} (h : i ≤ t.length) :
    (lineSubcommand t i >>= f) = f (wordAt t i) := by
  have hentry : (lineSubcommand t i).result = .ok (wordAt t i) := result_lineSubcommand.mpr ⟨h, rfl⟩
  exact Walk.ext (used_bind_of_ok hentry) (result_bind_of_ok hentry)

theorem onLine_ascAggregateFields : OnLine t (ascAggregateFields t) ↔ t.length ≠ 3 := by
  have havoids : (ascAggregateFields t).Avoids t.length .fault :=
    avoids_bind (avoids_guard _ (by decide)) fun _ => avoids_bind avoids_lineNumber fun _ =>
      avoids_pure _
  have hwithin : (ascAggregateFields t).Within t.length ↔ t.length ≠ 3 := by
    simp only [ascAggregateFields, within_guard_bind, decide_eq_true_eq, within_bind_pure,
      within_lineNumber]
    omega
  exact ⟨fun h => hwithin.mp h.within, fun h => ⟨hwithin.mpr h, havoids (hwithin.mpr h)⟩⟩

theorem onLine_ascEvictFields : OnLine t (ascEvictFields t) ↔ t.length ≠ 3 := by
  have havoids : (ascEvictFields t).Avoids t.length .fault :=
    avoids_bind (avoids_guard _ (by decide)) fun _ => avoids_bind avoids_lineNumber fun _ =>
      avoids_bind (avoids_guard _ (by decide)) fun _ => avoids_pure _
  have hwithin : (ascEvictFields t).Within t.length ↔ t.length ≠ 3 := by
    simp only [ascEvictFields, within_guard_bind, decide_eq_true_eq, within_lineNumber_bind,
      within_pure, implies_true, and_true]
    omega
  exact ⟨fun h => hwithin.mp h.within, fun h => ⟨hwithin.mpr h, havoids (hwithin.mpr h)⟩⟩

theorem avoids_ascKlogNumber {least : Int} (h : 4 ≤ t.length) :
    (ascKlogNumber t least).Avoids t.length .fault := by
  refine avoids_bind (avoids_lineSubcommand h) fun _ => ?_
  split
  · exact avoids_pure _
  · exact avoids_bind avoids_lineNumber fun _ => avoids_bind (avoids_guard _ (by decide)) fun _ =>
      avoids_pure _

theorem avoids_ascKlogFields (h : 4 ≤ t.length) :
    (ascKlogFields admin t).Avoids t.length .fault := by
  refine avoids_bind (avoids_guard _ (by decide)) fun _ =>
    avoids_bind (avoids_lineSubcommand (Nat.le_of_succ_le h)) fun _ => ?_
  split
  · exact avoids_bind (avoids_guard _ (by decide)) fun _ =>
      avoids_bind (avoids_lineSubcommand h) fun _ =>
      avoids_bind (avoids_guard _ (by decide)) fun _ => avoids_pure _
  · split
    · exact avoids_ascKlogNumber h
    · split
      · exact avoids_ascKlogNumber h
      · exact avoids_stop (by decide)

/-- `config x klog` is taken for `run` and goes on to look at the word behind the terminal token. -/
theorem onLine_ascKlogFields (h : 3 ≤ t.length) : (∀ admin, OnLine t (ascKlogFields admin t)) ↔
      t.length ≠ 3 := by
  constructor
  · intro hsafe hthree
    refine (hsafe { klog := true }).entries ?_
    have hlast : wordAt t 3 = [] := by rw [wordAt, List.getElem?_eq_none hthree.le, elim_none]
    have hcount : (decide (Command.config.bounds.1.1 ≤ t.length + 1) &&
        decide (t.length + 1 ≤ Command.config.bounds.1.2)) = true := by
      rw [hthree]
      rfl
    rw [ascKlogFields, hcount]
    show ((lineSubcommand t 3 >>= _ : LineM Action)).result = _
    rw [lineSubcommand_bind h, hlast]
    show ((lineSubcommand t 4 >>= _ : LineM Action)).result = _
    refine result_bind_of_error ?_
    rw [lineSubcommand, entry, if_neg (by omega)]
  · exact fun hne admin => ⟨within_ascKlogFields,
      avoids_ascKlogFields (by omega) within_ascKlogFields⟩

theorem onLine_ascConfigFields :
    (∀ admin, OnLine t (ascConfigFields admin t)) ↔ ¬ Overreads noreply t .config := by
  delta Overreads
  by_cases hsub : 2 ≤ t.length
  · rw [or_iff_right (Nat.not_lt.mpr hsub)]
    simp only [ascConfigFields, lineSubcommand_bind hsub]
    split
    · next haggregate => simp [onLine_ascAggregateFields, haggregate]
    · next haggregate =>
      split
      · next hklog =>
        -- the terminal token would have been taken for `aggregate`
        have hlen : t.length ≠ 2 := fun htwo =>
          haggregate (by rw [wordAt, List.getElem?_eq_none htwo.le]; rfl)
        simp [onLine_ascKlogFields (by omega : 3 ≤ t.length), hklog]
      · next hklog =>
        split
        · next hevict => simp [onLine_ascEvictFields, hevict]
        · next hevict =>
          have hstop : OnLine t (stop Halt.silent : LineM Action) := ⟨within_stop _, by simp⟩
          simp [haggregate, hklog, hevict, hstop]
  · refine iff_of_false (fun h => (h {}).entries (result_bind_of_error ?_))
      (not_not.mpr (.inl (by omega)))
    rw [lineSubcommand, entry, if_neg hsub]

theorem within_ascOqreadFields (h : 2 ≤ t.length) :
    (Int → (ascOqreadFields t).Within t.length) ↔ ¬ Overreads noreply t .oqread := by
  delta Overreads
  simp only [ascOqreadFields, within_lineWord_bind, within_bind_pure, within_lineName, forall_const]
  grind

theorem within_ascFlushallFields (hacc : Command.flushall.accepts noreply (t.length + 1) = true) :
    (Int → (ascFlushallFields noreply t).Within t.length) ↔ ¬ Overreads noreply t .flushall := by
  delta Overreads
  cases noreply <;>
    simp only [Command.accepts, Command.bounds, Bool.and_eq_true, decide_eq_true_eq,
      Bool.false_eq_true, if_false, if_true] at hacc <;> simp only [ascFlushallFields,
    Command.bounds, Bool.false_eq_true, if_false, if_true, forall_const] <;> split <;>
      simp only [within_pure, within_bind_pure, within_lineNumber] <;> grind

theorem within_ascVerbosityFields (hacc : Command.verbosity.accepts noreply (t.length + 1) = true) :
    (ascVerbosityFields t).Within t.length ↔ ¬ Overreads noreply t .verbosity := by
  delta Overreads
  simp only [Command.accepts, Bool.or_eq_true, decide_eq_true_eq] at hacc
  simp only [ascVerbosityFields, within_bind_pure, within_lineNumber]
  omega

end Handlers

section Within

variable {server : Int} {noreply : Bool} {command : Bytes} {t : List Token} {cmd : Command}

/-- The number of entries of the table that a handler may use for a request. -/
def Command.reach : Command → Nat
  | storage .iqset | storage .swap => 8
  | storage .iqappend | storage .iqprepend => 5
  | storage .oqswap | storage .oqwrite => 6
  | storage .oqappend | storage .oqprepend => 4
  | storage _ => 7
  | qaread => 6
  | iqget | iset | commit | oqincr | oqdecr => 5
  | incr | decr | unlease | qareg | iqincr | iqdecr | ciget => 4
  | delete | dar | oqreg | oqread | flushall => 3
  | _ => 2

/-- The least number of tokens of a line that is accepted, with or without `noreply`. -/
theorem Command.least_le (h : cmd.accepts noreply n = true)
    (hcmd : cmd ∉ [.verbosity, .config, .version, .quit]) :
    Nat.min cmd.bounds.1.1 cmd.bounds.2.1 ≤ n := by
  have hbounds : (if noreply then cmd.bounds.2 else cmd.bounds.1).1 ≤ n := by
    cases cmd with
    | verbosity | config | version | quit => exact absurd (by decide) hcmd
    | getprik => cases h
    | _ => exact of_decide_eq_true (Bool.and_eq_true_iff.mp h).1
  cases noreply
  · exact (Nat.min_le_left _ _).trans hbounds
  · exact (Nat.min_le_right _ _).trans hbounds

/-- A handler stays within its reach. -/
theorem within_reach (h : ascRequestFields server noreply command t cmd = some fields) :
    fields.Within cmd.reach := by
  cases cmd with
  | storage type =>
    obtain rfl := some.inj h
    cases type <;>
      simp [ascStorageFields, ascUpdateFields, ascSarFields, ascSwapFields, ascIqConcatFields,
        ascOqwriteFields, ascOqConcatFields, Command.reach, within_bind]
  | quit | stats | config | version | verbosity | check | ftrans | getprik => cases h
  | flushall =>
    obtain rfl := some.inj h
    rw [ascFlushallFields]
    split <;> split <;> simp [Command.reach, within_bind]
  | _ =>
    obtain rfl := some.inj h
    simp [ascReadFields, ascArithmeticFields, ascDeleteFields, ascUnleaseFields, ascQaregFields,
      ascDarFields, ascQareadFields, ascIqDeltaFields, ascOqDeltaFields, ascCommitFields,
      ascReleaseFields, ascIqgetFields, ascIsetFields, ascCigetFields, ascOqreadFields,
      ascOqregFields, Command.reach, within_bind]

/-- The walk of a request is the walk over its fields. -/
theorem within_ascFields_of_some (h : ascRequestFields server noreply command (ascTokenize command)
      cmd = some fields) :
    (ascFields admin server noreply command cmd).Within n ↔ fields.Within n := by
  simp only [ascFields, h, within_bind, within_pure, implies_true, and_true]

/-- A handler looks at the entries behind the terminal token only if it uses one of them. -/
theorem avoids_ascRequestFields (h : ascRequestFields server noreply command t cmd = some fields) :
    fields.Avoids t.length .fault := by
  cases cmd with
  | storage type =>
    obtain rfl := some.inj h
    cases type <;>
      simp [ascStorageFields, ascUpdateFields, ascSarFields, ascSwapFields, ascIqConcatFields,
        ascOqwriteFields, ascOqConcatFields, avoids_bind_iff]
  | quit | stats | config | version | verbosity | check | ftrans | getprik => cases h
  | flushall =>
    obtain rfl := some.inj h
    rw [ascFlushallFields]
    split <;> split <;> simp [avoids_bind_iff]
  | _ =>
    obtain rfl := some.inj h
    simp [ascReadFields, ascArithmeticFields, ascDeleteFields, ascUnleaseFields, ascQaregFields,
      ascDarFields, ascQareadFields, ascIqDeltaFields, ascOqDeltaFields, ascCommitFields,
      ascReleaseFields, ascIqgetFields, ascIsetFields, ascCigetFields, ascOqreadFields,
      ascOqregFields, avoids_bind_iff, avoids_optional]

theorem avoids_ascStatsFields (h : 1 ≤ t.length) :
    (ascStatsFields admin t).Avoids t.length .fault := by
  refine avoids_bind (avoids_guard _ (by decide)) fun _ => ?_
  split
  · exact avoids_pure _
  · refine avoids_bind (avoids_lineSubcommand h) fun _ => ?_
    repeat' split
    all_goals simp [avoids_bind_iff, avoids_guard, avoids_stop]

theorem avoids_ascFields (hacc : cmd.accepts noreply ((ascTokenize command).length + 1) = true)
    (hcmd : cmd ≠ .config) :
    (ascFields admin server noreply command cmd).Avoids (ascTokenize command).length .fault := by
  cases h : ascRequestFields server noreply command (ascTokenize command) cmd with
  | some fields =>
    simp only [ascFields, h]
    exact avoids_bind (avoids_ascRequestFields h) fun _ => avoids_pure _
  | none =>
    simp only [ascFields, h]
    cases cmd with
    | stats =>
      exact avoids_ascStatsFields (Nat.le_of_succ_le_succ (Command.least_le hacc (by decide)))
    | config => exact absurd rfl hcmd
    | quit | version => exact avoids_pure _
    | verbosity => exact avoids_bind avoids_lineNumber fun _ => avoids_pure _
    | check =>
      exact avoids_bind avoids_lineNumber fun _ => avoids_bind avoids_lineWords fun _ =>
        avoids_pure _
    | ftrans =>
      exact avoids_bind avoids_lineWord fun _ => avoids_bind avoids_lineNumber fun _ =>
        avoids_bind avoids_lineWords fun _ => avoids_pure _
    | _ => exact avoids_stop (by decide)

/-- Which lines are read past their end. -/
theorem within_iff (hacc : cmd.accepts noreply ((ascTokenize command).length + 1) = true)
    (hcmd : cmd ≠ .config) :
    (∀ admin server, (ascFields admin server noreply command cmd).Within
        (ascTokenize command).length) ↔
      ¬ Overreads noreply (ascTokenize command) cmd := by
  -- a request whose words are all there
  have hsafe {cmd : Command} (fields : Int → LineM Request)
      (hfields : ∀ server, ascRequestFields server noreply command (ascTokenize command) cmd = some
        (fields server))
      (hmin : Nat.min cmd.bounds.1.1 cmd.bounds.2.1 ≤ (ascTokenize command).length + 1)
      (hreach : cmd.reach + 1 ≤ Nat.min cmd.bounds.1.1 cmd.bounds.2.1) (admin : Admin)
        (server : Int) : (ascFields admin server noreply command cmd).Within
        (ascTokenize command).length := by
    rw [within_ascFields_of_some (hfields server)]
    exact (within_reach (hfields server)).mono (Nat.le_of_succ_le_succ (hreach.trans hmin))
  -- a request whose words may be missing
  have hrequest {cmd : Command} (fields : Int → LineM Request)
      (hfields : ∀ server, ascRequestFields server noreply command (ascTokenize command) cmd = some
        (fields server)) : (∀ admin server, (ascFields admin server noreply command cmd).Within
        (ascTokenize command).length) ↔
        ∀ server, (fields server).Within (ascTokenize command).length :=
    ⟨fun h server => (within_ascFields_of_some (hfields server)).mp (h {} server),
      fun h _ server => (within_ascFields_of_some (hfields server)).mpr (h server)⟩
  cases cmd with
  | storage type =>
    have hmin := Command.least_le hacc (by simp)
    cases type with
    | replace | append | prepend =>
      rw [hrequest _ fun _ => rfl]
      exact within_ascUpdateFields (Nat.le_of_succ_le_succ hmin) (by decide)
    | _ => exact iff_of_true (hsafe _ (fun _ => rfl) hmin (by decide)) id
  | iqget =>
    rw [hrequest _ fun _ => rfl]
    exact within_ascIqgetFields (Nat.le_of_succ_le_succ (Command.least_le hacc (by decide)))
  | iset =>
    rw [hrequest _ fun _ => rfl]
    exact within_ascIsetFields (Nat.le_of_succ_le_succ (Command.least_le hacc (by decide)))
  | qaread =>
    rw [hrequest _ fun _ => rfl]
    exact within_ascQareadFields (Nat.le_of_succ_le_succ (Command.least_le hacc (by decide)))
  | commit =>
    rw [hrequest _ fun _ => rfl]
    exact within_ascCommitFields (Nat.le_of_succ_le_succ (Command.least_le hacc (by decide)))
  | oqincr | oqdecr =>
    rw [hrequest _ fun _ => rfl]
    show _ ↔ ¬ Overreads noreply (ascTokenize command) .oqincr
    exact within_ascOqDeltaFields (Nat.le_of_succ_le_succ (Command.least_le hacc (by decide)))
  | oqread =>
    rw [hrequest _ fun _ => rfl]
    exact within_ascOqreadFields (Nat.le_of_succ_le_succ (Command.least_le hacc (by decide)))
  | flushall =>
    rw [hrequest _ fun _ => rfl]
    exact within_ascFlushallFields hacc
  | verbosity => exact ⟨fun h => (within_ascVerbosityFields hacc).mp (h {} 0),
      fun h _ _ => (within_ascVerbosityFields hacc).mpr h⟩
  | check =>
    have hlen := Nat.le_of_succ_le_succ (Command.least_le hacc (by decide))
    exact ⟨fun h => (within_ascCheckFields hlen).mp (h {} 0),
      fun h _ _ => (within_ascCheckFields hlen).mpr h⟩
  | ftrans =>
    have hlen := Nat.le_of_succ_le_succ (Command.least_le hacc (by decide))
    exact ⟨fun h => (within_ascFtransFields hlen).mp (h {} 0),
      fun h _ _ => (within_ascFtransFields hlen).mpr h⟩
  | stats =>
    have hlen := Nat.le_of_succ_le_succ (Command.least_le hacc (by decide))
    have hmax : (ascTokenize command).length ≤ 4 := by
      cases noreply <;> exact Nat.le_of_succ_le_succ
        (of_decide_eq_true (Bool.and_eq_true_iff.mp hacc).2)
    exact ⟨fun h => (within_ascStatsFields hlen hmax).mp fun admin => h admin 0,
      fun h admin _ => (within_ascStatsFields hlen hmax).mpr h admin⟩
  | config => exact absurd rfl hcmd
  | quit | version => exact iff_of_true (fun _ _ => within_pure _) id
  | getprik => cases hacc
  | _ =>
    exact iff_of_true (hsafe _ (fun _ => rfl) (Command.least_le hacc (by decide)) (by decide)) id

theorem onLine_iff (hacc : cmd.accepts noreply ((ascTokenize command).length + 1) = true) :
    (∀ admin server, OnLine (ascTokenize command) (ascFields admin server noreply command cmd)) ↔
      ¬ Overreads noreply (ascTokenize command) cmd := by
  by_cases hcmd : cmd = .config
  · subst hcmd
    rw [← onLine_ascConfigFields]
    exact ⟨fun h admin => h admin 0, fun h admin _ => h admin⟩
  · rw [← within_iff hacc hcmd]
    exact ⟨fun h admin server => (h admin server).within,
      fun h admin server => ⟨h admin server, avoids_ascFields hacc hcmd (h admin server)⟩⟩

end Within

/-! ## Keys that are taken in a loop -/

/-- The words of a line, however many there are. -/
def words (command : Bytes) : List Bytes := (scanTokens command 0 command).map Token.text

section Words

variable {command s e : Bytes} {k : Nat} {w : Token}

/-- Behind a token the line goes on with the tokens of the rest. -/
theorem drop_scanTokens (he : s.drop n = e) (hw : (scanTokens s n e)[k]? = some w) :
    (scanTokens s n e).drop (k + 1) = scanTokens (w.val.drop w.len).tail 0
      (w.val.drop w.len).tail := by
  induction e generalizing s n k with
  | nil =>
    rw [scanTokens] at hw ⊢
    split at hw
    · next hn =>
      rw [if_pos hn]
      obtain ⟨rfl, rfl⟩ : k = 0 ∧ ⟨s, n⟩ = w := by simpa [List.getElem?_cons] using hw
      simp [he, scanTokens]
    · cases hw
  | cons b e ih =>
    have hnext : s.drop (n + 1) = e := by rw [← drop_drop, he, drop_one, tail_cons]
    rw [scanTokens] at hw ⊢
    split at hw
    · next hb =>
      rw [if_pos hb]
      split at hw
      · next hn =>
        rw [if_pos hn]
        cases k with
        | zero =>
          cases hw
          simp [he]
        | succ k => exact ih rfl hw
      · next hn =>
        rw [if_neg hn]
        exact ih rfl hw
    · next hb =>
      rw [if_neg hb]
      exact ih hnext hw

/-- A token is part of the line and not empty. -/
theorem length_of_mem_scanTokens (he : s.drop n = e) (hw : w ∈ scanTokens s n e) :
    w.val.length ≤ s.length ∧ w.len ≠ 0 := by
  induction e generalizing s n with
  | nil =>
    rw [scanTokens] at hw
    split at hw
    · next hn =>
      obtain rfl := mem_singleton.mp hw
      exact ⟨le_rfl, hn⟩
    · cases hw
  | cons b e ih =>
    have hnext : s.drop (n + 1) = e := by rw [← drop_drop, he, drop_one, tail_cons]
    have hle : e.length ≤ s.length := by
      rw [← hnext, length_drop]
      exact Nat.sub_le _ _
    rw [scanTokens] at hw
    split at hw
    · split at hw
      · next hn =>
        rcases mem_cons.mp hw with rfl | hw
        · exact ⟨le_rfl, hn⟩
        · exact ⟨(ih rfl hw).1.trans hle, (ih rfl hw).2⟩
      · exact ⟨(ih rfl hw).1.trans hle, (ih rfl hw).2⟩
    · exact ih hnext hw

/-- The loops over keys go through all words of the line, although the table of tokens may be
shorter. -/
theorem ascKeys_eq {fuel : Nat} (hi : i ≤ tokenMax - 1) (hfuel : command.length < fuel) :
    ascKeys fuel command i = (words command).drop i := by
  induction fuel generalizing command i with
  | zero => cases hfuel
  | succ fuel ih =>
    have hget : (ascTokenize command)[tokenMax - 2]? =
      (scanTokens command 0 command)[tokenMax - 2]? :=
      List.getElem?_take_of_lt (by decide)
    rw [ascKeys, terminal, hget, words, ← map_drop]
    cases hw : (scanTokens command 0 command)[tokenMax - 2]? with
    | none =>
      have hshort : (scanTokens command 0 command).length ≤ tokenMax - 1 :=
        (List.getElem?_eq_none_iff.mp hw).trans (by decide)
      rw [ascTokenize, take_of_length_le hshort]
      exact append_nil _
    | some w =>
      have hrest := drop_scanTokens (s := command) (n := 0) rfl hw
      rw [drop_zero] at hrest
      have hlen := length_of_mem_scanTokens rfl (mem_of_getElem? hw)
      have hlong : i ≤ ((scanTokens command 0 command).take (tokenMax - 1)).length := by
        have hlt := (List.getElem?_eq_some_iff.mp hw).1
        rw [length_take]
        simp only [tokenMax] at hi hlt ⊢
        omega
      have hsplit : (scanTokens command 0 command).drop i =
          (ascTokenize command).drop i ++ (scanTokens command 0 command).drop (tokenMax - 1) := by
        rw [ascTokenize, ← drop_append_of_le_length hlong, take_append_drop]
      rw [hsplit, map_append, bind_some]
      congr 1
      rw [show tokenMax - 1 = tokenMax - 2 + 1 from rfl, hrest]
      generalize hr : (w.val.drop w.len).tail = rest
      dsimp only
      split
      · next hnil => simp [hnil, scanTokens]
      · next hne =>
        have hshorter : rest.length < fuel := by
          have hpos := length_pos_of_ne_nil hne
          rw [← hr, length_tail, length_drop] at hpos ⊢
          omega
        exact ih (Nat.zero_le _) hshorter

end Words

/-! ## Answers -/

/-- The keys that a handler takes in a loop over the line. -/
def Action.loopKeys : Action → List Bytes
  | .request (.get _ _ keys) | .request (.delete _ _ keys) => keys
  | _ => []

/-- The request takes its keys in a loop over the line. -/
def Request.loops : Request → Bool
  | .get .. | .delete .. => true
  | _ => false

/-- The answer is made of variables that have been written to.  There are two handlers where this is
not clear: `asc_process_delete` answers with the result for the last key, and
`asc_process_oqincr_oqdecr` with the number that `mc_strtoull_len` has found in the pending
version. -/
def Request.ReplySet (c : Settings) (s : Server) : Request → Prop
  | .delete _ _ keys => keys ≠ []
  | .oqDelta incr _ sid key delta => ∀ amount, mcStrtoull delta = some amount →
      wlp (itemOqincrOqdecr incr sid key amount) (fun r _ => r ≠ (.ok, none)) c s
  -- `markedVal` and `new_lease_token` are set by all paths of the calls that they are given to
  | .qareg .. | .qaread .. => True
  -- the token and the item are set where they are declared
  | .iqget .. | .iset .. | .ciget .. | .oqread .. | .iqDelta .. => True
  -- the new number is printed before the call returns that there is one
  | .arithmetic .. => True
  -- the values are written as they are found
  | .get .. => True
  -- the answer is what one call has returned, or what it returns once the body has arrived
  | .unlease .. | .dar .. | .commit .. | .release .. | .oqreg .. | .dcommit .. | .coUnlease
      .. | .validate ..
  | .update .. | .sar .. | .swap .. | .iqConcat .. | .oqswap .. | .oqwrite .. | .oqConcat .. => True
  -- the answer is fixed
  | .flushall .. | .updateConfiguration .. => True

/-- The line of a deletion without a key. -/
def Unset (t : List Token) (cmd : Command) : Prop :=
  cmd = .delete ∧ t.length = 3 ∧ Reads mcStrtol t 1 ∧ Reads mcStrtol t 2

section Answers

variable {c : Settings} {s : Server} {server : Int} {noreply : Bool} {command : Bytes}
  {t : List Token} {cmd : Command}

/-- What `mc_strtoull_len` leaves when there is a text. -/
theorem mcStrtoullOut_ne_none {data : Bytes} (h : data ≠ []) : mcStrtoullOut data ≠ none := by
  rw [mcStrtoullOut, if_neg (mt length_eq_zero_iff.mp h)]
  exact some_ne_none _

/-- A pending version is never empty, so there is always something to answer with. -/
theorem wlp_itemOqincrOqdecr_ne {incr : Bool} {sid key : Bytes} {delta : UInt64} (hs : s.Kept) :
    wlp (itemOqincrOqdecr incr sid key delta) (fun r _ => r ≠ (.ok, none)) c s := by
  rw [itemOqincrOqdecr, wlp_bind]
  refine ((stable_kept c).keeps_itemOqDelta_add (b := 0) incr delta trivial trivial s hs).mono
    fun ret s₁ hs₁ => ?_
  rw [wlp_bind, itemGetPendingVersion, wlp_itemGet]
  cases hpv : s₁.live (versionKey key) with
  | none => cases ret <;> simp
  | some pvIt =>
    cases ret with
    | ok =>
      rw [wlp_pure]
      have hkept := hs₁ _ pvIt (Server.live_eq_some.mp hpv).1
      have hprefix : versionKey [] <+: pvIt.key := Server.key_of_live hpv ▸ ⟨key, rfl⟩
      exact fun h => mcStrtoullOut_ne_none (hkept.version hprefix) (Prod.mk.inj h).2
    | _ => simp

theorem Request.replySet {req : Request} (hs : s.Kept)
    (h : ∀ cfg deleteLease keys, req = .delete cfg deleteLease keys → keys ≠ []) :
    req.ReplySet c s := by
  cases req with
  | delete cfg deleteLease keys => exact h cfg deleteLease keys rfl
  | oqDelta incr cfg sid key delta => exact fun _ _ => wlp_itemOqincrOqdecr_ne hs
  | _ => trivial

/-- Only three commands loop over their line. -/
theorem ends_of_not_loops (h : ascRequestFields server noreply command t cmd = some fields)
    (hcmd : cmd ∉ [.get, .gets, .delete]) : fields.Ends fun r => r.loops = false := by
  cases cmd with
  | get | gets | delete => exact absurd (by decide) hcmd
  | quit | stats | config | version | verbosity | check | ftrans | getprik => cases h
  | storage type =>
    obtain rfl := some.inj h
    cases type <;>
      simp [ascStorageFields, ascUpdateFields, ascSarFields, ascSwapFields, ascIqConcatFields,
        ascOqwriteFields, ascOqConcatFields, ends_bind, Request.loops]
  | flushall =>
    obtain rfl := some.inj h
    rw [ascFlushallFields]
    split <;> split <;> simp [ends_bind, Request.loops]
  | _ =>
    obtain rfl := some.inj h
    simp [ascArithmeticFields, ascUnleaseFields, ascQaregFields, ascDarFields, ascQareadFields,
      ascIqDeltaFields, ascOqDeltaFields, ascCommitFields, ascReleaseFields, ascIqgetFields,
      ascIsetFields, ascCigetFields, ascOqreadFields, ascOqregFields, ends_bind, Request.loops]

/-- The keys that are taken in a loop are words of the line; a deletion takes all of them from the
third on. -/
structure Action.FromLine (command : Bytes) (cmd : Command) (a : Action) : Prop where
  keys : ∀ key ∈ a.loopKeys, key ∈ words command
  delete : ∀ cfg deleteLease keys, a = .request (.delete cfg deleteLease keys) → cmd = .delete ∧
    Reads mcStrtol (ascTokenize command) 1 ∧ Reads mcStrtol (ascTokenize command) 2 ∧
      keys = (words command).drop 3

theorem Action.fromLine_of_not_loops {r : Request} (h : r.loops = false) :
    (Action.request r).FromLine command cmd := by
  cases r with
  | get | delete => cases h
  | _ => exact ⟨fun _ hkey => absurd hkey not_mem_nil, nofun⟩

theorem ends_ascReadFields {cas : Bool} : (ascReadFields cas server command t).Ends fun r =>
    (Action.request r).FromLine command cmd := by
  simp only [ascReadFields, ends_bind, ends_pure]
  intro cfg _ _ _
  refine ⟨fun key hkey => ?_, by simp⟩
  rw [Action.loopKeys, ascKeys_eq (by decide) (Nat.lt_succ_self _)] at hkey
  exact mem_of_mem_drop hkey

theorem ends_ascDeleteFields : (ascDeleteFields server command (ascTokenize command)).Ends fun r =>
    (Action.request r).FromLine command .delete := by
  simp only [ascDeleteFields, ends_bind, ends_pure]
  intro cfg hcfg _ _ deleteLease hdel
  have hkeys : ascKeys (command.length + 1) command 3 = (words command).drop 3 :=
    ascKeys_eq (by decide) (Nat.lt_succ_self _)
  refine ⟨fun key hkey => ?_, fun _ _ _ h => ?_⟩
  · rw [Action.loopKeys, hkeys] at hkey
    exact mem_of_mem_drop hkey
  · cases h
    exact ⟨rfl, reads_iff.mpr ⟨cfg, result_lineNumber.mp hcfg⟩,
      reads_iff.mpr ⟨deleteLease, result_lineNumber.mp hdel⟩, hkeys⟩

theorem ends_ascRequestFields (h : ascRequestFields server noreply command (ascTokenize command)
      cmd = some fields) :
    fields.Ends fun r => (Action.request r).FromLine command cmd := by
  by_cases hcmd : cmd ∈ [.get, .gets, .delete]
  · simp only [List.mem_cons, List.not_mem_nil, or_false] at hcmd
    rcases hcmd with rfl | rfl | rfl
    · exact Option.some.inj h ▸ ends_ascReadFields
    · exact Option.some.inj h ▸ ends_ascReadFields
    · exact Option.some.inj h ▸ ends_ascDeleteFields
  · exact (ends_of_not_loops h hcmd).mono fun r => Action.fromLine_of_not_loops

/-- The other handlers make no requests to the store. -/
theorem ends_of_none (h : ascRequestFields server noreply command (ascTokenize command)
      cmd = none) :
    (ascFields admin server noreply command cmd).Ends fun a => ∀ r, a ≠ .request r := by
  simp only [ascFields, h]
  cases cmd with
  | stats =>
    simp only [ascStatsFields, ends_bind]
    intro _ _
    split
    · simp
    · refine ends_bind.mpr fun sub _ => ?_
      dsimp only
      split
      · simp
      split
      · simp
      split
      · simp [ends_bind]
      split <;> simp
  | config =>
    refine ends_bind.mpr fun sub _ => ?_
    dsimp only
    split
    · simp [ascAggregateFields, ends_bind]
    split
    · simp only [ascKlogFields, ends_bind]
      intro _ _ cmd _
      split
      · simp [ends_bind]
      split
      · refine ends_bind.mpr fun sub _ => ?_
        dsimp only
        split <;> simp [ends_bind]
      split
      · refine ends_bind.mpr fun sub _ => ?_
        dsimp only
        split <;> simp [ends_bind]
      · simp
    split
    · simp [ascEvictFields, ends_bind]
    · simp
  | verbosity => simp [ascVerbosityFields, ends_bind]
  | check => simp [ascCheckFields, ends_bind]
  | ftrans => simp [ascFtransFields, ends_bind]
  | _ => simp

theorem ends_ascFields : (ascFields admin server noreply command cmd).Ends
      (Action.FromLine command cmd) := by
  cases h : ascRequestFields server noreply command (ascTokenize command) cmd with
  | none =>
    refine (ends_of_none h).mono fun a ha => ?_
    cases a with
    | request r => exact absurd rfl (ha r)
    | _ => exact ⟨fun _ hkey => absurd hkey not_mem_nil, nofun⟩
  | some fields =>
    simp only [ascFields, h, ends_bind, ends_pure]
    exact ends_ascRequestFields h

end Answers

/-! ## Safe lines -/

/-- The line is handled with its own words, and answered with what has been computed, in every state
that the server can reach. -/
structure FieldSafe (noreply : Bool) (command : Bytes) (cmd : Command) : Prop where
  fields : ∀ admin server, OnLine (ascTokenize command) (ascFields admin server noreply command cmd)
  keys : ∀ admin server a, (ascFields admin server noreply command cmd).result = .ok a →
    ∀ key ∈ a.loopKeys, key ∈ words command
  reply : ∀ c h w admin req, (service c).Run h w →
    (ascFields admin w.server.configurationNumber noreply command cmd).result = .ok (.request req) →
      req.ReplySet c w.server

section Safe

variable {noreply flag : Bool} {command : Bytes} {cmd : Command}

theorem accepts_of_ascHandler (h : ascHandler flag command = some (cmd, noreply)) :
    cmd.accepts noreply ((ascTokenize command).length + 1) = true := by
  obtain ⟨cmd', -, h⟩ := bind_eq_some_iff.mp h
  dsimp only at h
  split at h
  · next hacc =>
    cases h
    exact hacc
  · cases h

/-- A server can get any configuration number. -/
theorem exists_run_configurationNumber (c : Settings) (server : Int) :
    ∃ h w, (service c).Run h w ∧ w.server.configurationNumber = server := by
  have hstep : World.Step c .start (.line 0 (.updateConfiguration server) (.reply .ok)) _ :=
    .line rfl rfl
  exact ⟨_, _, .step (.init rfl) hstep, rfl⟩

/-- The handler of a deletion without a key goes on to answer. -/
theorem result_ascFields_delete {cfg deleteLease server : Int}
    (hcfg : numberAt mcStrtol (ascTokenize command) 1 = some cfg)
    (hdel : numberAt mcStrtol (ascTokenize command) 2 = some deleteLease)
    (hserver : (cfg = -1 ∨ cfg = server) ∧ server ≠ -1) :
    (ascFields admin server noreply command .delete).result = .ok
      (.request (.delete cfg deleteLease ((words command).drop 3))) := by
  have hkeys : ascKeys (command.length + 1) command 3 = (words command).drop 3 :=
    ascKeys_eq (by decide) (Nat.lt_succ_self _)
  simp only [ascFields, ascRequestFields, ascDeleteFields, result_bind_eq_ok_iff, result_lineNumber,
    result_lineConfig, result_pure, hkeys]
  exact ⟨_, ⟨cfg, hcfg, (), hserver, deleteLease, hdel, rfl⟩, rfl⟩

/-- The words of a deletion from the third on are its keys. -/
theorem drop_words_eq_nil_iff (h : 3 ≤ (ascTokenize command).length) :
    (words command).drop 3 = [] ↔ (ascTokenize command).length = 3 := by
  have hlen : (ascTokenize command).length = min (tokenMax - 1)
    (scanTokens command 0 command).length :=
    length_take
  rw [drop_eq_nil_iff, words, length_map]
  simp only [tokenMax] at hlen
  omega

/-- A line is handled with its own words and answered with what has been computed, unless it is one
of the listed ones. -/
theorem field_safe_iff (line : Bytes) (flag noreply : Bool) (cmd : Command)
    (hcmd : ascHandler flag (ascCommand line) = some (cmd, noreply)) :
    FieldSafe noreply (ascCommand line) cmd ↔
      ¬ Overreads noreply (ascTokenize (ascCommand line)) cmd ∧
      ¬ Unset (ascTokenize (ascCommand line)) cmd := by
  have hacc := accepts_of_ascHandler hcmd
  generalize ascCommand line = command at hacc ⊢
  have hlen : cmd = .delete → 3 ≤ (ascTokenize command).length := by
    rintro rfl
    exact Nat.le_of_succ_le_succ (Command.least_le hacc (by decide))
  constructor
  · intro hsafe
    refine ⟨(onLine_iff hacc).mp hsafe.fields, ?_⟩
    rintro ⟨rfl, hthree, hcfg, hdel⟩
    obtain ⟨cfg, hcfg⟩ := reads_iff.mp hcfg
    obtain ⟨deleteLease, hdel⟩ := reads_iff.mp hdel
    obtain ⟨server, hserver⟩ := exists_server cfg
    obtain ⟨h, w, hr, rfl⟩ := exists_run_configurationNumber {} server
    have hset := hsafe.reply {} h w {} _ hr (result_ascFields_delete hcfg hdel hserver)
    exact hset ((drop_words_eq_nil_iff (hlen rfl)).mpr hthree)
  · rintro ⟨hover, hunset⟩
    refine ⟨(onLine_iff hacc).mpr hover, fun admin server a ha => (ends_ascFields a ha).keys, ?_⟩
    intro c h w admin req hr hreq
    refine Request.replySet (kept_of_run hr) ?_
    rintro cfg deleteLease keys rfl hnil
    obtain ⟨rfl, hcfg, hdel, rfl⟩ := (ends_ascFields _ hreq).delete _ _ _ rfl
    exact hunset ⟨rfl, (drop_words_eq_nil_iff (hlen rfl)).mp hnil, hcfg, hdel⟩

/-- `iqget` with all its words is handled with these. -/
theorem field_safe_iqget : FieldSafe false (ofChars "iqget 0 k 0 1".toList) .iqget := by
  have hlen : (ascTokenize (ascCommand (ofChars "iqget 0 k 0 1".toList))).length =
    5 := by decide +kernel
  refine (field_safe_iff (ofChars "iqget 0 k 0 1".toList) false false .iqget
    (by decide +kernel)).mpr ⟨?_, nofun⟩
  rintro ⟨hfour, -⟩
  rw [hlen] at hfour
  cases hfour

/-- `commit` without its last word is accepted, and then a number is read from the terminal
token. -/
theorem not_field_safe_commit : ∃ line,
    ascHandler false (ascCommand line) = some (.commit, false) ∧
      ¬ FieldSafe false (ascCommand line) .commit := by
  refine ⟨ofChars "commit 0 -1 t".toList, by decide +kernel, fun h => ?_⟩
  have hused : 4 ∈ (ascFields {} 0 false (ascCommand (ofChars "commit 0 -1 t".toList))
    .commit).used := by
    decide +kernel
  have hlen : (ascTokenize (ascCommand (ofChars "commit 0 -1 t".toList))).length =
    4 := by decide +kernel
  have hlt := (h.fields {} 0).within 4 hused
  rw [hlen] at hlt
  exact absurd hlt (lt_irrefl 4)

end Safe

end Rejig
