import IeumChain.EraManager
import IeumChain.Lib.Runs

/-!
# The active validators follow the schedule

`apply_height` takes one pending update, the earliest. Where no call finds two updates due, or one
that is older than one in force, the active set is the scheduled one after every call
(`active_follows_schedule`). With two updates due it is the older of the two
(`active_lags_schedule`).
-/

namespace IeumChain

open Lib

namespace EraManager

/-! ## The operations -/

lemma schedule_eq_ok {m m' : EraManager} {requestedHeight : UInt64} {validators : List Validator}
    {activation : ℕ} (h : m.schedule requestedHeight validators = .ok (activation, m')) :
    m' = { m with
      pending := m.pending.insert activation
        { requestedHeight, activationHeight := activation, validators } } := by
  simp only [schedule, bind_eq_ok, ensure_eq_ok, pure_eq_ok, Prod.mk.injEq] at h
  obtain ⟨_, _, _, _, rfl, rfl⟩ := h
  rfl

lemma sorted_find_eq_none {s : Finset ℕ} {height : ℕ}
    (h : ((sortedList s).find? fun item => item ≤ height) = none) : ∀ a ∈ s, height < a := by
  intro a ha
  have hnot := List.find?_eq_none.mp h a (mem_sortedList.mpr ha)
  simpa using hnot

/-- Nothing is due, or the update with the smallest activation height is taken. -/
lemma applyHeight_cases (m : EraManager) (height : UInt64) :
    ((∀ a ∈ m.pending, height.toNat < a) ∧ (m.applyHeight height).2 = m) ∨
      ∃ activation update, m.pending.lookup activation = some update ∧
        activation ≤ height.toNat ∧ (m.applyHeight height).2 =
          { m with active := update.validators, pending := m.pending.erase activation } := by
  rw [applyHeight]
  split
  · rename_i hfind
    exact .inl ⟨fun a ha => sorted_find_eq_none hfind a (Finmap.mem_keys.mpr ha), rfl⟩
  · rename_i activation hfind
    have hmem : activation ∈ m.pending := by
      rw [← Finmap.mem_keys, ← mem_sortedList]
      exact List.mem_of_find?_eq_some hfind
    obtain ⟨update, hupdate⟩ := Finmap.mem_iff.mp hmem
    have hdue := List.find?_some hfind
    rw [hupdate]
    exact .inr ⟨activation, update, hupdate, by simpa using hdue, rfl⟩

/-! ## The invariant of a run -/

/-- What holds after a run whose last applied height is `height`. -/
structure Consistent (initial : List Validator) (s : EraState) (height : ℕ) : Prop where
  /-- A pending update is the last one scheduled for its height. -/
  newest : ∀ a update, s.manager.pending.lookup a = some update →
    (s.scheduled.filter fun u => u.1 = a).getLast? = some (a, update.validators)
  /-- An update that is not pending took effect. -/
  applied : ∀ u ∈ s.scheduled, u.1 ∉ s.manager.pending → u.1 ≤ height
  /-- Where nothing is due, the active set is the scheduled one. -/
  follows : (∀ a ∈ s.manager.pending, height < a) →
    Follows initial s.scheduled height s.manager.active

lemma updates_concat_same (scheduled : List (ℕ × List Validator)) (u : ℕ × List Validator) :
    ((scheduled ++ [u]).filter fun w => w.1 = u.1).getLast? = some u := by
  simp [List.filter_append]

lemma updates_concat_of_ne (scheduled : List (ℕ × List Validator)) {u : ℕ × List Validator} {a : ℕ}
    (h : u.1 ≠ a) :
    (scheduled ++ [u]).filter (fun w => w.1 = a) = scheduled.filter fun w => w.1 = a := by
  simp [List.filter_append, h]

/-- Updates for later heights change nothing. -/
lemma Follows.concat {initial active : List Validator} {scheduled : List (ℕ × List Validator)}
    {height : ℕ} (h : Follows initial scheduled height active) {u : ℕ × List Validator}
    (hlater : height < u.1) : Follows initial (scheduled ++ [u]) height active := by
  rcases h with ⟨update, hforce, hactive⟩ | ⟨hnone, hactive⟩
  · refine .inl ⟨update, ⟨hforce.started, ?_, ?_⟩, hactive⟩
    · have hne : u.1 ≠ update.1 := by
        have := hforce.started
        omega
      rw [updates_concat_of_ne scheduled hne]
      exact hforce.last
    · intro w hw hle
      rcases List.mem_append.mp hw with hold | hnew
      · exact hforce.greatest w hold hle
      · rw [List.mem_singleton.mp hnew] at hle
        omega
  · refine .inr ⟨fun w hw => ?_, hactive⟩
    rcases List.mem_append.mp hw with hold | hnew
    · exact hnone w hold
    · rw [List.mem_singleton.mp hnew]
      exact hlater

/-- Where no update starts between two heights, the same set is in force. -/
lemma Follows.mono {initial active : List Validator} {scheduled : List (ℕ × List Validator)}
    {height height' : ℕ} (h : Follows initial scheduled height active) (hle : height ≤ height')
    (hgap : ∀ u ∈ scheduled, u.1 ≤ height' → u.1 ≤ height) :
    Follows initial scheduled height' active := by
  rcases h with ⟨update, hforce, hactive⟩ | ⟨hnone, hactive⟩
  · exact .inl ⟨update, ⟨le_trans hforce.started hle, hforce.last,
      fun u hu hu' => hforce.greatest u hu (hgap u hu hu')⟩, hactive⟩
  · refine .inr ⟨fun u hu => ?_, hactive⟩
    by_contra hlt
    have hearlier := hgap u hu (Nat.le_of_not_lt hlt)
    have hlater := hnone u hu
    omega

section Run
variable {initial : List Validator} {s : EraState} {height : ℕ}

theorem Consistent.schedule (h : Consistent initial s height) (requestedHeight : UInt64)
    (validators : List Validator) :
    Consistent initial (s.call (.schedule requestedHeight validators)) height := by
  rw [EraState.call]
  cases hschedule : s.manager.schedule requestedHeight validators with
  | error e => exact h
  | ok result =>
    obtain ⟨activation, m'⟩ := result
    have hm' := schedule_eq_ok hschedule
    subst hm'
    refine ⟨fun a update hlookup => ?_, fun u hu hnot => ?_, fun hlater => ?_⟩
    · rw [HashMap.lookup_insert] at hlookup
      by_cases ha : a = activation
      · rw [if_pos ha, Option.some.injEq] at hlookup
        rw [← hlookup, ha]
        exact updates_concat_same s.scheduled (activation, validators)
      · rw [if_neg ha] at hlookup
        have hsame := updates_concat_of_ne s.scheduled (u := (activation, validators)) (Ne.symm ha)
        rw [hsame]
        exact h.newest a update hlookup
    · rw [Finmap.mem_insert] at hnot
      rcases List.mem_append.mp hu with hold | hnew
      · exact h.applied u hold fun hmem => hnot (.inr hmem)
      · exact absurd (.inl (congrArg Prod.fst (List.mem_singleton.mp hnew))) hnot
    · have hpending : ∀ a ∈ s.manager.pending, height < a := fun a ha =>
        hlater a (Finmap.mem_insert.mpr (.inr ha))
      exact (h.follows hpending).concat (hlater activation (Finmap.mem_insert.mpr (.inl rfl)))

theorem Consistent.applyHeight (h : Consistent initial s height) {next : UInt64}
    (hle : height ≤ next.toNat) (hone : OneDue s next.toNat) :
    Consistent initial (s.call (.applyHeight next)) next.toNat ∧
      Follows initial s.scheduled next.toNat (s.call (.applyHeight next)).manager.active := by
  rw [EraState.call]
  rcases applyHeight_cases s.manager next with ⟨hlater, hsame⟩ | ⟨activation, update, hupdate,
    hdue, htaken⟩
  · -- nothing is due: what was scheduled up to the height took effect
    rw [hsame]
    have hgap : ∀ u ∈ s.scheduled, u.1 ≤ next.toNat → u.1 ≤ height := by
      intro u hu hu'
      apply h.applied u hu
      intro hmem
      have := hlater u.1 hmem
      omega
    have hfollows := (h.follows fun a ha => lt_of_le_of_lt hle (hlater a ha)).mono hle hgap
    exact ⟨⟨h.newest, fun u hu hnot => le_trans (h.applied u hu hnot) hle, fun _ => hfollows⟩,
      hfollows⟩
  · rw [htaken]
    have hmem : activation ∈ s.manager.pending := Finmap.mem_of_lookup_eq_some hupdate
    have hforce : InForce s.scheduled next.toNat (activation, update.validators) :=
      ⟨hdue, h.newest activation update hupdate, hone activation hmem hdue⟩
    have hfollows : Follows initial s.scheduled next.toNat update.validators :=
      .inl ⟨_, hforce, rfl⟩
    refine ⟨⟨fun a other hlookup => ?_, fun u hu hnot => ?_, fun _ => hfollows⟩, hfollows⟩
    · by_cases ha : a = activation
      · rw [ha, Finmap.lookup_erase] at hlookup
        exact absurd hlookup (by simp)
      · rw [Finmap.lookup_erase_ne ha] at hlookup
        exact h.newest a other hlookup
    · by_cases ha : u.1 = activation
      · rw [ha]
        exact hdue
      · refine le_trans (h.applied u hu fun hpending => hnot ?_) hle
        exact Finmap.mem_erase.mpr ⟨ha, hpending⟩

/-- Every call of `apply_height` in the run finds at most one update due, the newest. -/
def AlwaysOneDue (start : EraState) : List EraCall → Prop :=
  Along fun before call => ∀ next, call = .applyHeight next →
    OneDue (start.run before) next.toNat

lemma run_concat (start : EraState) (calls : List EraCall) (call : EraCall) :
    start.run (calls ++ [call]) = (start.run calls).call call := by
  rw [EraState.run, EraState.run, List.foldl_append, List.foldl_cons, List.foldl_nil]

lemma heights_concat (calls : List EraCall) (next : UInt64) :
    heights (calls ++ [.applyHeight next]) = heights calls ++ [next.toNat] := by
  rw [heights, List.filterMap_append]
  rfl

theorem run_consistent {start : EraState} (hstart : Consistent initial start 0) :
    ∀ {calls : List EraCall}, (heights calls).Pairwise (· ≤ ·) → AlwaysOneDue start calls →
      Consistent initial (start.run calls) ((heights calls).getLast?.getD 0) := by
  intro calls
  induction calls using List.reverseRecOn with
  | nil => exact fun _ _ => hstart
  | append_singleton calls call ih =>
    intro hsorted hone
    obtain ⟨hrest, hlast⟩ := along_concat.mp hone
    rw [run_concat]
    cases call with
    | schedule requestedHeight validators =>
      have hheights : heights (calls ++ [.schedule requestedHeight validators]) =
          heights calls := by
        rw [heights, List.filterMap_append]
        exact List.append_nil _
      rw [hheights] at hsorted ⊢
      exact (ih hsorted hrest).schedule requestedHeight validators
    | applyHeight next =>
      rw [heights_concat, List.pairwise_append] at hsorted
      rw [heights_concat, List.getLast?_append]
      have hle : (heights calls).getLast?.getD 0 ≤ next.toNat := by
        cases hlast : (heights calls).getLast? with
        | none => exact Nat.zero_le _
        | some last =>
          exact hsorted.2.2 last (List.mem_of_getLast? hlast) next.toNat
            (List.mem_singleton.mpr rfl)
      exact ((ih hsorted.1 hrest).applyHeight hle (hlast next rfl)).1

end Run

/-! ## The activation height -/

/-- The least multiple of the era length from the requested height plus the delay on. -/
lemma schedule_least {m : EraManager} {requestedHeight : UInt64} {validators : List Validator}
    (hvalid : validateSet validators = .ok ())
    (hfits : requestedHeight.toNat + m.config.activationDelay.toNat + m.config.eraLength.toNat <
      2 ^ 64) :
    ∃ activation m', m.schedule requestedHeight validators = .ok (activation, m') ∧
      IsLeast {height | m.config.eraLength.toNat ∣ height ∧
        requestedHeight.toNat + m.config.activationDelay.toNat ≤ height} activation := by
  have hpos : 0 < m.config.eraLength.toNat := by
    have hne := m.config_pos.1
    rw [Ne, ← UInt64.toNat_inj] at hne
    exact Nat.pos_of_ne_zero hne
  generalize hlength : m.config.eraLength.toNat = length at hfits hpos
  generalize hearliest : requestedHeight.toNat + m.config.activationDelay.toNat = earliest at hfits
  -- the source divides rounding up, and multiplies the eras out again
  obtain ⟨eras, heras⟩ : ∃ eras, eras = earliest / length +
    if earliest % length = 0 then 0 else 1 := ⟨_, rfl⟩
  have hdivision := Nat.div_add_mod earliest length
  have hmod := Nat.mod_lt earliest hpos
  have hcover : earliest ≤ length * eras ∧ length * eras < earliest + length := by
    rw [heras, Nat.mul_add]
    split
    · rw [Nat.mul_zero]
      omega
    · rw [Nat.mul_one]
      omega
  have hexact : saturatingMul eras length = length * eras := by
    rw [saturatingMul, Nat.mul_comm]
    omega
  refine ⟨length * eras, { m with
    pending := m.pending.insert (length * eras)
      { requestedHeight, activationHeight := length * eras, validators } }, ?_, ?_, ?_⟩
  · simp only [schedule, bind_eq_ok, ensure_eq_ok, pure_eq_ok, hlength, hearliest, ← heras,
      hexact]
    exact ⟨(), hvalid, (), by omega, trivial⟩
  · exact ⟨Dvd.intro eras rfl, hcover.1⟩
  · rintro height ⟨⟨k, rfl⟩, hheight⟩
    by_contra hlt
    -- an earlier boundary has at least one era less
    have hk : k + 1 ≤ eras := by
      by_contra hge
      have hmul : length * eras ≤ length * k := Nat.mul_le_mul_left length (by omega)
      omega
    have hmul : length * (k + 1) ≤ length * eras := Nat.mul_le_mul_left length hk
    rw [Nat.mul_add, Nat.mul_one] at hmul
    omega

/-! ## The schedule -/

lemma new_eq_ok {config : EraConfig} {validators : List Validator} {m : EraManager}
    (h : new config validators = .ok m) : m.active = validators ∧ m.pending = ∅ := by
  rw [new, bind_eq_ok] at h
  obtain ⟨_, _, h⟩ := h
  split at h
  · rw [pure_eq_ok] at h
    subst h
    exact ⟨rfl, rfl⟩
  · exact absurd h (by simp)

/-- **The active set follows the schedule where one update at a time is due.** After every call of
`apply_height` in a run with non-decreasing heights, if no call found an update due that is not the
newest. And where the numbers fit, `schedule` returns the least multiple of the era length. -/
theorem active_follows_schedule {config : EraConfig} {validators : List Validator}
    {m : EraManager} (hnew : new config validators = .ok m) :
    (∀ calls next, (heights (calls ++ [.applyHeight next])).Pairwise (· ≤ ·) →
      AlwaysOneDue ⟨m, []⟩ (calls ++ [.applyHeight next]) →
      Follows validators (EraState.run ⟨m, []⟩ calls).scheduled next.toNat
        (EraState.run ⟨m, []⟩ (calls ++ [.applyHeight next])).manager.active) ∧
    ∀ calls requestedHeight set, validateSet set = .ok () →
      requestedHeight.toNat + (EraState.run ⟨m, []⟩ calls).manager.config.activationDelay.toNat +
        (EraState.run ⟨m, []⟩ calls).manager.config.eraLength.toNat < 2 ^ 64 →
      ∃ activation m', (EraState.run ⟨m, []⟩ calls).manager.schedule requestedHeight set =
          .ok (activation, m') ∧
        IsLeast {height |
          (EraState.run ⟨m, []⟩ calls).manager.config.eraLength.toNat ∣ height ∧
          requestedHeight.toNat +
            (EraState.run ⟨m, []⟩ calls).manager.config.activationDelay.toNat ≤ height}
          activation := by
  obtain ⟨hactive, hpending⟩ := new_eq_ok hnew
  have hstart : Consistent validators ⟨m, []⟩ 0 := by
    refine ⟨fun a update h => ?_, fun u hu => absurd hu List.not_mem_nil, fun _ => ?_⟩
    · rw [hpending, Finmap.lookup_empty] at h
      exact absurd h (by simp)
    · exact .inr ⟨fun u hu => absurd hu List.not_mem_nil, hactive⟩
  constructor
  · intro calls next hsorted hone
    obtain ⟨hrest, hlast⟩ := along_concat.mp hone
    rw [heights_concat, List.pairwise_append] at hsorted
    have hle : (heights calls).getLast?.getD 0 ≤ next.toNat := by
      cases hlast : (heights calls).getLast? with
      | none => exact Nat.zero_le _
      | some last =>
        exact hsorted.2.2 last (List.mem_of_getLast? hlast) next.toNat
          (List.mem_singleton.mpr rfl)
    rw [run_concat]
    exact ((run_consistent hstart hsorted.1 hrest).applyHeight hle (hlast next rfl)).2
  · exact fun calls requestedHeight set hvalid hfits => schedule_least hvalid hfits

/-! ## Two updates at once -/

/-- Four validators with the same power. -/
def fourValidators (power : UInt64) : List Validator :=
  [⟨"a", power⟩, ⟨"b", power⟩, ⟨"c", power⟩, ⟨"d", power⟩]

/-- The first eras of a chain. -/
def firstEra : EraManager :=
  { config := { eraLength := 100, activationDelay := 25 }
    active := fourValidators 1
    pending := ∅
    config_pos := by decide }

/-- An update for height 100 and one for height 200. -/
def twoUpdates : List EraCall := [.schedule 0 (fourValidators 2), .schedule 100 (fourValidators 3)]

/-- The first update at its height. -/
theorem active_follows_schedule_first :
    new { eraLength := 100, activationDelay := 25 } (fourValidators 1) = .ok firstEra ∧
      Follows (fourValidators 1) (EraState.run ⟨firstEra, []⟩ twoUpdates).scheduled 100
        (EraState.run ⟨firstEra, []⟩ (twoUpdates ++ [.applyHeight 100])).manager.active := by
  have hnew : new { eraLength := 100, activationDelay := 25 } (fourValidators 1) =
    .ok firstEra := rfl
  refine ⟨hnew, (active_follows_schedule hnew).1 twoUpdates 100 (by simp [heights, twoUpdates]) ?_⟩
  refine along_concat.mpr ⟨?_, ?_⟩
  · rw [← List.nil_append twoUpdates, twoUpdates, ← List.singleton_append, ← List.append_assoc]
    refine along_concat.mpr ⟨along_concat.mpr ⟨along_nil _, ?_⟩, ?_⟩
    · rintro next ⟨⟩
    · rintro next ⟨⟩
  rintro next heq a ha hle u hu hu'
  obtain rfl := EraCall.applyHeight.inj heq
  have hkeys : (EraState.run ⟨firstEra, []⟩ twoUpdates).manager.pending.keys = {100, 200} := by
    decide
  have hscheduled : (EraState.run ⟨firstEra, []⟩ twoUpdates).scheduled =
      [(100, fourValidators 2), (200, fourValidators 3)] := rfl
  rw [← Finmap.mem_keys, hkeys] at ha
  rw [hscheduled] at hu
  have hnext : (100 : UInt64).toNat = 100 := rfl
  simp only [List.mem_cons, List.not_mem_nil, or_false, Finset.mem_insert,
    Finset.mem_singleton] at ha hu
  rcases hu with rfl | rfl
  · omega
  · simp only at hu'
    omega

/-- Heights jump over both updates: the set of height 100 becomes active, not that of height 200. -/
theorem active_lags_schedule :
    new { eraLength := 100, activationDelay := 25 } (fourValidators 1) = .ok firstEra ∧
      (heights (twoUpdates ++ [.applyHeight 250])).Pairwise (· ≤ ·) ∧
      ¬ Follows (fourValidators 1) (EraState.run ⟨firstEra, []⟩ twoUpdates).scheduled 250
        (EraState.run ⟨firstEra, []⟩ (twoUpdates ++ [.applyHeight 250])).manager.active := by
  refine ⟨rfl, by simp [heights, twoUpdates], ?_⟩
  have hscheduled : (EraState.run ⟨firstEra, []⟩ twoUpdates).scheduled =
      [(100, fourValidators 2), (200, fourValidators 3)] := rfl
  have hactive : (EraState.run ⟨firstEra, []⟩ (twoUpdates ++ [.applyHeight 250])).manager.active =
      fourValidators 2 := rfl
  rw [hscheduled, hactive]
  rintro (⟨update, hforce, hupdate⟩ | ⟨hnone, _⟩)
  · have hgreatest := hforce.greatest (200, fourValidators 3) (by simp) (by decide)
    have hmem := List.mem_of_getLast? hforce.last
    rw [List.mem_filter] at hmem
    simp only [List.mem_cons, List.not_mem_nil, or_false] at hmem
    rcases hmem.1 with rfl | rfl
    · exact absurd hgreatest (by decide)
    · exact absurd hupdate (by decide)
  · exact absurd (hnone (100, fourValidators 2) (by simp)) (by decide)

end EraManager

end IeumChain
