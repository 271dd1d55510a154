import IeumChain.Lib.Tally
import IeumChain.Recovery

/-!
# Who can approve a recovery

For a list of distinct validators with power the two loops add up without an error: the total is the
power of all validators and the approved power that of the approving ones, each counted once
(`evaluate_eq_ok`). So the result is a function of the set of approving ids, it grows with the set,
and any two sets that may roll the chain back to a checkpoint share half of the validators and half
of the power (`recovery_approvals`).
-/

namespace IeumChain

open Lib

namespace Recovery

/-- A list of validators with distinct ids and powers that add up. -/
structure IsRegister (validators : List Validator) : Prop where
  distinct : (validators.map Validator.id).Nodup
  positive : ∀ v ∈ validators, 0 < v.votingPower.toNat
  total : (validators.map fun v => v.votingPower.toNat).sum < 2 ^ 64

/-- Every id is the id of a validator. -/
def Registered (validators : List Validator) (ids : List String) : Prop :=
  ∀ id ∈ ids, id ∈ validators.map Validator.id

/-- The power of the validator with an id. -/
def powerOf (validators : List Validator) (id : String) : ℕ :=
  ((validators.find? fun v => v.id = id).map fun v => v.votingPower.toNat).getD 0

/-- The power of all validators. -/
def totalPower (validators : List Validator) : ℕ :=
  (validators.map fun v => v.votingPower.toNat).sum

/-- The map the first loop leaves. -/
def powers (validators : List Validator) : HashMap String UInt64 :=
  HashMap.ofList (validators.map fun v => (v.id, v.votingPower))

/-! ## The first loop -/

lemma IsRegister.of_append {l : List Validator} {v : Validator} (h : IsRegister (l ++ [v])) :
    IsRegister l where
  distinct := by
    have hdistinct := h.distinct
    rw [List.map_append] at hdistinct
    exact hdistinct.of_append_left
  positive := fun v hv => h.positive v (List.mem_append_left _ hv)
  total := by
    have htotal := h.total
    rw [List.map_append, List.sum_append] at htotal
    omega

lemma lookup_powers {validators : List Validator} (h : IsRegister validators) {id : String}
    {power : UInt64} : (powers validators).lookup id = some power ↔
      ∃ v ∈ validators, v.id = id ∧ v.votingPower = power := by
  have hdistinct : ((validators.map fun v => (v.id, v.votingPower)).map Prod.fst).Nodup := by
    rw [List.map_map]
    exact h.distinct
  rw [powers, HashMap.lookup_ofList hdistinct, List.mem_map]
  simp only [Prod.mk.injEq]

lemma mem_powers {validators : List Validator} (h : IsRegister validators) {id : String} :
    id ∈ powers validators ↔ id ∈ validators.map Validator.id := by
  rw [Finmap.mem_iff, List.mem_map]
  constructor
  · rintro ⟨power, hpower⟩
    obtain ⟨v, hv, hid, -⟩ := (lookup_powers h).mp hpower
    exact ⟨v, hv, hid⟩
  · rintro ⟨v, hv, hid⟩
    exact ⟨v.votingPower, (lookup_powers h).mpr ⟨v, hv, hid, rfl⟩⟩

/-- The first loop enters every validator. -/
lemma foldlM_addValidator {validators : List Validator} (h : IsRegister validators) :
    validators.foldlM addValidator (∅, 0) = .ok (powers validators, totalPower validators) := by
  induction validators using List.reverseRecOn with
  | nil => rfl
  | append_singleton l v ih =>
    have hl := h.of_append
    have hnew : v.id ∉ powers l := by
      rw [mem_powers hl]
      have hdistinct := h.distinct
      rw [List.map_append, List.nodup_append] at hdistinct
      exact fun hmem => hdistinct.2.2 v.id hmem v.id (by simp) rfl
    have htotal := h.total
    rw [List.map_append, List.sum_append, List.map_singleton, List.sum_singleton] at htotal
    have hpower : v.votingPower ≠ 0 := by
      have hpositive := h.positive v (by simp)
      rintro hzero
      rw [hzero] at hpositive
      exact absurd hpositive (by decide)
    rw [List.foldlM_append, ih hl]
    simp only [List.foldlM_cons, List.foldlM_nil, addValidator, bind_eq_ok, ensure_eq_ok,
      pure_eq_ok]
    refine ⟨_, rfl, _, ⟨(), hpower, (), hnew, (), htotal, rfl⟩, ?_⟩
    rw [powers, powers, totalPower, totalPower, List.map_append, List.map_append, List.sum_append,
      List.map_singleton, List.map_singleton, List.sum_singleton, HashMap.ofList_concat]

/-! ## The second loop -/

lemma powerOf_of_mem {validators : List Validator} (h : IsRegister validators) {v : Validator}
    (hv : v ∈ validators) : powerOf validators v.id = v.votingPower.toNat := by
  have hsome : (validators.find? fun w => w.id = v.id).isSome :=
    List.find?_isSome.mpr ⟨v, hv, by simp⟩
  obtain ⟨w, hw⟩ := Option.isSome_iff_exists.mp hsome
  have hid : w.id = v.id := by simpa using List.find?_some hw
  have heq : w = v := List.inj_on_of_nodup_map h.distinct (List.mem_of_find?_eq_some hw) hv hid
  rw [powerOf, hw, heq]
  rfl

/-- The ids of the validators. -/
def voters (validators : List Validator) : Finset String := (validators.map Validator.id).toFinset

lemma card_voters {validators : List Validator} (h : IsRegister validators) :
    (voters validators).card = validators.length := by
  rw [voters, List.toFinset_card_of_nodup h.distinct, List.length_map]

lemma weight_voters {validators : List Validator} (h : IsRegister validators) :
    weight (powerOf validators) (voters validators) = totalPower validators := by
  rw [weight, voters, List.sum_toFinset _ h.distinct, totalPower, List.map_map]
  exact congrArg List.sum (List.map_congr_left fun v hv => powerOf_of_mem h hv)

lemma Registered.subset {validators : List Validator} {ids : List String}
    (h : Registered validators ids) : ids.toFinset ⊆ voters validators := by
  intro id hid
  exact List.mem_toFinset.mpr (h id (List.mem_toFinset.mp hid))

/-- No set of validators has more power than all of them. -/
lemma weight_le_totalPower {validators : List Validator} (h : IsRegister validators)
    {ids : List String} (hids : Registered validators ids) :
    weight (powerOf validators) ids.toFinset ≤ totalPower validators := by
  rw [← weight_voters h]
  exact weight_mono _ hids.subset

lemma card_le_length {validators : List Validator} (h : IsRegister validators)
    {ids : List String} (hids : Registered validators ids) :
    ids.toFinset.card ≤ validators.length := by
  rw [← card_voters h]
  exact Finset.card_le_card hids.subset

/-- The second loop adds up the powers of registered ids. -/
lemma foldlM_addApproval {validators : List Validator} (h : IsRegister validators) :
    ∀ {ids : List String} {approved : ℕ}, Registered validators ids →
      approved + (ids.map (powerOf validators)).sum < 2 ^ 64 →
      ids.foldlM (addApproval (powers validators)) approved =
        .ok (approved + (ids.map (powerOf validators)).sum) := by
  intro ids
  induction ids with
  | nil => exact fun _ _ => rfl
  | cons id ids ih =>
    intro approved hids hsmall
    rw [List.map_cons, List.sum_cons, ← Nat.add_assoc] at hsmall ⊢
    obtain ⟨v, hv, hid⟩ := List.mem_map.mp (hids id List.mem_cons_self)
    have hpower : powerOf validators id = v.votingPower.toNat := by rw [← hid, powerOf_of_mem h hv]
    have hlookup := (lookup_powers h).mpr ⟨v, hv, hid, rfl⟩
    have hfirst : addApproval (powers validators) approved id =
        .ok (approved + powerOf validators id) := by
      simp only [addApproval, bind_eq_ok, okOr_eq_ok, ensure_eq_ok, pure_eq_ok, hpower]
      exact ⟨v.votingPower, hlookup, (), by omega, rfl⟩
    rw [List.foldlM_cons, hfirst]
    exact ih (fun id' hid' => hids id' (List.mem_cons_of_mem _ hid')) hsmall

/-! ## The result -/

/-- Within 64 bits no product saturates. -/
lemma reachesThreeQuarters_iff {approved total : ℕ} (htotal : 0 < total) (hsmall : total < 2 ^ 64)
    (hle : approved ≤ total) :
    reachesThreeQuarters approved total = true ↔ 3 * total ≤ 4 * approved := by
  rw [reachesThreeQuarters, decide_eq_true_eq, recoveryQuorumNumerator, recoveryQuorumDenominator,
    min_eq_left (by omega), min_eq_left (by omega)]
  omega

/-- The validators, their power and the approvals of a set of ids. -/
def counted (validators : List Validator) (approvals : Finset String) : RecoveryApprovalResult :=
  let count := reachesThreeQuarters approvals.card validators.length
  let power := reachesThreeQuarters (weight (powerOf validators) approvals) (totalPower validators)
  { approved := count || power
    basis := if count then some .validatorCount else if power then some .votingPower else none
    approvedValidators := approvals.card
    totalValidators := validators.length
    approvedVotingPower := weight (powerOf validators) approvals
    totalVotingPower := totalPower validators }

/-- Registered approvals are counted by their set, in every order of the hash set. -/
theorem evaluate_eq_ok {iteration : SetIteration String} {validators : List Validator}
    (h : IsRegister validators) (hne : validators ≠ []) {ids : List String}
    (hids : Registered validators ids) :
    evaluateRecoveryApprovals iteration validators ids = .ok (counted validators ids.toFinset) := by
  have horder : Registered validators (iteration.order ids.toFinset) := fun id hid =>
    hids id (List.mem_toFinset.mp ((iteration.mem_order _ _).mp hid))
  have hsum := iteration.sum_order ids.toFinset (powerOf validators)
  have hsmall : 0 + ((iteration.order ids.toFinset).map (powerOf validators)).sum < 2 ^ 64 := by
    rw [hsum, Nat.zero_add]
    exact (weight_le_totalPower h hids).trans_lt h.total
  have happroved := foldlM_addApproval h horder hsmall
  rw [hsum, Nat.zero_add] at happroved
  rw [evaluateRecoveryApprovals]
  simp only [bind_eq_ok, ensure_eq_ok, pure_eq_ok]
  refine ⟨(), hne, _, foldlM_addValidator h, _, happroved, ?_⟩
  rw [counted]
  cases reachesThreeQuarters ids.toFinset.card validators.length <;>
    cases reachesThreeQuarters (weight (powerOf validators) ids.toFinset) (totalPower validators) <;>
    rfl

/-- Both rules read the same counts. -/
def countedBoth (validators : List Validator) (approvals : Finset String) :
    RecoveryApprovalResult :=
  let both := reachesThreeQuarters approvals.card validators.length &&
    reachesThreeQuarters (weight (powerOf validators) approvals) (totalPower validators)
  { counted validators approvals with
    approved := both
    basis := if both then some .both else none }

theorem evaluateCheckpoint_eq_ok {iteration : SetIteration String} {validators : List Validator}
    (h : IsRegister validators) (hne : validators ≠ []) {ids : List String}
    (hids : Registered validators ids) :
    evaluateCheckpointRecoveryApprovals iteration validators ids =
      .ok (countedBoth validators ids.toFinset) := by
  rw [evaluateCheckpointRecoveryApprovals, evaluate_eq_ok h hne hids]
  rfl

section Thresholds

variable {validators : List Validator} (h : IsRegister validators) (hne : validators ≠ [])
include h hne

lemma totalPower_pos : 0 < totalPower validators := by
  obtain ⟨v, hv⟩ := List.exists_mem_of_ne_nil validators hne
  exact (h.positive v hv).trans_le (List.le_sum_of_mem (List.mem_map.mpr ⟨v, hv, rfl⟩))

omit hne in
/-- Every validator has at least one vote. -/
lemma length_lt : validators.length < 2 ^ 64 := by
  have hle : (validators.map fun _ => 1).sum ≤ totalPower validators :=
    List.sum_le_sum fun v hv => h.positive v hv
  rw [List.map_const', List.sum_replicate, smul_eq_mul, Nat.mul_one] at hle
  exact hle.trans_lt h.total

lemma reaches_count_iff {ids : List String} (hids : Registered validators ids) :
    reachesThreeQuarters ids.toFinset.card validators.length = true ↔
      3 * validators.length ≤ 4 * ids.toFinset.card :=
  reachesThreeQuarters_iff (List.length_pos_iff.mpr hne) (length_lt h) (card_le_length h hids)

lemma reaches_power_iff {ids : List String} (hids : Registered validators ids) :
    reachesThreeQuarters (weight (powerOf validators) ids.toFinset) (totalPower validators) = true ↔
      3 * totalPower validators ≤ 4 * weight (powerOf validators) ids.toFinset :=
  reachesThreeQuarters_iff (totalPower_pos h hne) h.total (weight_le_totalPower h hids)

lemma counted_approved_iff {ids : List String} (hids : Registered validators ids) :
    (counted validators ids.toFinset).approved = true ↔
      3 * validators.length ≤ 4 * ids.toFinset.card ∨
        3 * totalPower validators ≤ 4 * weight (powerOf validators) ids.toFinset := by
  rw [counted, Bool.or_eq_true, reaches_count_iff h hne hids, reaches_power_iff h hne hids]

lemma countedBoth_approved_iff {ids : List String} (hids : Registered validators ids) :
    (countedBoth validators ids.toFinset).approved = true ↔
      3 * validators.length ≤ 4 * ids.toFinset.card ∧
        3 * totalPower validators ≤ 4 * weight (powerOf validators) ids.toFinset := by
  rw [countedBoth, Bool.and_eq_true, reaches_count_iff h hne hids, reaches_power_iff h hne hids]

/-- Two sets that may roll the chain back share half of the validators and half of the power. -/
lemma half_shared {ids ids' : List String} (hids : Registered validators ids)
    (hids' : Registered validators ids')
    (hpass : (countedBoth validators ids.toFinset).approved = true)
    (hpass' : (countedBoth validators ids'.toFinset).approved = true) :
    validators.length ≤ 2 * (ids.toFinset ∩ ids'.toFinset).card ∧
      totalPower validators ≤
        2 * weight (powerOf validators) (ids.toFinset ∩ ids'.toFinset) := by
  obtain ⟨hcount, hpower⟩ := (countedBoth_approved_iff h hne hids).mp hpass
  obtain ⟨hcount', hpower'⟩ := (countedBoth_approved_iff h hne hids').mp hpass'
  have hcards := weight_add_le (w := fun _ => 1) hids.subset hids'.subset
  have hweights := weight_add_le (w := powerOf validators) hids.subset hids'.subset
  rw [weight_one, weight_one, weight_one, weight_one, card_voters h] at hcards
  rw [weight_voters h] at hweights
  omega

end Thresholds

/-- A larger set of approvals passes where a smaller one did. -/
lemma approved_mono {validators : List Validator} (h : IsRegister validators)
    (hne : validators ≠ []) {ids ids' : List String} (hids : Registered validators ids)
    (hids' : Registered validators ids') (hsub : ids ⊆ ids') :
    ((counted validators ids.toFinset).approved = true →
      (counted validators ids'.toFinset).approved = true) ∧
    ((countedBoth validators ids.toFinset).approved = true →
      (countedBoth validators ids'.toFinset).approved = true) := by
  have hset : ids.toFinset ⊆ ids'.toFinset := fun id hid =>
    List.mem_toFinset.mpr (hsub (List.mem_toFinset.mp hid))
  have hcard := Finset.card_le_card hset
  have hweight := weight_mono (powerOf validators) hset
  rw [counted_approved_iff h hne hids, counted_approved_iff h hne hids',
    countedBoth_approved_iff h hne hids, countedBoth_approved_iff h hne hids']
  omega

/-- Over a non-empty register both evaluations succeed on registered ids. They depend on the set of
ids alone, they grow with it, their thresholds are three quarters of the validators, of the power,
or of both, and two sets that pass the checkpoint rule share half of the validators and half of the
power. -/
theorem recovery_approvals (iteration iteration' : SetIteration String)
    (validators : List Validator) (h : IsRegister validators) (hne : validators ≠ []) :
    (∀ ids, Registered validators ids → ∃ result checkpoint,
      evaluateRecoveryApprovals iteration validators ids = .ok result ∧
      evaluateCheckpointRecoveryApprovals iteration validators ids = .ok checkpoint ∧
      (result.approved = true ↔ 3 * validators.length ≤ 4 * ids.toFinset.card ∨
        3 * totalPower validators ≤ 4 * ∑ id ∈ ids.toFinset, powerOf validators id) ∧
      (checkpoint.approved = true ↔ 3 * validators.length ≤ 4 * ids.toFinset.card ∧
        3 * totalPower validators ≤ 4 * ∑ id ∈ ids.toFinset, powerOf validators id)) ∧
    (∀ ids ids', Registered validators ids → (∀ id, id ∈ ids ↔ id ∈ ids') →
      evaluateRecoveryApprovals iteration validators ids =
        evaluateRecoveryApprovals iteration' validators ids' ∧
      evaluateCheckpointRecoveryApprovals iteration validators ids =
        evaluateCheckpointRecoveryApprovals iteration' validators ids') ∧
    (∀ ids ids' result result', Registered validators ids' → ids ⊆ ids' →
      (evaluateRecoveryApprovals iteration validators ids = .ok result →
        evaluateRecoveryApprovals iteration validators ids' = .ok result' →
        result.approved = true → result'.approved = true) ∧
      (evaluateCheckpointRecoveryApprovals iteration validators ids = .ok result →
        evaluateCheckpointRecoveryApprovals iteration validators ids' = .ok result' →
        result.approved = true → result'.approved = true)) ∧
    (∀ ids ids' result result', Registered validators ids → Registered validators ids' →
      evaluateCheckpointRecoveryApprovals iteration validators ids = .ok result →
      evaluateCheckpointRecoveryApprovals iteration validators ids' = .ok result' →
      result.approved = true → result'.approved = true →
      validators.length ≤ 2 * (ids.toFinset ∩ ids'.toFinset).card ∧
        totalPower validators ≤
          2 * ∑ id ∈ ids.toFinset ∩ ids'.toFinset, powerOf validators id) := by
  refine ⟨?_, ?_, ?_, ?_⟩
  · intro ids hids
    exact ⟨_, _, evaluate_eq_ok h hne hids, evaluateCheckpoint_eq_ok h hne hids,
      counted_approved_iff h hne hids, countedBoth_approved_iff h hne hids⟩
  · intro ids ids' hids hsame
    have hids' : Registered validators ids' := fun id hid => hids id ((hsame id).mpr hid)
    -- both evaluations depend on the set of ids only
    have hset : ids.toFinset = ids'.toFinset := by
      ext id
      rw [List.mem_toFinset, List.mem_toFinset, hsame]
    constructor
    · rw [evaluate_eq_ok h hne hids, evaluate_eq_ok h hne hids', hset]
    · rw [evaluateCheckpoint_eq_ok h hne hids, evaluateCheckpoint_eq_ok h hne hids', hset]
  · intro ids ids' result result' hids' hsub
    have hids : Registered validators ids := fun id hid => hids' id (hsub hid)
    obtain ⟨hany, hboth⟩ := approved_mono h hne hids hids' hsub
    rw [evaluate_eq_ok h hne hids, evaluate_eq_ok h hne hids', evaluateCheckpoint_eq_ok h hne hids,
      evaluateCheckpoint_eq_ok h hne hids']
    constructor
    · rintro ⟨rfl⟩ ⟨rfl⟩
      exact hany
    · rintro ⟨rfl⟩ ⟨rfl⟩
      exact hboth
  · intro ids ids' result result' hids hids'
    rw [evaluateCheckpoint_eq_ok h hne hids, evaluateCheckpoint_eq_ok h hne hids']
    rintro ⟨rfl⟩ ⟨rfl⟩ hpass hpass'
    exact half_shared h hne hids hids' hpass hpass'

/-- Four validators, one of them with four fifths of the power. -/
def four : List Validator :=
  [⟨"validator-0", 80⟩, ⟨"validator-1", 10⟩, ⟨"validator-2", 5⟩, ⟨"validator-3", 5⟩]

lemma isRegister_four : IsRegister four where
  distinct := by decide
  positive := by decide
  total := by decide

/-- The validator with most of the power can approve a recovery, but no rollback. -/
theorem recovery_approvals_four : ∃ result checkpoint,
    evaluateRecoveryApprovals SetIteration.sorted four ["validator-0"] = .ok result ∧
    evaluateCheckpointRecoveryApprovals SetIteration.sorted four ["validator-0"] = .ok checkpoint ∧
    result.approved = true ∧ checkpoint.approved = false := by
  have hids : Registered four ["validator-0"] := by
    show ∀ id ∈ ["validator-0"], id ∈ four.map Validator.id
    decide
  obtain ⟨result, checkpoint, hresult, hcheckpoint, hany, hboth⟩ :=
    (recovery_approvals SetIteration.sorted SetIteration.sorted four isRegister_four
      (by decide)).1 ["validator-0"] hids
  refine ⟨result, checkpoint, hresult, hcheckpoint, hany.mpr (by decide), ?_⟩
  rw [← Bool.not_eq_true, hboth]
  decide

/-- No validators at all: the powers add up and every id is registered, but both fail. -/
theorem recovery_without_validators :
    (([] : List Validator).map Validator.id).Nodup ∧
      (∀ v ∈ ([] : List Validator), 0 < v.votingPower.toNat) ∧
      totalPower [] < 2 ^ 64 ∧ Registered [] [] ∧
      evaluateRecoveryApprovals SetIteration.sorted [] [] =
        .error "복구 승인에 사용할 등록 검증자가 없습니다." ∧
      evaluateCheckpointRecoveryApprovals SetIteration.sorted [] [] =
        .error "복구 승인에 사용할 등록 검증자가 없습니다." := by
  exact ⟨by decide, by decide, by decide, fun _ hid => hid, rfl, rfl⟩

end Recovery

end IeumChain
