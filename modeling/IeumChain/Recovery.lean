import IeumChain.Consensus
import IeumChain.Lib.Result
import IeumChain.Lib.Sets

/-!
# Recovery approvals (`recovery.rs`)

A recovery plan is approved by three quarters of the validators, by number or by voting power, and a
rollback to a checkpoint by three quarters of both. The ids of the approvals come in any order and
with repetitions; they are collected in a hash set, whose iteration order is a parameter.
-/

namespace IeumChain

open Lib

/-- `RECOVERY_QUORUM_NUMERATOR`. -/
def recoveryQuorumNumerator : ℕ := 3

/-- `RECOVERY_QUORUM_DENOMINATOR`. -/
def recoveryQuorumDenominator : ℕ := 4

inductive RecoveryApprovalBasis where
  | validatorCount
  | votingPower
  | both
deriving DecidableEq

structure RecoveryApprovalResult where
  approved : Bool
  basis : Option RecoveryApprovalBasis
  approvedValidators : ℕ
  totalValidators : ℕ
  approvedVotingPower : ℕ
  totalVotingPower : ℕ
deriving DecidableEq

/-- `reaches_three_quarters`, with the `saturating_mul` of `u128`. -/
def reachesThreeQuarters (approved total : ℕ) : Bool :=
  0 < total ∧ min (total * recoveryQuorumNumerator) (2 ^ 128 - 1) ≤
    min (approved * recoveryQuorumDenominator) (2 ^ 128 - 1)

/-- A validator of the first loop: its power is entered and added to the total. -/
def addValidator (acc : HashMap String UInt64 × ℕ) (validator : Validator) :
    Result (HashMap String UInt64 × ℕ) := do
  ensure (validator.votingPower ≠ 0) s!"검증자 {validator.id}의 투표권이 0입니다."
  ensure (validator.id ∉ acc.1) s!"중복 등록 검증자입니다: {validator.id}"
  ensure (acc.2 + validator.votingPower.toNat < 2 ^ 64)
    "전체 검증자 투표권 합계가 u64 범위를 넘습니다."
  return (acc.1.insert validator.id validator.votingPower, acc.2 + validator.votingPower.toNat)

/-- An id of the second loop. -/
def addApproval (powers : HashMap String UInt64) (approvedPower : ℕ) (id : String) : Result ℕ := do
  let power ← okOr (powers.lookup id) s!"미등록 검증자의 복구 승인이 포함됐습니다: {id}"
  ensure (approvedPower + power.toNat < 2 ^ 64) "승인 투표권 합계가 u64 범위를 넘습니다."
  return approvedPower + power.toNat

/-- `evaluate_recovery_approvals`. -/
def evaluateRecoveryApprovals (iteration : SetIteration String) (validators : List Validator)
    (approvalIds : List String) : Result RecoveryApprovalResult := do
  ensure (validators ≠ []) "복구 승인에 사용할 등록 검증자가 없습니다."
  let (powers, totalPower) ← validators.foldlM addValidator (∅, 0)
  let approvals := approvalIds.toFinset
  let approvedPower ← (iteration.order approvals).foldlM (addApproval powers) 0
  let countPassed := reachesThreeQuarters approvals.card validators.length
  let powerPassed := reachesThreeQuarters approvedPower totalPower
  let basis :=
    if countPassed then some RecoveryApprovalBasis.validatorCount
    else if powerPassed then some RecoveryApprovalBasis.votingPower
    else none
  return {
    approved := basis.isSome
    basis
    approvedValidators := approvals.card
    totalValidators := validators.length
    approvedVotingPower := approvedPower
    totalVotingPower := totalPower }

/-- `evaluate_checkpoint_recovery_approvals`. -/
def evaluateCheckpointRecoveryApprovals (iteration : SetIteration String)
    (validators : List Validator) (approvalIds : List String) : Result RecoveryApprovalResult := do
  let result ← evaluateRecoveryApprovals iteration validators approvalIds
  let countPassed := reachesThreeQuarters result.approvedValidators result.totalValidators
  let powerPassed := reachesThreeQuarters result.approvedVotingPower result.totalVotingPower
  let approved := countPassed && powerPassed
  return { result with
    approved
    basis := if approved then some RecoveryApprovalBasis.both else none }

end IeumChain
