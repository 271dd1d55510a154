import IeumChain.Consensus
import IeumChain.Lib.Ranking
import IeumChain.Lib.Result
import IeumChain.Lib.Tally
import IeumChain.Lib.Text
import Mathlib.Data.Prod.Lex
import Mathlib.Data.String.Basic

/-!
# The selection of validators (`validator_policy.rs`)

From the registered candidates and the ledger, every node computes the same validators: those that
are reachable and own their stake account, and have enough stake, are among the largest of their
country, or are approved. The order in which the countries of the hash map are iterated over is a
parameter.
-/

namespace IeumChain

open Lib

/-- `BPS_DENOMINATOR`. -/
def bpsDenominator : U128 := 10000

structure ValidatorCandidate where
  validatorId : String
  stakeAccount : String
  delegatedStake : U128
  countryCode : Option String
  identityCountryVerified : Bool
  ownershipProofVerified : Bool
  nodeEndpoint : Option String
  observedEpochs : UInt64
  uptimeBps : UInt16
  administratorApproved : Bool
  blocked : Bool
deriving DecidableEq

structure ValidatorPolicy where
  minStakeBps : UInt16
  countryRankLimit : UInt16
  maxValidators : ℕ
  minValidators : ℕ
  minUptimeBps : UInt16
deriving DecidableEq

/-- `ValidatorPolicy::default`. -/
def ValidatorPolicy.default : ValidatorPolicy :=
  { minStakeBps := 100
    countryRankLimit := 50
    maxValidators := 50
    minValidators := 4
    minUptimeBps := 9500 }

structure SelectedValidator where
  validator : Validator
  stake : U128
deriving DecidableEq

/-- `saturating_mul` of `u128`. -/
def mulSaturating (a b : U128) : U128 := BitVec.ofNat 128 (min (a.toNat * b.toNat) (2 ^ 128 - 1))

/-- `validate_candidate`. -/
def validateCandidate (c : ValidatorCandidate) : Result Unit := do
  ensure ((hexDecode c.validatorId).map List.length = some 32)
    "검증자 ID는 32바이트 Ed25519 공개키 hex여야 합니다."
  let account := trimStart0x c.stakeAccount
  ensure (textLen account = 40 ∧ (hexDecode account).isSome)
    "지분 계좌는 20바이트 Ethereum 주소여야 합니다."
  ensure (¬ (c.identityCountryVerified ∧ textLen (c.countryCode.getD "") ≠ 2))
    "국가 인증 후보에는 2자리 국가 코드가 필요합니다."
  ensure (c.nodeEndpoint ≠ some "") "노드 접속 주소는 비어 있을 수 없습니다."

/-- `normalize_account`. -/
def normalizeAccount (value : String) : String := "0x" ++ toAsciiLowercase (trimStart0x value)

/-- `voting_power`. -/
def votingPower (stake circulatingSupply : U128) : UInt64 :=
  let proportional := (mulSaturating stake 1000000).toNat / circulatingSupply.toNat
  UInt64.ofNat (min (max proportional 1) (2 ^ 64 - 1))

/-- The order of both sorts: the larger stake first, and of equal stakes the smaller id. -/
def rankKey (stake : U128) (id : String) : ℕᵒᵈ ×ₗ String := toLex (OrderDual.toDual stake.toNat, id)

/-- A candidate that meets the common conditions, with its stake and whether it is enough. -/
abbrev EligibleCandidate := ValidatorCandidate × U128 × Bool

namespace ValidatorPolicy

/-- `ValidatorPolicy::validate`. -/
def validate (p : ValidatorPolicy) : Result Unit := do
  ensure (p.minStakeBps ≠ 0 ∧ p.minStakeBps.toNat ≤ bpsDenominator.toNat)
    "최소 지분 비율은 1~10,000 bps여야 합니다."
  ensure (p.countryRankLimit ≠ 0) "국가 순위 제한은 1 이상이어야 합니다."
  ensure (4 ≤ p.minValidators ∧ p.minValidators ≤ p.maxValidators)
    "검증자는 최소 4명이고 최대 인원은 최소 인원 이상이어야 합니다."
  ensure (p.minUptimeBps ≤ 10000) "최소 정상 응답률은 0~10,000 bps여야 합니다."

/-- Does a candidate meet the common conditions? -/
def meets (p : ValidatorPolicy) (c : ValidatorCandidate) : Bool :=
  !(c.blocked || !c.ownershipProofVerified || c.nodeEndpoint.isNone ||
    (0 < c.observedEpochs && c.uptimeBps < p.minUptimeBps))

/-- The stake of a candidate: the balance of its account and what is delegated to it. -/
def stakeOf (balances : HashMap String U128) (c : ValidatorCandidate) : U128 :=
  U128.saturatingAdd ((balances.lookup (normalizeAccount c.stakeAccount)).getD 0) c.delegatedStake

/-- What the first loop of `select` pushes for a candidate. -/
def eligibleCandidate (p : ValidatorPolicy) (balances : HashMap String U128)
    (circulatingSupply : U128) (c : ValidatorCandidate) : EligibleCandidate :=
  let stake := stakeOf balances c
  (c, stake, mulSaturating circulatingSupply (BitVec.ofNat 128 p.minStakeBps.toNat) ≤
    mulSaturating stake bpsDenominator)

/-- The state of the first loop of `select`. -/
structure Eligibility where
  validatorIds : Finset String
  stakeAccounts : Finset String
  eligible : List EligibleCandidate

/-- One candidate of the first loop of `select`. -/
def checkCandidate (p : ValidatorPolicy) (balances : HashMap String U128)
    (circulatingSupply : U128) (s : Eligibility) (c : ValidatorCandidate) :
    Result Eligibility := do
  validateCandidate c
  ensure (c.validatorId ∉ s.validatorIds) "중복된 검증자 공개키가 있습니다."
  let account := normalizeAccount c.stakeAccount
  ensure (account ∉ s.stakeAccounts)
    "하나의 지분 계좌를 여러 검증자 후보가 사용할 수 없습니다."
  return {
    validatorIds := insert c.validatorId s.validatorIds
    stakeAccounts := insert account s.stakeAccounts
    eligible :=
      if p.meets c then s.eligible ++ [p.eligibleCandidate balances circulatingSupply c]
      else s.eligible }

/-- One candidate of the loop that groups by country. -/
def groupCandidate (countries : HashMap String (List (ValidatorCandidate × U128)))
    (entry : EligibleCandidate) : HashMap String (List (ValidatorCandidate × U128)) :=
  match entry.1.identityCountryVerified, entry.1.countryCode with
  | true, some country =>
    countries.insert country ((countries.lookup country).getD [] ++ [(entry.1, entry.2.1)])
  | _, _ => countries

/-- One country of the ranking loop: the ids of its largest candidates are added. -/
def rankCountry (p : ValidatorPolicy) (countryRanked : Finset String)
    (ranked : List (ValidatorCandidate × U128)) : Finset String :=
  ((sortBy (fun entry => rankKey entry.2 entry.1.validatorId) ranked).take
    p.countryRankLimit.toNat).foldl (fun ids entry => insert entry.1.validatorId ids) countryRanked

/-- `select`. -/
def select (p : ValidatorPolicy)
    (iteration : HashMap.Iteration String (List (ValidatorCandidate × U128)))
    (candidates : List ValidatorCandidate) (balances : HashMap String U128)
    (circulatingSupply : U128) : Result (List SelectedValidator) := do
  p.validate
  ensure (circulatingSupply ≠ 0) "유통량은 0일 수 없습니다."
  let s ← candidates.foldlM (p.checkCandidate balances circulatingSupply) ⟨∅, ∅, []⟩
  let countries := s.eligible.foldl groupCandidate ∅
  let countryRanked := (iteration.values countries).foldl p.rankCountry ∅
  let selected := (s.eligible.filter fun entry =>
    entry.2.2 || decide (entry.1.validatorId ∈ countryRanked) || entry.1.administratorApproved).map
      fun entry => SelectedValidator.mk
        { id := entry.1.validatorId, votingPower := votingPower entry.2.1 circulatingSupply }
        entry.2.1
  let selected := (sortBy (fun v : SelectedValidator => rankKey v.stake v.validator.id)
    selected).take p.maxValidators
  ensure (p.minValidators ≤ selected.length)
    s!"선발된 검증자가 {selected.length}명입니다. BFT 실행에는 최소 {p.minValidators}명이 필요합니다."
  return selected

end ValidatorPolicy

end IeumChain
