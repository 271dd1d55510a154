import IeumChain.Lib.HashMap
import IeumChain.Lib.Result

/-!
# Governance (`governance.rs`)

The validators vote on the participation policy of the next epoch. A validator's newest vote
replaces its older one, and a policy for which more than two thirds of the power voted is final.
The votes stand in a hash map, whose iteration order is a parameter here. A policy raises the block
reward where fewer nodes than its goal are active and lowers it where more are.
-/

namespace IeumChain

open Lib

/-- `MONTH_SECONDS`. -/
def monthSeconds : ℕ := 30 * 24 * 60 * 60

structure RewardSplit where
  validatorBps : UInt16
  participantBps : UInt16
  treasuryBps : UInt16
deriving DecidableEq

/-- `RewardSplit::validate`. -/
def RewardSplit.validate (r : RewardSplit) : Result Unit :=
  ensure (r.validatorBps.toNat + r.participantBps.toNat + r.treasuryBps.toNat = 10000)
    "보상 배분 합계는 10,000bp(100%)여야 합니다."

structure ParticipationPolicy where
  targetActiveNodes : UInt32
  minimumUptimeBps : UInt16
  rewardPerBlock : UInt64
  rewardSplit : RewardSplit
deriving DecidableEq

namespace ParticipationPolicy

/-- `ratio_bps`: the goal over the active nodes in basis points, `.clamp(8_750, 11_250)`. -/
def ratioBps (p : ParticipationPolicy) (activeNodes : UInt32) : ℕ :=
  let target := max p.targetActiveNodes.toNat 1
  let active := max activeNodes.toNat 1
  max 8750 (min 11250 (target * 10000 / active))

/-- `adjusted_reward`. The last `as u64` keeps the low 64 bits. -/
def adjustedReward (p : ParticipationPolicy) (activeNodes : UInt32) : UInt64 :=
  UInt64.ofNat (p.rewardPerBlock.toNat * p.ratioBps activeNodes / 10000)

end ParticipationPolicy

structure Governance where
  epochStartedAt : UInt64
  votingPower : HashMap String UInt64
  votes : HashMap String (ParticipationPolicy × UInt64)

namespace Governance

/-- `Governance::new`. -/
def new (epochStartedAt : UInt64) (validators : List (String × UInt64)) : Governance :=
  { epochStartedAt, votingPower := HashMap.ofList validators, votes := ∅ }

/-- `vote`. -/
def vote (g : Governance) (now : UInt64) (validator : String) (proposal : ParticipationPolicy) :
    Result Governance := do
  ensure (g.epochStartedAt.toNat + monthSeconds < 2 ^ 64) "attempt to add with overflow"
  ensure (¬ now.toNat < g.epochStartedAt.toNat + monthSeconds)
    "정책 투표는 30일 epoch가 끝난 뒤 진행합니다."
  proposal.rewardSplit.validate
  let power ← okOr (g.votingPower.lookup validator) "등록 검증자가 아닙니다."
  return { g with votes := g.votes.insert validator (proposal, power) }

/-- One vote of the loop in `finalize`: its power is added to its policy. -/
def addPower (candidates : List (ParticipationPolicy × ℕ)) (vote : ParticipationPolicy × UInt64) :
    Result (List (ParticipationPolicy × ℕ)) :=
  match candidates with
  | [] => .ok [(vote.1, vote.2.toNat)]
  | (policy, sum) :: rest =>
    if policy = vote.1 then do
      ensure (sum + vote.2.toNat < 2 ^ 64) "attempt to add with overflow"
      return (policy, sum + vote.2.toNat) :: rest
    else do
      let rest ← addPower rest vote
      return (policy, sum) :: rest

/-- `finalize`, with the values of the vote map in the order in which they are iterated over. -/
def finalize (g : Governance) (values : List (ParticipationPolicy × UInt64)) :
    Result (Option ParticipationPolicy) := do
  let total := HashMap.total UInt64.toNat g.votingPower
  ensure (total < 2 ^ 64) "attempt to add with overflow"
  let candidates ← values.foldlM addPower []
  return (candidates.find? fun candidate =>
    decide (saturatingMul total 2 < saturatingMul candidate.2 3)).map Prod.fst

/-! ## Calls -/

/-- A call of `vote`. -/
structure VoteCall where
  now : UInt64
  validator : String
  proposal : ParticipationPolicy

/-- Does `vote` accept the call? -/
def accepts (g : Governance) (call : VoteCall) : Bool :=
  isOk (g.vote call.now call.validator call.proposal)

/-- The governance after a call. A refused vote changes nothing. -/
def called (g : Governance) (call : VoteCall) : Governance :=
  getOk (g.vote call.now call.validator call.proposal) g

/-- The governance after a sequence of calls. -/
def voted (g : Governance) (calls : List VoteCall) : Governance := calls.foldl called g

/-- The calls that are accepted, each in the state that the ones before it left. -/
def accepted : Governance → List VoteCall → List VoteCall
  | _, [] => []
  | g, call :: calls =>
    if g.accepts call then call :: accepted (g.called call) calls
    else accepted (g.called call) calls

/-- The policy of a validator's last accepted vote. -/
def lastVote (g : Governance) (calls : List VoteCall) (id : String) : Option ParticipationPolicy :=
  ((accepted g calls).filter fun call => call.validator = id).getLast?.map VoteCall.proposal

/-- The power of the validators whose last accepted vote is for a policy. -/
def support (g : Governance) (validators : List (String × UInt64)) (calls : List VoteCall)
    (p : ParticipationPolicy) : ℕ :=
  (validators.map fun v => if g.lastVote calls v.1 = some p then v.2.toNat else 0).sum

end Governance

end IeumChain
