import IeumChain.Model
import IeumChain.Lib.HashMap
import IeumChain.Lib.Quorum
import Mathlib.Data.String.Basic

/-!
# The consensus state machine (`consensus.rs`)

* the signed messages of the protocol, proposals and votes, with their signing bytes;
* `DoubleVoteEvidence` and `FinalityCertificate`, which anyone can check against the validators;
* `BftConsensus`, one validator's state in the propose, prevote, precommit cycle.

A function that may change the state before it fails returns the result together with the state.
-/

namespace IeumChain

open Lib

/-- A validator and its voting power. -/
structure Validator where
  id : String
  votingPower : UInt64
deriving DecidableEq

inductive ConsensusPhase where
  | waiting
  | propose
  | prevote
  | precommit
  | finalized
deriving DecidableEq

inductive VoteType where
  | prevote
  | precommit
deriving DecidableEq

/-- The byte that stands for the type in the signing bytes. -/
def VoteType.code : VoteType → UInt8
  | .prevote => 1
  | .precommit => 2

/-! ## Messages -/

/-- A candidate block signed by its proposer. -/
structure SignedProposal where
  height : UInt64
  round : UInt32
  proposerId : String
  validRound : Option UInt32
  block : Block
  signature : String
deriving DecidableEq

namespace SignedProposal

/-- `SignedProposal::unsigned_bytes`. -/
def unsignedBytes (height : UInt64) (round : UInt32) (proposerId blockHash : String)
    (validRound : Option UInt32) : Bytes :=
  textBytes "IEUM-PROPOSAL-V2" ++ beBytes 8 height.toNat ++ beBytes 4 round.toNat ++
    pushText proposerId ++ pushText blockHash ++
    beBytes 4 (validRound.getD (UInt32.ofNat (2 ^ 32 - 1))).toNat

variable [Primitives]

/-- `SignedProposal::verify`. -/
def verify (p : SignedProposal) : Result Unit := do
  ensure (p.height = p.block.height) "제안 높이와 블록 높이가 다릅니다."
  ensure (p.block.hash = p.block.calculateHash) "제안 블록 해시가 올바르지 않습니다."
  verifySignature p.proposerId
    (unsignedBytes p.height p.round p.proposerId p.block.hash p.validRound) p.signature

/-- `SignedProposal::from_signature`. -/
def fromSignature (height : UInt64) (round : UInt32) (proposerId : String) (block : Block)
    (validRound : Option UInt32) (signature : String) : Result SignedProposal := do
  let proposal : SignedProposal := { height, round, proposerId, validRound, block, signature }
  proposal.verify
  return proposal

end SignedProposal

/-- A vote of a validator for a block hash. -/
structure ConsensusMessage where
  height : UInt64
  round : UInt32
  validatorId : String
  voteType : VoteType
  blockHash : String
  signature : String
deriving DecidableEq

namespace ConsensusMessage

/-- `ConsensusMessage::unsigned_bytes`. -/
def unsignedBytes (height : UInt64) (round : UInt32) (validatorId : String)
    (voteType : VoteType) (blockHash : String) : Bytes :=
  textBytes "IEUM-CONSENSUS-V1" ++ beBytes 8 height.toNat ++ beBytes 4 round.toNat ++
    [voteType.code] ++ pushText validatorId ++ pushText blockHash

variable [Primitives]

/-- `ConsensusMessage::verify`. -/
def verify (m : ConsensusMessage) : Result Unit :=
  verifySignature m.validatorId
    (unsignedBytes m.height m.round m.validatorId m.voteType m.blockHash) m.signature

/-- `ConsensusMessage::from_signature`. -/
def fromSignature (height : UInt64) (round : UInt32) (validatorId : String)
    (voteType : VoteType) (blockHash signature : String) : Result ConsensusMessage := do
  let message : ConsensusMessage := { height, round, validatorId, voteType, blockHash, signature }
  message.verify
  return message

end ConsensusMessage

/-! ## Evidence and certificates -/

/-- Two votes of one validator in one step for different blocks. -/
structure DoubleVoteEvidence where
  first : ConsensusMessage
  second : ConsensusMessage
deriving DecidableEq

namespace DoubleVoteEvidence

/-- `DoubleVoteEvidence::id`. -/
def id (e : DoubleVoteEvidence) : String :=
  let voteType := match e.first.voteType with
    | .prevote => "Prevote"
    | .precommit => "Precommit"
  s!"{e.first.validatorId}:{e.first.height}:{e.first.round}:{voteType}"

variable [Primitives]

/-- `DoubleVoteEvidence::verify`. -/
def verify (e : DoubleVoteEvidence) : Result Unit := do
  e.first.verify
  e.second.verify
  ensure (e.first.height = e.second.height ∧ e.first.round = e.second.round ∧
      e.first.voteType = e.second.voteType ∧ e.first.validatorId = e.second.validatorId ∧
      e.first.blockHash ≠ e.second.blockHash)
    "유효한 이중투표 증거가 아닙니다."

/-- `DoubleVoteEvidence::new`. -/
def new (first second : ConsensusMessage) : Result DoubleVoteEvidence := do
  let evidence : DoubleVoteEvidence := { first, second }
  evidence.verify
  return evidence

end DoubleVoteEvidence

/-- The sum of all voting powers. -/
def sumPower (validators : List Validator) : ℕ :=
  (validators.map fun v => v.votingPower.toNat).sum

/-- The voting power of every registered id. -/
def powers (validators : List Validator) : HashMap String ℕ :=
  HashMap.ofList (validators.map fun v => (v.id, v.votingPower.toNat))

/-- The error texts in which the two kinds of certificates differ. -/
structure CertificateErrors where
  mixed : String
  unregistered : String
  range : String
  quorum : String

section Certificates
variable [Primitives]

/-- One vote of a certificate: it must be one the certificate is about, signed and by a
registered validator. The state holds the voters so far and their power, to which a repeated
vote adds nothing. -/
def countVote (errors : CertificateErrors) (expected : ConsensusMessage → Bool)
    (powers : HashMap String ℕ) (state : Finset String × ℕ) (vote : ConsensusMessage) :
    Result (Finset String × ℕ) := do
  let (voters, signedPower) := state
  ensure (expected vote = true) errors.mixed
  vote.verify
  let power ← okOr (powers.lookup vote.validatorId) errors.unregistered
  if vote.validatorId ∈ voters then return (voters, signedPower)
  else
    ensure (signedPower + power < 2 ^ 128) errors.range
    return (insert vote.validatorId voters, signedPower + power)

/-- The votes of a certificate carry more than two thirds of the power. -/
def verifyVotes (errors : CertificateErrors) (validators : List Validator)
    (expected : ConsensusMessage → Bool) (votes : List ConsensusMessage) : Result Unit := do
  ensure (sumPower validators ≠ 0) "검증자 총 투표권이 0입니다."
  let (_, signedPower) ← votes.foldlM (countVote errors expected (powers validators)) (∅, 0)
  ensure (sumPower validators * 2 < signedPower * 3) errors.quorum

end Certificates

/-- A finalised block with the precommits that finalised it. -/
structure FinalityCertificate where
  block : Block
  round : UInt32
  precommits : List ConsensusMessage
deriving DecidableEq

namespace FinalityCertificate

/-- The errors of `FinalityCertificate::verify`. -/
def errors : CertificateErrors :=
  { mixed := "확정 인증서에 다른 높이·라운드·블록 투표가 섞였습니다."
    unregistered := "등록되지 않은 검증자의 precommit입니다."
    range := "확정 투표권 합계가 범위를 넘었습니다."
    quorum := "확정에 필요한 2/3 초과 precommit이 없습니다." }

/-- The votes a certificate may hold. -/
def expects (c : FinalityCertificate) (vote : ConsensusMessage) : Bool :=
  decide (vote.height = c.block.height ∧ vote.round = c.round ∧ vote.voteType = .precommit ∧
    vote.blockHash = c.block.hash)

/-- `FinalityCertificate::verify`. -/
def verify [Primitives] (c : FinalityCertificate) (validators : List Validator) :
    Result Unit := do
  ensure (c.block.hash = c.block.calculateHash) "확정 인증서의 블록 해시가 올바르지 않습니다."
  verifyVotes errors validators c.expects c.precommits

end FinalityCertificate

/-! ## The state machine -/

/-- The place of a vote: height, round, type and validator. -/
abbrev VoteKey := UInt64 × UInt32 × VoteType × String

/-- A validator's view of the current height and round, with its lock. -/
structure BftConsensus where
  validators : HashMap String UInt64
  totalPower : UInt64
  height : UInt64
  round : UInt32
  phase : ConsensusPhase
  proposal : Option String
  votes : HashMap (VoteType × String) (Finset String)
  voteHistory : HashMap VoteKey String
  voteMessages : HashMap VoteKey ConsensusMessage
  lockedValue : Option String
  lockedRound : Option UInt32
  validValue : Option String
  validRound : Option UInt32
  evidence : List DoubleVoteEvidence
  finalized : Option String
deriving DecidableEq

namespace BftConsensus

/-- One validator of the list given to `new`. -/
def addValidator (map : HashMap String UInt64) (v : Validator) :
    Result (HashMap String UInt64) := do
  ensure (v.votingPower ≠ 0 ∧ v.id ∉ map)
    "검증자 ID는 고유해야 하고 투표권은 1 이상이어야 합니다."
  return map.insert v.id v.votingPower

/-- The state machine before its first round. -/
def waiting (validators : HashMap String UInt64) (totalPower : UInt64) : BftConsensus :=
  { validators, totalPower, height := 0, round := 0, phase := .waiting, proposal := none
    votes := ∅, voteHistory := ∅, voteMessages := ∅, lockedValue := none, lockedRound := none
    validValue := none, validRound := none, evidence := [], finalized := none }

/-- `BftConsensus::new`. The sum of the powers ends the call where it overflows. -/
def new (validators : List Validator) : Result BftConsensus := do
  ensure (validators ≠ []) "BFT 검증자는 최소 1개 필요합니다."
  let map ← validators.foldlM addValidator ∅
  let total := HashMap.total UInt64.toNat map
  ensure (total < 2 ^ 64) "attempt to add with overflow"
  return waiting map (UInt64.ofNat total)

/-- `start_round`: a later height opens the lock, a later round keeps it. -/
def startRound (c : BftConsensus) (height : UInt64) (round : UInt32) : Result BftConsensus := do
  ensure (¬ (height < c.height ∨ (height = c.height ∧ round < c.round)))
    "과거 높이 또는 과거 라운드로 돌아갈 수 없습니다."
  let c := if c.height < height then
      { c with lockedValue := none, lockedRound := none, validValue := none, validRound := none }
    else c
  return { c with height, round, phase := .propose, proposal := none, votes := ∅,
                  finalized := none }

/-- `expected_proposer`: the validators take turns in the order of their ids. -/
def expectedProposer (c : BftConsensus) : Result String := do
  let turn := (c.height.toNat - 1) + c.round.toNat
  ensure (turn < 2 ^ 64) "attempt to add with overflow"
  let ids := sortedList c.validators.keys
  okOr ids[turn % ids.length]? "attempt to calculate the remainder with a divisor of zero"

/-- `propose`. -/
def propose (c : BftConsensus) (proposer blockHash : String) : Result BftConsensus := do
  ensure (c.phase = .propose) "현재 단계에서는 블록을 제안할 수 없습니다."
  let expected ← c.expectedProposer
  ensure (proposer = expected) s!"이번 라운드의 제안자는 {expected}입니다."
  ensure (blockHash ≠ "") "빈 블록 해시는 제안할 수 없습니다."
  return { c with proposal := some blockHash, phase := .prevote }

/-- May the locked value be left for a proposal? -/
def unlockAllowed (c : BftConsensus) (p : SignedProposal) : Bool :=
  match p.validRound, c.lockedRound with
  | some validRound, some lockedRound =>
    decide (lockedRound ≤ validRound ∧ c.validRound = some validRound ∧
      c.validValue = some p.block.hash)
  | _, _ => false

/-- `handle_proposal`. -/
def handleProposal [Primitives] (c : BftConsensus) (p : SignedProposal) :
    Result BftConsensus := do
  ensure (p.height = c.height ∧ p.round = c.round) "현재 높이/라운드와 다른 제안입니다."
  ensure (p.proposerId ∈ c.validators) "등록되지 않은 검증자의 제안입니다."
  p.verify
  ensure (c.lockedValue = none ∨ c.lockedValue = some p.block.hash ∨ c.unlockAllowed p = true)
    "잠긴 값과 다른 제안이며 유효한 valid_round 증명이 없습니다."
  c.propose p.proposerId p.block.hash

/-- The voting power of a registered id, 0 for others. -/
def powerOf (c : BftConsensus) (id : String) : ℕ :=
  ((c.validators.lookup id).map UInt64.toNat).getD 0

/-- The validators that voted for a block in the current round. -/
def voters (c : BftConsensus) (key : VoteType × String) : Finset String :=
  (c.votes.lookup key).getD ∅

/-- `has_quorum`: more than two thirds, in saturating arithmetic. -/
def hasQuorum (c : BftConsensus) (key : VoteType × String) : Bool :=
  decide (saturatingMul c.totalPower.toNat 2 < saturatingMul (weight c.powerOf (c.voters key)) 3)

/-- The votes `handle` takes in a phase. -/
def takesVote : ConsensusPhase → VoteType → Bool
  | .prevote, .prevote => true
  | .precommit, _ => true
  | .finalized, _ => true
  | _, _ => false

/-- The key of a message in the vote history. -/
def historyKey (m : ConsensusMessage) : VoteKey := (m.height, m.round, m.voteType, m.validatorId)

section
variable [Primitives]

/-- The first part of `handle`: is the vote one for now, registered and signed? -/
def checkVote (c : BftConsensus) (m : ConsensusMessage) : Result Unit := do
  ensure (m.height = c.height ∧ m.round = c.round) "현재 높이/라운드와 다른 투표입니다."
  ensure (m.validatorId ∈ c.validators) "등록되지 않은 검증자의 투표입니다."
  m.verify
  ensure (takesVote c.phase m.voteType = true) "현재 합의 단계와 투표 종류가 일치하지 않습니다."

/-- Keep the evidence a second vote makes, once for each place. -/
def addEvidence (c : BftConsensus) (m : ConsensusMessage) : BftConsensus :=
  match c.voteMessages.lookup (historyKey m) with
  | none => c
  | some first =>
    match DoubleVoteEvidence.new first m with
    | .error _ => c
    | .ok e =>
      if e.id ∈ c.evidence.map DoubleVoteEvidence.id then c
      else { c with evidence := c.evidence ++ [e] }

/-- The second part of `handle`: remember the first vote of each place, refuse a different one. -/
def recordVote (c : BftConsensus) (m : ConsensusMessage) : Result Unit × BftConsensus :=
  match c.voteHistory.lookup (historyKey m) with
  | some previousHash =>
    if previousHash = m.blockHash then (.ok (), c)
    else (.error "동일 높이·라운드에서 서로 다른 블록에 이중투표했습니다.", c.addEvidence m)
  | none =>
    (.ok (), { c with voteHistory := c.voteHistory.insert (historyKey m) m.blockHash
                      voteMessages := c.voteMessages.insert (historyKey m) m })

end

/-- Add a voter to those of its block. -/
def addVoter (c : BftConsensus) (m : ConsensusMessage) : BftConsensus :=
  { c with votes := c.votes.insert (m.voteType, m.blockHash)
                      (insert m.validatorId (c.voters (m.voteType, m.blockHash))) }

/-- What a quorum for the vote's block changes: prevotes lock it, precommits finalise it. -/
def onQuorum (c : BftConsensus) (m : ConsensusMessage) : BftConsensus :=
  match m.voteType with
  | .prevote =>
    if c.phase = .prevote then
      { c with validValue := some m.blockHash, validRound := some c.round
               lockedValue := some m.blockHash, lockedRound := some c.round
               phase := .precommit }
    else c
  | .precommit => { c with phase := .finalized, finalized := some m.blockHash }

/-- The last part of `handle`: count the vote and act on a quorum. -/
def acceptVote (c : BftConsensus) (m : ConsensusMessage) : BftConsensus :=
  let c := c.addVoter m
  if c.hasQuorum (m.voteType, m.blockHash) = true ∧ c.phase ≠ .finalized then c.onQuorum m else c

/-- `handle`. -/
def handle [Primitives] (c : BftConsensus) (m : ConsensusMessage) : Result Unit × BftConsensus :=
  match c.checkVote m with
  | .error e => (.error e, c)
  | .ok () =>
    match c.recordVote m with
    | (.error e, c) => (.error e, c)
    | (.ok (), c) =>
      if c.proposal = some m.blockHash then (.ok (), c.acceptVote m)
      else (.error "현재 제안과 다른 블록에 대한 투표입니다.", c)

/-- `on_timeout`: the next round of the same height. -/
def onTimeout (c : BftConsensus) : Result BftConsensus := do
  ensure (c.round.toNat + 1 < 2 ^ 32) "합의 라운드 번호가 범위를 넘었습니다."
  c.startRound c.height (c.round + 1)

/-- `take_evidence`. -/
def takeEvidence (c : BftConsensus) : List DoubleVoteEvidence × BftConsensus :=
  (c.evidence, { c with evidence := [] })

/-- `valid_value`. -/
def validPair (c : BftConsensus) : Option (String × UInt32) :=
  c.validValue.bind fun value => c.validRound.map fun round => (value, round)

end BftConsensus

end IeumChain
