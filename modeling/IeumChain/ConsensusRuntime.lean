import IeumChain.Consensus
import IeumChain.Chain

/-!
# The consensus runtime (`consensus_runtime.rs`)

A node's chain and its consensus state machine, driven by proposals, votes, timeouts and the
certificates other nodes send. A candidate block stays in `pending` until its precommits are
there, and only then reaches the chain.

* What a call reads from outside, the clocks and the signer, is a `Reading`; a call that reads
  several times takes them from a sequence.
* A call returns its result together with the runtime it leaves behind, also when it fails.
-/

namespace IeumChain

open Lib

/-- The time limits of the phases. -/
structure ConsensusTimeouts where
  propose : ℕ
  prevote : ℕ
  precommit : ℕ
deriving DecidableEq

/-- `for_phase`. -/
def ConsensusTimeouts.forPhase (t : ConsensusTimeouts) : ConsensusPhase → ℕ
  | .waiting | .propose => t.propose
  | .prevote => t.prevote
  | .precommit | .finalized => t.precommit

/-- What the outside world answers: the seconds since the epoch (`none` before it), the monotonic
clock, and the signature of the node's signer. -/
structure Reading where
  now : Option UInt64
  instant : ℕ
  sign : Bytes → Result String

/-- The consensus core of a node. The schedule was checked when it was set. -/
structure ConsensusRuntime [Primitives] where
  chain : Blockchain
  consensus : BftConsensus
  validator : String
  pending : Option Block
  validBlock : Option Block
  deadline : ℕ
  timeouts : ConsensusTimeouts
  validators : List Validator
  precommits : List ConsensusMessage
  deferredVotes : List ConsensusMessage
  finalized : List FinalityCertificate
  pendingFinalized : List FinalityCertificate
  eventSchedule : EventSchedule
  scheduleValid : eventSchedule.validate = .ok ()

/-- `is_deferable_vote_error`. -/
def isDeferableVoteError (error : String) : Bool :=
  error == "현재 합의 단계와 투표 종류가 일치하지 않습니다."

/-- `MAX_DEFERRED_VOTES`. -/
def maxDeferredVotes : ℕ := 1024

/-- `MAX_SYNC_BYTES`. -/
def maxSyncBytes : ℕ := 1500000

/-- The limit on the certificates of one answer. -/
def maxSyncCertificates : ℕ := 128

namespace ConsensusRuntime
variable [Primitives]

/-! ## Construction -/

/-- The height after the tip, 1 for a chain without blocks. -/
def nextHeight (chain : Blockchain) : Result UInt64 :=
  match chain.blocks.getLast? with
  | some block => addOne block.height
  | none => .ok 1

/-- `with_signer`. -/
def withSigner (chain : Blockchain) (validators : List Validator) (validator : String)
    (timeouts : ConsensusTimeouts) (instant : ℕ) : Result ConsensusRuntime := do
  let next ← nextHeight chain
  let consensus ← BftConsensus.new validators
  let consensus ← consensus.startRound next 0
  return { chain, consensus, validator, pending := none, validBlock := none
           deadline := instant + timeouts.propose, timeouts, validators, precommits := []
           deferredVotes := [], finalized := [], pendingFinalized := []
           eventSchedule := EventSchedule.empty, scheduleValid := EventSchedule.validate_empty }

/-- `set_event_schedule`. -/
def setEventSchedule (r : ConsensusRuntime) (schedule : EventSchedule) :
    Result ConsensusRuntime :=
  match h : schedule.validate with
  | .ok () => .ok { r with eventSchedule := schedule, scheduleValid := h }
  | .error e => .error e

/-- `replace_bootstrap_validators`: only before the first block, and without a candidate. -/
def replaceBootstrapValidators (r : ConsensusRuntime) (env : Reading)
    (validators : List Validator) : Result ConsensusRuntime := do
  ensure (r.chain.tipHeight = 0 ∧ r.pending = none)
    "제네시스 이후에는 epoch 변경 절차 없이 검증자 집합을 바꿀 수 없습니다."
  let consensus ← BftConsensus.new validators
  let consensus ← consensus.startRound 1 0
  return { r with consensus, validators, validBlock := none, precommits := []
                  deadline := env.instant + r.timeouts.forPhase consensus.phase }

/-! ## Checks of a block against the schedule -/

/-- The built-in rewards of a block: known id, the right recipients, valid and new. -/
def checkBuiltinEvent (validators : List Validator) (executed : Finset String)
    (e : ScheduledEvent) : Result Unit :=
  let finish : Result Unit := do
    e.validate
    ensure (e.id ∉ executed) s!"이벤트 {e.id}는 이미 실행됐습니다."
  match e.action with
  | .bootstrapValidatorReward registrations _ => do
    ensure (e.id = "ieum-bootstrap-validator-reward-v1")
      "내장 최초 보상 이벤트 ID가 올바르지 않습니다."
    let rewarded := (registrations.map ValidatorRegistration.validatorId).insertionSort (· ≤ ·)
    let active := (validators.map Validator.id).insertionSort (· ≤ ·)
    ensure (rewarded = active) "최초 검증자 보상 대상이 현재 활성 검증자 집합과 다릅니다."
    finish
  | .nodeMilestoneReward _ _ => do
    ensure (e.id = "ieum-node-100-reward-v1") "내장 최초 보상 이벤트 ID가 올바르지 않습니다."
    finish
  | _ => .ok ()

/-- The events of a block a schedule configures. -/
def configuredEvents (block : Block) : List ScheduledEvent :=
  block.systemEvents.filter fun e => !e.action.isBuiltin

/-- `validate_scheduled_block`: the time of the block is not before the tip's nor in the future,
and its events are those due and the built-in ones. -/
def validateScheduledBlock (r : ConsensusRuntime) (now : Option UInt64) (block : Block) :
    Result Unit := do
  let previous ← okOr r.chain.blocks.getLast? "이전 블록이 없습니다."
  ensure (previous.timestamp ≤ block.timestamp) "블록 시각은 이전 블록보다 빠를 수 없습니다."
  let now ← okOr now "시스템 시각이 Unix epoch보다 이전입니다."
  ensure (block.timestamp.toNat ≤ min (now.toNat + maxClockDriftSeconds) (2 ^ 64 - 1))
    "블록 시각이 허용된 미래 오차를 넘었습니다."
  r.eventSchedule.validateBlockEvents block.timestamp (configuredEvents block)
    r.chain.executedEvents
  block.systemEvents.forM (checkBuiltinEvent r.validators r.chain.executedEvents)

/-! ## Proposals -/

/-- `reset_deadline`. -/
def resetDeadline (r : ConsensusRuntime) (env : Reading) : ConsensusRuntime :=
  { r with deadline := env.instant + r.timeouts.forPhase r.consensus.phase }

/-- `sign_vote`. -/
def signVote (r : ConsensusRuntime) (env : Reading) (height : UInt64) (round : UInt32)
    (voteType : VoteType) (blockHash : String) : Result ConsensusMessage := do
  let signature ← env.sign
    (ConsensusMessage.unsignedBytes height round r.validator voteType blockHash)
  ConsensusMessage.fromSignature height round r.validator voteType blockHash signature

/-- `make_proposal`: a block this node saw a quorum of prevotes for is proposed again. -/
def makeProposal (r : ConsensusRuntime) (env : Reading) (block : Block) :
    Result SignedProposal := do
  ensure (r.consensus.phase = .propose) "현재 단계에서는 새 블록 제안을 만들 수 없습니다."
  let expected ← r.consensus.expectedProposer
  ensure (r.validator = expected) "이 노드는 현재 라운드 제안자가 아닙니다."
  let (block, validRound) := match r.validBlock, r.consensus.validPair with
    | some validBlock, some (validHash, validRound) =>
      if validBlock.hash = validHash then (validBlock, some validRound) else (block, none)
    | _, _ => (block, none)
  let signature ← env.sign (SignedProposal.unsignedBytes block.height r.consensus.round
    r.validator block.hash validRound)
  SignedProposal.fromSignature block.height r.consensus.round r.validator block validRound
    signature

/-- `receive_proposal` up to the signature of the prevote. -/
def acceptProposal (r : ConsensusRuntime) (env : Reading) (p : SignedProposal) :
    Result ConsensusRuntime := do
  let previous ← okOr r.chain.blocks.getLast? "제네시스 블록이 없습니다."
  ensure (p.block.previousHash = previous.hash) "제안 블록이 현재 체인의 다음 블록이 아닙니다."
  let next ← addOne previous.height
  ensure (p.block.height = next) "제안 블록이 현재 체인의 다음 블록이 아닙니다."
  r.validateScheduledBlock env.now p.block
  let consensus ← r.consensus.handleProposal p
  return { r with consensus, pending := some p.block }.resetDeadline env

/-- `receive_proposal`. -/
def receiveProposal (r : ConsensusRuntime) (env : Reading) (p : SignedProposal) :
    Result ConsensusMessage × ConsensusRuntime :=
  match r.acceptProposal env p with
  | .error e => (.error e, r)
  | .ok r => (r.signVote env p.height p.round .prevote p.block.hash, r)

/-! ## Votes -/

/-- Keep a precommit, one for each height, round and validator. -/
def keepPrecommit (r : ConsensusRuntime) (vote : ConsensusMessage) : ConsensusRuntime :=
  if vote.voteType = .precommit ∧ ∀ known ∈ r.precommits,
      ¬ (known.height = vote.height ∧ known.round = vote.round ∧
        known.validatorId = vote.validatorId) then
    { r with precommits := r.precommits ++ [vote] }
  else r

/-- What a change of phase changes: a new lock keeps its block, and the time limit restarts. -/
def onPhaseChange (r : ConsensusRuntime) (env : Reading) (previousPhase : ConsensusPhase) :
    ConsensusRuntime :=
  if previousPhase = r.consensus.phase then r
  else
    let r := if previousPhase = .prevote ∧ r.consensus.phase = .precommit then
        { r with validBlock := r.pending }
      else r
    r.resetDeadline env

/-- The precommit for the candidate. -/
def precommitPending (r : ConsensusRuntime) (env : Reading) :
    Result (Option ConsensusMessage) := do
  let block ← okOr r.pending "후보 블록이 없습니다."
  let precommit ← r.signVote env block.height r.consensus.round .precommit block.hash
  return some precommit

/-- The certificate for a block, from the precommits kept. -/
def certificateFor (r : ConsensusRuntime) (block : Block) : FinalityCertificate :=
  { block, round := r.consensus.round, precommits := r.precommits }

/-- Apply the candidate with its certificate. -/
def commit (r : ConsensusRuntime) (block : Block) : Result ConsensusRuntime := do
  ensure (r.consensus.finalized = some block.hash) "확정 해시와 후보 블록 해시가 다릅니다."
  let certificate := r.certificateFor block
  certificate.verify r.validators
  let chain ← r.chain.applyBlock block
  return { r with chain, finalized := r.finalized ++ [certificate]
                  pendingFinalized := r.pendingFinalized ++ [certificate] }

/-- The end of `receive_vote` in the phase `Finalized`: the candidate is taken out whether or not
it can be applied. -/
def finalizePending (r : ConsensusRuntime) : Result (Option ConsensusMessage) × ConsensusRuntime :=
  match r.pending with
  | none => (.ok none, r)
  | some block =>
    let r := { r with pending := none }
    match r.commit block with
    | .error e => (.error e, r)
    | .ok r => (.ok none, r)

/-- `receive_vote`. -/
def receiveVote (r : ConsensusRuntime) (env : Reading) (vote : ConsensusMessage) :
    Result (Option ConsensusMessage) × ConsensusRuntime :=
  match r.consensus.handle vote with
  | (.error e, consensus) => (.error e, { r with consensus })
  | (.ok (), consensus) =>
    let previousPhase := r.consensus.phase
    let r := ({ r with consensus }.keepPrecommit vote).onPhaseChange env previousPhase
    match r.consensus.phase with
    | .precommit => (r.precommitPending env, r)
    | .finalized => r.finalizePending
    | _ => (.ok none, r)

/-- `defer_vote`: keep a vote that came too early, dropping the oldest when there are too many. -/
def deferVote (r : ConsensusRuntime) (vote : ConsensusMessage) : ConsensusRuntime :=
  if ∃ known ∈ r.deferredVotes, known.height = vote.height ∧ known.round = vote.round ∧
      known.voteType = vote.voteType ∧ known.validatorId = vote.validatorId ∧
      known.blockHash = vote.blockHash then r
  else
    let kept := if maxDeferredVotes ≤ r.deferredVotes.length then r.deferredVotes.tail
      else r.deferredVotes
    { r with deferredVotes := kept ++ [vote] }

/-- The local variables of `replay_deferred_votes`, with the number of readings made. -/
structure Replay where
  runtime : ConsensusRuntime
  outbound : List ConsensusMessage
  remaining : List ConsensusMessage
  progressed : Bool
  readings : ℕ

namespace Replay

/-- Receive a vote with the next reading. -/
def receive (s : Replay) (env : ℕ → Reading) (vote : ConsensusMessage) :
    Result (Option ConsensusMessage) × Replay :=
  let (result, runtime) := s.runtime.receiveVote (env s.readings) vote
  (result, { s with runtime, readings := s.readings + 1 })

/-- One vote of the inner loop. The node's own precommit is received at once, and an error of
that ends the call. -/
def vote (env : ℕ → Reading) (s : Replay) (vote : ConsensusMessage) : Result Unit × Replay :=
  match s.receive env vote with
  | (.ok (some precommit), s) =>
    let s := { s with outbound := s.outbound ++ [precommit] }
    match s.receive env precommit with
    | (.ok _, s) => (.ok (), { s with progressed := true })
    | (.error e, s) => (.error e, s)
  | (.ok none, s) => (.ok (), { s with progressed := true })
  | (.error e, s) =>
    if isDeferableVoteError e then (.ok (), { s with remaining := s.remaining ++ [vote] })
    else (.ok (), s)

/-- The inner loop. -/
def votes (env : ℕ → Reading) : List ConsensusMessage → Replay → Result Unit × Replay
  | [], s => (.ok (), s)
  | v :: rest, s =>
    match s.vote env v with
    | (.error e, s) => (.error e, s)
    | (.ok (), s) => votes env rest s

/-- The outer loop: take the deferred votes, run over them, and start again after progress. Each
round that makes progress leaves fewer votes, so that the fuel of `replayDeferredVotes` lasts. -/
def rounds (env : ℕ → Reading) : ℕ → Replay → Result Unit × Replay
  | 0, s => (.ok (), s)
  | fuel + 1, s =>
    let taken := s.runtime.deferredVotes
    let s := { s with runtime := { s.runtime with deferredVotes := [] }
                      remaining := [], progressed := false }
    match votes env taken s with
    | (.error e, s) => (.error e, s)
    | (.ok (), s) =>
      let s := { s with runtime := { s.runtime with deferredVotes := s.remaining } }
      if s.progressed then rounds env fuel s else (.ok (), s)

end Replay

/-- `replay_deferred_votes`. -/
def replayDeferredVotes (r : ConsensusRuntime) (env : ℕ → Reading) :
    Result (List ConsensusMessage) × ConsensusRuntime :=
  let start : Replay :=
    { runtime := r, outbound := [], remaining := [], progressed := false, readings := 0 }
  match Replay.rounds env (r.deferredVotes.length + 1) start with
  | (.error e, s) => (.error e, s.runtime)
  | (.ok (), s) => (.ok s.outbound, s.runtime)

/-! ## Time -/

/-- `timeout_if_due`. -/
def timeoutIfDue (r : ConsensusRuntime) (now : ℕ) : Result Bool × ConsensusRuntime :=
  if now < r.deadline ∨ r.consensus.phase = .finalized then (.ok false, r)
  else
    match r.consensus.onTimeout with
    | .error e => (.error e, r)
    | .ok consensus =>
      (.ok true, { r with consensus, pending := none, precommits := []
                          deadline := now + r.timeouts.propose })

/-- `restart_phase_timeout`. -/
def restartPhaseTimeout (r : ConsensusRuntime) (now : ℕ) : ConsensusRuntime :=
  { r with deadline := now + r.timeouts.forPhase r.consensus.phase }

/-- `take_evidence`. -/
def takeEvidence (r : ConsensusRuntime) : List DoubleVoteEvidence × ConsensusRuntime :=
  (r.consensus.takeEvidence.1, { r with consensus := r.consensus.takeEvidence.2 })

/-- `take_finalized`. -/
def takeFinalized (r : ConsensusRuntime) : List FinalityCertificate × ConsensusRuntime :=
  (r.pendingFinalized, { r with pendingFinalized := [] })

/-- Start the round 0 after the tip: the end of `apply_sync_certificates` and of
`advance_after_finalization`. -/
def startNextHeight (r : ConsensusRuntime) (env : Reading) : Result ConsensusRuntime := do
  let previous ← okOr r.chain.blocks.getLast? "called `Option::unwrap()` on a `None` value"
  let next ← addOne previous.height
  let consensus ← r.consensus.startRound next 0
  return { r with consensus, pending := none, validBlock := none, precommits := [] }.resetDeadline
    env

/-- `advance_after_finalization`. -/
def advanceAfterFinalization (r : ConsensusRuntime) (env : Reading) : Result ConsensusRuntime := do
  ensure (r.consensus.phase = .finalized) "확정되지 않은 상태에서는 다음 높이로 이동할 수 없습니다."
  r.startNextHeight env

/-! ## Synchronisation -/

/-- The windowing of `certificates_from`: stop before the certificate that would pass the byte
limit, but never before the first. -/
def selectWithin (size : FinalityCertificate → ℕ) :
    ℕ → List FinalityCertificate → List FinalityCertificate → List FinalityCertificate
  | _, selected, [] => selected
  | bytes, selected, c :: rest =>
    if selected ≠ [] ∧ maxSyncBytes < min (bytes + size c) (2 ^ 64 - 1) then selected
    else selectWithin size (min (bytes + size c) (2 ^ 64 - 1)) (selected ++ [c]) rest

/-- `certificates_from`, where `size` is the length of the JSON text of a certificate. -/
def certificatesFrom (size : FinalityCertificate → ℕ) (r : ConsensusRuntime)
    (fromHeight : UInt64) : List FinalityCertificate :=
  selectWithin size 0 []
    ((r.finalized.filter fun c => fromHeight ≤ c.block.height).take maxSyncCertificates)

/-- One certificate of `apply_sync_certificates`; says whether its block was applied. -/
def applySyncCertificate (r : ConsensusRuntime) (env : Reading) (c : FinalityCertificate) :
    Result (Bool × ConsensusRuntime) := do
  c.verify r.validators
  let previous ← okOr r.chain.blocks.getLast? "called `Option::unwrap()` on a `None` value"
  let next ← addOne previous.height
  if c.block.height < next then
    let canonical ← okOr (r.chain.blockByHeight c.block.height)
      "기존 canonical 블록을 찾을 수 없습니다."
    ensure (canonical.hash = c.block.hash)
      s!"확정성 위반: 높이 {c.block.height}에 서로 다른 2/3 인증서가 존재합니다."
    return (false, r)
  else
    ensure (c.block.height = next) "동기화 응답에 블록 높이 공백이 있습니다."
    r.validateScheduledBlock env.now c.block
    let chain ← r.chain.applyBlock c.block
    return (true, { r with chain, finalized := r.finalized ++ [c] })

/-- The loop of `apply_sync_certificates`: the number of blocks applied so far is kept with the
runtime, and an error keeps the blocks before it. -/
def applySyncLoop (env : ℕ → Reading) :
    List FinalityCertificate → ℕ → ConsensusRuntime → ℕ → Result ℕ × ConsensusRuntime
  | [], _, r, applied => (.ok applied, r)
  | c :: rest, readings, r, applied =>
    match r.applySyncCertificate (env readings) c with
    | .error e => (.error e, r)
    | .ok (done, r) => applySyncLoop env rest (readings + 1) r (if done then applied + 1 else applied)

/-- `apply_sync_certificates`. -/
def applySyncCertificates (r : ConsensusRuntime) (env : ℕ → Reading)
    (certificates : List FinalityCertificate) : Result ℕ × ConsensusRuntime :=
  match applySyncLoop env certificates 0 r 0 with
  | (.error e, r) => (.error e, r)
  | (.ok applied, r) =>
    if 0 < applied then
      match r.startNextHeight (env certificates.length) with
      | .error e => (.error e, r)
      | .ok r => (.ok applied, r)
    else (.ok applied, r)

/-- One certificate of `import_certificate_history`; says whether it was kept. -/
def importCertificate (r : ConsensusRuntime) (c : FinalityCertificate) :
    Result (Bool × ConsensusRuntime) := do
  c.verify r.validators
  match r.chain.blockByHeight c.block.height with
  | none => return (false, r)
  | some block =>
    ensure (block.hash = c.block.hash) "원장 블록과 확정 인증서 해시가 다릅니다."
    if ∃ known ∈ r.finalized, known.block.height = c.block.height then return (false, r)
    else return (true, { r with finalized := r.finalized ++ [c] })

/-- The loop of `import_certificate_history`, which an error leaves with what it kept. -/
def importLoop : List FinalityCertificate → ConsensusRuntime → ℕ → Result ℕ × ConsensusRuntime
  | [], r, imported => (.ok imported, r)
  | c :: rest, r, imported =>
    match r.importCertificate c with
    | .error e => (.error e, r)
    | .ok (done, r) => importLoop rest r (if done then imported + 1 else imported)

/-- The certificates in the order of their heights; equal heights keep their order. -/
def sortByHeight (certificates : List FinalityCertificate) : List FinalityCertificate :=
  certificates.insertionSort fun a b => a.block.height ≤ b.block.height

/-- `import_certificate_history`. -/
def importCertificateHistory (r : ConsensusRuntime) (certificates : List FinalityCertificate) :
    Result ℕ × ConsensusRuntime :=
  match importLoop certificates r 0 with
  | (.error e, r) => (.error e, r)
  | (.ok imported, r) => (.ok imported, { r with finalized := sortByHeight r.finalized })

end ConsensusRuntime

end IeumChain
