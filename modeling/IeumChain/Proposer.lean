import IeumChain.NodeLoop
import IeumChain.Mempool
import IeumChain.TipQuorum
import Mathlib.Data.BitVec

/-!
# The proposer (`main.rs`)

The main loop of a validator over its two shared objects, the pool of the RPC server and the
consensus runtime. The consensus tick takes transactions out of the pool and builds a block from
them; messages of the network and finalised blocks change both.

* An error that the loop propagates ends the node, so a step returns a `Result`.
* What is sent to other nodes and written to files is left out.
* The calls on the pool are kept in the order they were made. Nothing reads them but the
  statements about runs.
-/

namespace IeumChain

open Lib

/-- A call on the pool: `Mempool::add` of a transaction that comes in or of one that is given back,
`drain_transactions`, and the purge at the end of `install_finalized` with the chain it installs. -/
inductive PoolCall where
  | add (tx : Transaction)
  | restore (tx : Transaction)
  | drain (limit : ℕ)
  | install (chain : Blockchain)

/-- The limit of `drain_transactions` in the tick. -/
def drainLimit : ℕ := 1000

section
variable [Primitives]

/-- What the purge of `install_finalized` keeps: the nonce is not used up, the balance is enough
and the signature is right. -/
def Blockchain.admits (chain : Blockchain) (tx : Transaction) : Bool :=
  decide (chain.nextNonce tx.sender ≤ tx.nonce) &&
    ((U128.checkedAdd tx.amount tx.fee).any fun total => total ≤ chain.balanceOf tx.sender) &&
    isOk (verifyTransaction tx)

/-- The call of `mempool.rs` that is made. -/
def PoolCall.toCall : PoolCall → Mempool.Call
  | .add tx => .add tx
  | .restore tx => .add tx
  | .drain limit => .drain limit
  | .install chain => .retainValid fun _ tx => chain.admits tx

namespace ConsensusRuntime

/-- `pending_transactions`. -/
def pendingTransactions (r : ConsensusRuntime) : List Transaction :=
  (r.pending.map Block.transactions).getD []

/-- `can_make_proposal`. -/
def canMakeProposal (r : ConsensusRuntime) : Result Bool :=
  if r.consensus.phase = .propose then do
    let expected ← r.consensus.expectedProposer
    return decide (r.validator = expected)
  else .ok false

/-- The node receives its own prevote and the precommit that follows, if one does. -/
def receiveOwnVotes (r : ConsensusRuntime) (env : ℕ → Reading) (prevote : ConsensusMessage) :
    Result ConsensusRuntime :=
  match r.receiveVote (env 0) prevote with
  | (.error e, _) => .error e
  | (.ok none, r) => .ok r
  | (.ok (some precommit), r) =>
    match r.receiveVote (env 1) precommit with
    | (.error e, _) => .error e
    | (.ok _, r) => .ok r

end ConsensusRuntime

/-- The state of the main loop. -/
structure Proposer where
  runtime : ConsensusRuntime
  pool : Mempool
  isClient : Bool
  localIsValidator : Bool
  consensusWasActive : Bool
  /-- The calls on the pool so far. -/
  calls : List PoolCall

/-- What a tick of the consensus timer reads. -/
structure Tick where
  instant : ℕ
  timestamp : UInt64
  /-- `ensure_supported` for the next height. -/
  supported : Result Unit
  /-- The registrations of the active validators, and of the nodes. -/
  registrations : List ValidatorRegistration
  nodeRewardRegistrations : List NodeRewardRegistration
  /-- What comes in over RPC while the proposal is made. -/
  arrivals : List Transaction
  readings : ℕ → Reading

namespace Proposer

/-! ## Calls of the RPC handle -/

/-- Make a call on the pool. -/
def call (s : Proposer) (c : PoolCall) : Proposer :=
  { s with pool := s.pool.call c.toCall, calls := s.calls ++ [c] }

/-- Transactions come in, over RPC or by `TransactionReceived`. -/
def addTransactions (s : Proposer) (transactions : List Transaction) : Proposer :=
  transactions.foldl (fun s tx => s.call (.add tx)) s

/-- `restore_transactions`: what the pool refuses is dropped. -/
def restoreTransactions (s : Proposer) (transactions : List Transaction) : Proposer :=
  transactions.foldl (fun s tx => s.call (.restore tx)) s

/-- `drain_transactions`. -/
def drainTransactions (s : Proposer) (limit : ℕ) : List Transaction × Proposer :=
  ((s.pool.drain limit).1, s.call (.drain limit))

/-- `has_pending_transactions`. -/
def hasPendingTransactions (s : Proposer) : Bool := !s.pool.transactions.isEmpty

/-- `install_finalized`. -/
def installFinalized (s : Proposer) : Proposer := s.call (.install s.runtime.chain)

/-- `finalize_if_ready`. -/
def finalizeIfReady (s : Proposer) (env : Reading) : Result Proposer :=
  let (certificates, runtime) := s.runtime.takeFinalized
  let s := { s with runtime }
  if certificates = [] then .ok s
  else do
    let s := certificates.foldl (fun s _ => s.installFinalized) s
    let runtime ← s.runtime.advanceAfterFinalization env
    return { s with runtime }

/-! ## The consensus tick -/

/-- The beginning of the tick: a round that is over its time limit ends, and the transactions of
its candidate go back to the pool. -/
def roundTimeout (s : Proposer) (instant : ℕ) : Result Proposer :=
  let timedOut := s.runtime.pendingTransactions
  let active := s.localIsValidator &&
    (decide (s.runtime.consensus.phase ≠ .propose) || s.hasPendingTransactions)
  let runtime := if active && !s.consensusWasActive then s.runtime.restartPhaseTimeout instant
    else s.runtime
  let s := { s with runtime, consensusWasActive := active }
  if active then
    match s.runtime.timeoutIfDue instant with
    | (.error e, _) => .error e
    | (.ok true, runtime) => .ok ({ s with runtime }.restoreTransactions timedOut)
    | (.ok false, runtime) => .ok { s with runtime }
  else .ok s

/-- The events of the next block: those of the schedule that are due and the two built-in rewards,
once their recipients are registered. -/
def dueEvents (s : Proposer) (t : Tick) : List ScheduledEvent :=
  let executed := s.runtime.chain.executedEvents
  let bootstrap : List ScheduledEvent :=
    if "ieum-bootstrap-validator-reward-v1" ∉ executed ∧ t.registrations.length = 4 then
      [{ id := "ieum-bootstrap-validator-reward-v1"
         executeAt := t.timestamp
         action := .bootstrapValidatorReward t.registrations (10 * 10 ^ 18) }]
    else []
  let milestone : List ScheduledEvent :=
    if "ieum-node-100-reward-v1" ∉ executed ∧ 100 ≤ t.nodeRewardRegistrations.length then
      [{ id := "ieum-node-100-reward-v1"
         executeAt := t.timestamp
         action := .nodeMilestoneReward (t.nodeRewardRegistrations.take 100) (10 ^ 18) }]
    else []
  s.runtime.eventSchedule.due t.timestamp executed ++ bootstrap ++ milestone

/-- The block of the tick, on the tip of the chain. -/
def freshBlock (s : Proposer) (t : Tick) (transactions : List Transaction) : Result Block := do
  let previous ← okOr s.runtime.chain.blocks.getLast? "called `Option::unwrap()` on a `None` value"
  let height ← addOne previous.height
  return (Block.new height previous.hash t.timestamp s.runtime.validator transactions).withSystemEvents
    (s.dueEvents t)

/-- Does the tick drain the pool? -/
def drains (s : Proposer) (t : Tick) : Result Bool := do
  let turn ← s.runtime.canMakeProposal
  return turn && (s.hasPendingTransactions || !(s.dueEvents t).isEmpty)

/-- The rest of the tick once the pool is drained: propose a block of the drained transactions, or
give them back. -/
def proposeDrained (s : Proposer) (t : Tick) (pending : List Transaction) : Result Proposer := do
  let block ← s.freshBlock t pending
  match s.runtime.makeProposal (t.readings 0) block with
  | .error _ => return s.restoreTransactions pending
  | .ok proposal =>
    match s.runtime.receiveProposal (t.readings 1) proposal with
    | (.error _, runtime) => return restoreTransactions { s with runtime } pending
    | (.ok prevote, runtime) =>
      let runtime ← runtime.receiveOwnVotes (fun n => t.readings (n + 2)) prevote
      finalizeIfReady { s with runtime } (t.readings 4)

/-- The end of the tick. -/
def propose (s : Proposer) (t : Tick) : Result Proposer := do
  if ← s.drains t then
    let (pending, s) := s.drainTransactions drainLimit
    (s.addTransactions t.arrivals).proposeDrained t pending
  else return s

/-- The branch of the consensus tick. -/
def tick (s : Proposer) (t : Tick) : Result Proposer := do
  let s ← s.roundTimeout t.instant
  if s.isClient || !s.localIsValidator then return s
  else
    t.supported
    s.propose t

/-! ## Messages of the network -/

/-- The branch `ProposalReceived`. -/
def onProposalReceived (s : Proposer) (env : ℕ → Reading) (final : Reading) (p : SignedProposal) :
    Result Proposer :=
  if s.isClient || !s.localIsValidator then .ok s
  else
    match s.runtime.receiveProposal (env 0) p with
    | (.error _, runtime) => .ok { s with runtime }
    | (.ok prevote, runtime) => do
      let runtime ← runtime.receiveOwnVotes (fun n => env (n + 1)) prevote
      match runtime.publishReplayedVotes fun n => env (n + 3) with
      | (.error e, _) => .error e
      | (.ok (), runtime) => finalizeIfReady { s with runtime } final

/-- The branch `ConsensusReceived`. -/
def onConsensusReceived (s : Proposer) (env : ℕ → Reading) (final : Reading)
    (m : ConsensusMessage) : Result Proposer :=
  if s.isClient || !s.localIsValidator then .ok s
  else
    match s.runtime.onConsensusReceived env m with
    | (.error e, _) => .error e
    | (.ok (), runtime) => { s with runtime := runtime.takeEvidence.2 }.finalizeIfReady final

/-- The loop over the certificates of another node: the number of blocks applied is kept with the
state. -/
def syncLoop (env : ℕ → Reading) :
    List FinalityCertificate → ℕ → ℕ → Proposer → Result (ℕ × Proposer)
  | [], _, applied, s => .ok (applied, s)
  | c :: rest, readings, applied, s =>
    match s.runtime.applySyncCertificates (fun i => env (readings + i)) [c] with
    | (.error e, _) => .error e
    | (.ok count, runtime) =>
      let s := { s with runtime }
      if count = 1 then syncLoop env rest (readings + 2) (applied + 1) s.installFinalized
      else syncLoop env rest (readings + 2) applied s

/-- The branch `SyncReceived`, once enough peers reported the tip. -/
def onSyncReceived (s : Proposer) (env : ℕ → Reading) (agreedTip : SyncTip)
    (certificates : List FinalityCertificate) : Result Proposer := do
  let (applied, s) ← syncLoop env certificates 0 0 s
  ensure (¬ (0 < applied ∧ s.runtime.chain.tipHeight = agreedTip.height ∧
      (s.runtime.chain.tipHash ≠ agreedTip.blockHash ∨
        s.runtime.chain.stateHash ≠ agreedTip.stateRoot)))
    "동기화 완료 상태가 피어 quorum의 tip/state root와 다릅니다."
  return s

/-- The end of the branch `ValidatorRegistrationReceived`, where the first validators are known. -/
def onValidatorsSelected (s : Proposer) (env : Reading) (selected : List Validator) :
    Result Proposer := do
  let runtime ← s.runtime.replaceBootstrapValidators env selected
  return { s with runtime, localIsValidator := selected.any fun v => v.id == s.runtime.validator }

/-! ## Steps -/

/-- One turn of the loop. A transaction is added over RPC or by `TransactionReceived`. -/
inductive Event where
  | tick (t : Tick)
  | transactionReceived (tx : Transaction)
  | proposalReceived (env : ℕ → Reading) (final : Reading) (p : SignedProposal)
  | consensusReceived (env : ℕ → Reading) (final : Reading) (m : ConsensusMessage)
  | syncReceived (env : ℕ → Reading) (agreedTip : SyncTip)
      (certificates : List FinalityCertificate)
  | validatorsSelected (env : Reading) (selected : List Validator)

/-- The state after one turn. -/
def step (s : Proposer) : Event → Result Proposer
  | .tick t => s.tick t
  | .transactionReceived tx => .ok (s.addTransactions [tx])
  | .proposalReceived env final p => s.onProposalReceived env final p
  | .consensusReceived env final m => s.onConsensusReceived env final m
  | .syncReceived env agreedTip certificates => s.onSyncReceived env agreedTip certificates
  | .validatorsSelected env selected => s.onValidatorsSelected env selected

/-- The state after a sequence of turns, if none of them ended the node. -/
def run (s : Proposer) (events : List Event) : Result Proposer := events.foldlM step s

end Proposer

end

end IeumChain
