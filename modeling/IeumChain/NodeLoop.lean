import IeumChain.ConsensusRuntime

/-!
# The event loop of a node (`main.rs`)

How the node feeds messages of the network to its consensus runtime: the branches of the loop for
proposals and votes, up to the point where evidence and certificates are collected. What is sent
to other nodes is left out. An error of the node's own votes or of the replay ends the loop; a
refused message is only logged.
-/

namespace IeumChain

open Lib

/-- A message of the network for the consensus. -/
inductive NetworkEvent where
  | proposalReceived (proposal : SignedProposal)
  | consensusReceived (message : ConsensusMessage)
deriving DecidableEq

namespace ConsensusRuntime
variable [Primitives]

/-- `publish_replayed_votes`. -/
def publishReplayedVotes (r : ConsensusRuntime) (env : ℕ → Reading) :
    Result Unit × ConsensusRuntime :=
  match r.replayDeferredVotes env with
  | (.error e, r) => (.error e, r)
  | (.ok _, r) => (.ok (), r)

/-- The node receives the precommit it made, if it made one, and then replays. -/
def receiveOwn (r : ConsensusRuntime) (env : ℕ → Reading) (own : Option ConsensusMessage) :
    Result Unit × ConsensusRuntime :=
  match own with
  | none => r.publishReplayedVotes env
  | some precommit =>
    match r.receiveVote (env 0) precommit with
    | (.error e, r) => (.error e, r)
    | (.ok _, r) => r.publishReplayedVotes fun n => env (n + 1)

/-- The branch `ProposalReceived`. -/
def onProposalReceived (r : ConsensusRuntime) (env : ℕ → Reading) (proposal : SignedProposal) :
    Result Unit × ConsensusRuntime :=
  match r.receiveProposal (env 0) proposal with
  | (.error _, r) => (.ok (), r)
  | (.ok prevote, r) =>
    match r.receiveVote (env 1) prevote with
    | (.error e, r) => (.error e, r)
    | (.ok own, r) => r.receiveOwn (fun n => env (n + 2)) own

/-- The branch `ConsensusReceived`. -/
def onConsensusReceived (r : ConsensusRuntime) (env : ℕ → Reading) (message : ConsensusMessage) :
    Result Unit × ConsensusRuntime :=
  match r.receiveVote (env 0) message with
  | (.ok own, r) => r.receiveOwn (fun n => env (n + 1)) own
  | (.error e, r) =>
    let r := if isDeferableVoteError e then r.deferVote message else r
    r.publishReplayedVotes fun n => env (n + 1)

/-- One message of the network. -/
def onNetworkEvent (r : ConsensusRuntime) (env : ℕ → Reading) :
    NetworkEvent → Result Unit × ConsensusRuntime
  | .proposalReceived proposal => r.onProposalReceived env proposal
  | .consensusReceived message => r.onConsensusReceived env message

/-- The loop over messages as they come in; `env` has the readings of each. -/
def onNetworkEvents (env : ℕ → ℕ → Reading) :
    ℕ → List NetworkEvent → ConsensusRuntime → Result Unit × ConsensusRuntime
  | _, [], r => (.ok (), r)
  | n, event :: rest, r =>
    match r.onNetworkEvent (env n) event with
    | (.error e, r) => (.error e, r)
    | (.ok (), r) => onNetworkEvents env (n + 1) rest r

end ConsensusRuntime

end IeumChain
