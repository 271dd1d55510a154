import IeumChain.RuntimeMoves

/-!
# Persistence (`archive.rs`, `state_store.rs`, `finality_store.rs`, `main.rs`, `rpc.rs`)

What a node writes for every block it finalises, and how it starts again from that.

* `StateSnapshot` is the state of a chain at its tip, as the archive and new nodes get it;
* `StateStore` keeps the state of the newest block only, `FinalityStore` every certificate;
* the main program persists a block right after the runtime finalised it (`finalizeIfReady`) or
  applied it from another node's certificate (`syncReceived`);
* `restart` rebuilds the chain from the state, the runtime from the chain, and gives the runtime
  the certificates back.

Writing and reading a file is the identity here.
-/

namespace IeumChain

open Lib

variable [Primitives]

/-! ## Snapshots -/

/-- `StateSnapshot`. -/
structure StateSnapshot where
  chainId : UInt64
  height : UInt64
  blockHash : String
  stateHash : String
  balances : Balances
  nextNonces : Nonces
  executedEvents : Finset String
deriving DecidableEq

/-- `StateSnapshot::from_chain`. -/
def StateSnapshot.fromChain (chain : Blockchain) : StateSnapshot :=
  { chainId := chain.chainId
    height := chain.tipHeight
    blockHash := chain.tipHash
    stateHash := chain.stateHash
    balances := chain.balances
    nextNonces := chain.nextNonces
    executedEvents := chain.executedEvents }

/-! ## The state store -/

/-- The part of `CanonicalState` a restart reads. -/
structure CanonicalState where
  schemaVersion : UInt32
  chainId : UInt64
  height : UInt64
  blockHash : String
  stateRoot : String
  balances : Balances
  nonces : Nonces
  executedEvents : Finset String
deriving DecidableEq

/-- `CanonicalState::from_chain`. -/
def CanonicalState.fromChain (chain : Blockchain) : CanonicalState :=
  { schemaVersion := 1
    chainId := chain.chainId
    height := chain.tipHeight
    blockHash := chain.tipHash
    stateRoot := chain.stateHash
    balances := chain.balances
    nonces := chain.nextNonces
    executedEvents := chain.executedEvents }

/-- `StateStore::load` of what was committed last. -/
def StateStore.load (stored : Option CanonicalState) : Result (Option CanonicalState) :=
  match stored with
  | none => .ok none
  | some state => do
    ensure (state.schemaVersion = 1) "지원하지 않는 상태 저장소 버전입니다."
    return some state

/-- The chain of `RpcServer::new`: `first` from the genesis configuration, replaced by the stored
state if there is one. A panic is an error here. -/
def restoreChain (first : Blockchain) (stored : Option CanonicalState) : Result Blockchain := do
  match ← StateStore.load stored with
  | none => return first
  | some state =>
    ensure (state.chainId = first.chainId) "embedded DB chain ID 불일치"
    let chain ← Blockchain.fromSnapshotWithEvents first.chainId first.genesisCommitment
      state.height state.blockHash state.balances state.nonces state.executedEvents
    ensure (chain.stateHash = state.stateRoot) "embedded DB state root 불일치"
    return chain

/-! ## The finality store -/

/-- The certificates of one height have one hash; they stand next to each other. -/
def FinalityStore.checkPairs : List FinalityCertificate → Result Unit
  | c :: c' :: rest => do
    ensure (¬ (c.block.height = c'.block.height ∧ c.block.hash ≠ c'.block.hash))
      s!"확정성 위반: 높이 {c.block.height}의 인증서 해시가 서로 다릅니다."
    checkPairs (c' :: rest)
  | _ => .ok ()

/-- `FinalityStore::load` of the certificates appended so far. -/
def FinalityStore.load (lines : List FinalityCertificate) (validators : List Validator) :
    Result (List FinalityCertificate) := do
  lines.forM fun c => c.verify validators
  let certificates := ConsensusRuntime.sortByHeight lines
  checkPairs certificates
  return certificates

/-! ## The node -/

/-- A runtime with the two stores. -/
structure Node where
  runtime : ConsensusRuntime
  canonical : Option CanonicalState
  finality : List FinalityCertificate

namespace Node

/-- Persist one finalised block: `install_finalized` commits the state of the runtime's chain,
then the certificate is appended. -/
def install (node : Node) (c : FinalityCertificate) : Node :=
  { node with canonical := some (CanonicalState.fromChain node.runtime.chain)
              finality := node.finality ++ [c] }

/-- `finalize_if_ready`. -/
def finalizeIfReady (node : Node) (env : Reading) : Node :=
  let (certificates, runtime) := node.runtime.takeFinalized
  let node := { node with runtime }
  if certificates = [] then node
  else
    let node := certificates.foldl install node
    { node with runtime := getOk (node.runtime.advanceAfterFinalization env) node.runtime }

/-- The main program's loop over the certificates another node sent: each is applied alone, with
two readings of the clock, and persisted if its block was new. An error ends the loop. -/
def syncReceived (env : ℕ → Reading) : List FinalityCertificate → ℕ → Node → Node
  | [], _, node => node
  | c :: rest, readings, node =>
    match node.runtime.applySyncCertificates (fun i => env (readings + i)) [c] with
    | (.error _, runtime) => { node with runtime }
    | (.ok applied, runtime) =>
      let node := { node with runtime }
      syncReceived env rest (readings + 2) (if applied = 1 then node.install c else node)

/-- What can happen at a node: an operation of the runtime, or new validators before the first
block. -/
inductive Event where
  | op (op : ConsensusRuntime.Op)
  | replaceBootstrapValidators (validators : List Validator)

/-- The node after an event. Finalised blocks and synchronised ones are persisted. -/
def step (node : Node) (env : ℕ → Reading) : Event → Node
  | .op .takeFinalized => node.finalizeIfReady (env 0)
  | .op (.applySyncCertificates certificates) => syncReceived env certificates 0 node
  | .op op => { node with runtime := (node.runtime.step env op).2 }
  | .replaceBootstrapValidators validators =>
    { node with
      runtime := getOk (node.runtime.replaceBootstrapValidators (env 0) validators) node.runtime }

/-- The node after a sequence of events. -/
def run (node : Node) (events : List ((ℕ → Reading) × Event)) : Node :=
  events.foldl (fun node e => node.step e.1 e.2) node

/-- The start of the main program with the stores a node left: validators and schedule come from
its configuration files. -/
def restart (first : Blockchain) (node : Node) (validator : String)
    (timeouts : ConsensusTimeouts) (instant : ℕ) : Result ConsensusRuntime := do
  let chain ← restoreChain first node.canonical
  let runtime ← ConsensusRuntime.withSigner chain node.runtime.validators validator timeouts instant
  let runtime ← runtime.setEventSchedule node.runtime.eventSchedule
  let certificates ← FinalityStore.load node.finality node.runtime.validators
  let (imported, runtime) := runtime.importCertificateHistory certificates
  let _ ← imported
  return runtime

end Node

end IeumChain
