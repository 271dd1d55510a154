import IeumChain.Archive
import IeumChain.Proposer

/-!
# Installing finalised blocks (`rpc.rs`)

A finalised block is appended to the archive, and the state after it is committed to the state
store. `RpcServer::new` takes the chain from the state store, from the latest checkpoint and the
active blocks of the archive, or from the genesis configuration, whichever it finds first.

* the archive works on files; of the state store the committed state is kept, and how a commit ends
  is a parameter;
* a crash is an operation that fails, here and at every later one.
-/

namespace IeumChain

open Lib

/-- How `StateStore::commit` ends. The database has the state, or not, where a file operation fails;
the JSON mirror is written after it. -/
inductive Commit where
  | done
  | lost (message : String)
  | kept (message : String)

namespace RpcServer
variable [Primitives]

/-- `RpcState`, as far as finalised blocks change it, and what the state store holds. -/
structure State where
  chain : Blockchain
  pool : Mempool
  archive : ArchiveStore
  stored : Option CanonicalState
  syncCurrent : UInt64
  syncHighest : UInt64
  syncActive : Bool

/-- The chain of `RpcServer::new`, `first` from the genesis configuration. A panic is an error
here. -/
def restore (listing : Listing ArchivePlace) (codec : ArchiveCodec) (first : Blockchain)
    (stored : Option CanonicalState) : DiskM ArchivePlace Blockchain := do
  match ← Disk.lift (StateStore.load stored) with
  | some state =>
    Disk.lift (ensure (state.chainId = first.chainId) "embedded DB chain ID 불일치")
    let chain ← Disk.lift (Blockchain.fromSnapshotWithEvents first.chainId first.genesisCommitment
      state.height state.blockHash state.balances state.nonces state.executedEvents)
    Disk.lift (ensure (chain.stateHash = state.stateRoot) "embedded DB state root 불일치")
    return chain
  | none =>
    match ← ArchiveStore.loadLatestSnapshot listing codec with
    | some snapshot =>
      Disk.lift (ensure (snapshot.chainId = first.chainId) "체크포인트 chain ID 불일치")
      let chain ← Disk.lift (Blockchain.fromSnapshotWithEvents first.chainId
        first.genesisCommitment snapshot.height snapshot.blockHash snapshot.balances
        snapshot.nextNonces snapshot.executedEvents)
      Disk.lift (ensure (chain.stateHash = snapshot.stateHash) "체크포인트 상태 해시 불일치")
      let blocks ← ArchiveStore.loadActiveBlocks codec
      Disk.lift (blocks.foldlM Blockchain.applyBlock chain)
    | none => return first

/-- `RpcServer::new`. -/
def new (listing : Listing ArchivePlace) (codec : ArchiveCodec) (maxActiveBytes : UInt64)
    (first : Blockchain) (stored : Option CanonicalState) : DiskM ArchivePlace State := do
  let archive ← ArchiveStore.new maxActiveBytes
  let chain ← restore listing codec first stored
  return {
    chain
    pool := Mempool.default
    archive
    stored
    syncCurrent := chain.tipHeight
    syncHighest := chain.tipHeight
    syncActive := false }

/-- The state after a commit. -/
def State.installed (state : State) (chain : Blockchain) : State :=
  { state with
    stored := some (CanonicalState.fromChain chain)
    chain
    syncCurrent := chain.tipHeight
    syncActive := chain.tipHeight < state.syncHighest
    pool := state.pool.retainValid fun _ tx => chain.admits tx }

/-- `install_finalized`: what it returns, and the state. -/
def installFinalized (listing : Listing ArchivePlace) (codec : ArchiveCodec) (commit : Commit)
    (state : State) (chainBefore chainAfter : Blockchain) (block : Block) :
    StateM (Disk ArchivePlace) (Result Unit × State) := fun d =>
  match ArchiveStore.appendFinalized listing codec state.archive block chainBefore d with
  | (.error e, d) => ((.error e, state), d)
  | (.ok (), d) =>
    match commit with
    | .lost e => ((.error e, state), d)
    | .kept e => ((.error e, { state with stored := some (CanonicalState.fromChain chainAfter) }), d)
    | .done => ((.ok (), state.installed chainAfter), d)

end RpcServer

end IeumChain
