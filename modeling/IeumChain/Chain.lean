import IeumChain.RawTransaction
import IeumChain.Lib.HashMap
import Mathlib.Data.String.Basic

/-!
# The ledger (`chain.rs`)

Finalised blocks and the state they produce: balances, next nonces and executed events. A block
is executed on copies of the maps, which replace the ledger's own only when every transaction and
every event of the block succeeded; `verifyAndRebuild` recomputes the maps from the first block.
-/

namespace IeumChain

open Lib

/-- `FOUNDATION_FEE_ADDRESS`. -/
def foundationFeeAddress : String := "0x356456ff1216b57a6f8891b195b42d296789b67d"

/-- `FOUNDATION_FEE_BPS`. -/
def foundationFeeBps : U128 := 2000

/-- `FEE_BPS_DENOMINATOR`. -/
def feeBpsDenominator : U128 := 10000

/-- The balance of every account that ever had one. -/
abbrev Balances := HashMap String U128

/-- The next nonce of every account that ever sent. -/
abbrev Nonces := HashMap String UInt64

/-- The balance of an account, 0 without an entry. -/
def balanceIn (balances : Balances) (address : String) : U128 :=
  (balances.lookup address).getD 0

/-- The next nonce of an account, 0 without an entry. -/
def nonceIn (nonces : Nonces) (address : String) : UInt64 := (nonces.lookup address).getD 0

/-- The ledger of a node. -/
structure Blockchain where
  chainId : UInt64
  genesisCommitment : String
  blocks : List Block
  initialBalances : Balances
  balances : Balances
  nextNonces : Nonces
  executedEvents : Finset String
deriving DecidableEq

/-! ## Transactions -/

/-- `credit_balance`: a zero amount leaves no entry behind. -/
def creditBalance (balances : Balances) (address : String) (amount : U128)
    (overflowMessage : String) : Result Balances :=
  if amount = 0 then .ok balances
  else do
    let sum ← okOr (U128.checkedAdd (balanceIn balances address) amount) overflowMessage
    return balances.insert address sum

/-- The check of a transaction's signature, which for a raw transaction depends on the chain. -/
def authenticate [Primitives] (chainId : UInt64) (tx : Transaction) : Result Unit :=
  if startsWith tx.signature "ethraw:" then verifyEmbedded tx chainId else verifyTransaction tx

/-- The foundation's share of a fee, rounded down. -/
def foundationFee (fee : U128) : Result U128 := do
  let scaled ← okOr (U128.checkedMul fee foundationFeeBps)
    "재단 수수료 계산이 u128 범위를 넘습니다."
  return scaled / feeBpsDenominator

/-- One round of the loop of `apply_transactions`. The entries are read and written one after the
other, so that sender, receiver, producer and foundation may coincide. -/
def applyTransaction [Primitives] (chainId : UInt64) (producer : String)
    (state : Balances × Nonces) (tx : Transaction) : Result (Balances × Nonces) := do
  let (balances, nonces) := state
  authenticate chainId tx
  ensure (tx.amount ≠ 0) "송금액은 0보다 커야 합니다."
  let expectedNonce := nonceIn nonces tx.sender
  ensure (tx.nonce = expectedNonce) s!"nonce 오류: 기대 {expectedNonce}, 입력 {tx.nonce}"
  let total ← okOr (U128.checkedAdd tx.amount tx.fee) "송금액과 수수료 합계가 너무 큽니다."
  ensure (total ≤ balanceIn balances tx.sender) "수수료를 포함한 잔액이 부족합니다."
  let balances := balances.insert tx.sender (balanceIn balances tx.sender - total)
  let received ← okOr (U128.checkedAdd (balanceIn balances tx.receiver) tx.amount)
    "받는 계정 잔액이 u128 범위를 넘습니다."
  let balances := balances.insert tx.receiver received
  let foundationShare ← foundationFee tx.fee
  let balances ← creditBalance balances producer (tx.fee - foundationShare)
    "블록 생성자 보상 잔액이 u128 범위를 넘습니다."
  let balances ← creditBalance balances foundationFeeAddress foundationShare
    "재단 수수료 잔액이 u128 범위를 넘습니다."
  let nextNonce ← addOne expectedNonce
  return (balances, nonces.insert tx.sender nextNonce)

/-- `apply_transactions`. -/
def applyTransactions [Primitives] (chainId : UInt64) (transactions : List Transaction)
    (producer : String) (state : Balances × Nonces) : Result (Balances × Nonces) :=
  transactions.foldlM (applyTransaction chainId producer) state

/-! ## System events -/

/-- `normalize_address`: one `0x` and lower case for Ethereum addresses, the rest as it is. -/
def normalizeAddress (address : String) : String :=
  if startsWith address "0x" then "0x" ++ toAsciiLowercase (trimStart0x address) else address

/-- `transfer_from_foundation`. -/
def transferFromFoundation (balances : Balances) (receiver : String) (amount : U128) :
    Result Balances := do
  let foundation := balanceIn balances foundationFeeAddress
  ensure (amount ≤ foundation) "예약 이벤트를 실행할 재단 잔액이 부족합니다."
  creditBalance (balances.insert foundationFeeAddress (foundation - amount))
    (normalizeAddress receiver) amount "예약 이벤트 수령 잔액이 u128 범위를 넘습니다."

/-- The payments of an action, in the order the ledger makes them. -/
def ScheduledEventAction.payments : ScheduledEventAction → List (String × U128)
  | .treasuryDistribution recipients => recipients.map fun p => (p.address, p.amount)
  | .periodicProducerReward producer amount => [(producer, amount)]
  | .incidentCompensation _ victim amount => [(victim, amount)]
  | .protocolCheckpoint _ => []
  | .bootstrapValidatorReward registrations amount =>
    registrations.map fun r => (r.validatorId, amount)
  | .nodeMilestoneReward registrations amount =>
    registrations.map fun r => (r.rewardAddress, amount)

/-- Make payments from the foundation account, one after the other. -/
def payFromFoundation (balances : Balances) (payments : List (String × U128)) :
    Result Balances :=
  payments.foldlM (fun b p => transferFromFoundation b p.1 p.2) balances

/-- One round of the loop of `apply_system_events`. -/
def applySystemEvent [Primitives] (blockTimestamp : UInt64) (state : Balances × Finset String)
    (e : ScheduledEvent) : Result (Balances × Finset String) := do
  let (balances, executed) := state
  e.validate
  ensure (e.executeAt ≤ blockTimestamp) s!"이벤트 {e.id}가 실행 시각보다 먼저 포함됐습니다."
  ensure (e.id ∉ executed) s!"이벤트 {e.id}는 이미 실행됐습니다."
  let balances ← payFromFoundation balances e.action.payments
  return (balances, insert e.id executed)

/-- `apply_system_events`. -/
def applySystemEvents [Primitives] (events : List ScheduledEvent) (blockTimestamp : UInt64)
    (state : Balances × Finset String) : Result (Balances × Finset String) :=
  events.foldlM (applySystemEvent blockTimestamp) state

/-! ## Blocks -/

/-- The three maps a block acts on. -/
structure LedgerState where
  balances : Balances
  nextNonces : Nonces
  executedEvents : Finset String
deriving DecidableEq

/-- Execute the content of a block: its transactions, then its events. -/
def executeBlock [Primitives] (chainId : UInt64) (state : LedgerState) (block : Block) :
    Result LedgerState := do
  let (balances, nonces) ← applyTransactions chainId block.transactions block.producer
    (state.balances, state.nextNonces)
  let (balances, executed) ← applySystemEvents block.systemEvents block.timestamp
    (balances, state.executedEvents)
  return ⟨balances, nonces, executed⟩

namespace Blockchain

/-- The maps of the ledger. -/
def state (c : Blockchain) : LedgerState := ⟨c.balances, c.nextNonces, c.executedEvents⟩

/-- The ledger with other maps. -/
def withState (c : Blockchain) (s : LedgerState) : Blockchain :=
  { c with balances := s.balances, nextNonces := s.nextNonces, executedEvents := s.executedEvents }

@[simp] lemma withState_blocks (c : Blockchain) (s : LedgerState) :
    (c.withState s).blocks = c.blocks := rfl

@[simp] lemma withState_state (c : Blockchain) (s : LedgerState) : (c.withState s).state = s := rfl

@[simp] lemma withState_chainId (c : Blockchain) (s : LedgerState) :
    (c.withState s).chainId = c.chainId := rfl

@[simp] lemma withState_initialBalances (c : Blockchain) (s : LedgerState) :
    (c.withState s).initialBalances = c.initialBalances := rfl

@[simp] lemma withState_self (c : Blockchain) : c.withState c.state = c := rfl

/-- `balance_of`. -/
def balanceOf (c : Blockchain) (address : String) : U128 := balanceIn c.balances address

/-- `next_nonce`. -/
def nextNonce (c : Blockchain) (address : String) : UInt64 := nonceIn c.nextNonces address

/-- `tip_height`. -/
def tipHeight (c : Blockchain) : UInt64 := (c.blocks.getLast?.map Block.height).getD 0

/-- `tip_hash`. -/
def tipHash (c : Blockchain) : String := (c.blocks.getLast?.map Block.hash).getD ""

/-- `block_by_height`. -/
def blockByHeight (c : Blockchain) (height : UInt64) : Option Block :=
  c.blocks.find? fun block => block.height == height

section
variable [Primitives]

/-- `with_chain_id`: the genesis block and the initial balances. -/
def withChainId (chainId : UInt64) (initialBalances : List (String × U128)) : Blockchain :=
  { chainId
    genesisCommitment := Block.genesis.hash
    blocks := [Block.genesis]
    initialBalances := HashMap.ofList initialBalances
    balances := HashMap.ofList initialBalances
    nextNonces := ∅
    executedEvents := ∅ }

/-- `from_snapshot_with_events`: a ledger whose only block is an anchor at the snapshot. -/
def fromSnapshotWithEvents (chainId : UInt64) (genesisCommitment : String) (height : UInt64)
    (blockHash : String) (balances : Balances) (nextNonces : Nonces)
    (executedEvents : Finset String) : Result Blockchain := do
  ensure (textLen (trimStart0x blockHash) = 64) "체크포인트 블록 해시는 32바이트 hex여야 합니다."
  let anchor : Block :=
    { height
      previousHash := ""
      timestamp := 0
      producer := "checkpoint"
      transactions := []
      systemEvents := []
      hash := trimStart0x blockHash }
  return { chainId, genesisCommitment, blocks := [anchor], initialBalances := balances,
           balances, nextNonces, executedEvents }

/-- `apply_block`: append a block that links to the tip and executes. -/
def applyBlock (c : Blockchain) (block : Block) : Result Blockchain := do
  let previous ← okOr c.blocks.getLast? "제네시스 블록이 필요합니다."
  let next ← addOne previous.height
  ensure (block.height = next ∧ block.previousHash = previous.hash)
    "새 블록이 현재 체인의 다음 블록이 아닙니다."
  ensure (block.hash = block.calculateHash) "새 블록 해시가 올바르지 않습니다."
  let state ← executeBlock c.chainId c.state block
  return { c with blocks := c.blocks ++ [block] }.withState state

/-- `add_block`: build a block on the tip at the time `now` and append it. -/
def addBlock (c : Blockchain) (now : UInt64) (transactions : List Transaction)
    (producer : String) : Result Blockchain := do
  ensure (transactions ≠ []) "거래가 없으므로 빈 블록을 건너뜁니다."
  let previous ← okOr c.blocks.getLast? "제네시스 블록이 필요합니다."
  let next ← addOne previous.height
  c.applyBlock (Block.new next previous.hash now producer transactions)

/-- The loop of `verify_and_rebuild` after the first block: `index` counts the blocks, `previous`
is the block before the one at the front. -/
def rebuildFrom (chainId : UInt64) : ℕ → Block → List Block → LedgerState → Result LedgerState
  | _, _, [], state => .ok state
  | index, previous, block :: rest, state => do
    ensure (block.hash = block.calculateHash) s!"{index}번 블록 해시가 변조되었습니다."
    let next ← addOne previous.height
    ensure (block.height = next ∧ block.previousHash = previous.hash)
      s!"{index}번 블록 연결이 끊어졌습니다."
    let state ← executeBlock chainId state block
    rebuildFrom chainId (index + 1) block rest state

/-- The maps `verify_and_rebuild` computes from the initial balances and the blocks. -/
def rebuild (c : Blockchain) : Result LedgerState := do
  ensure (c.blocks.head? = some Block.genesis) "제네시스 블록이 다릅니다."
  ensure (Block.genesis.hash = Block.genesis.calculateHash) "0번 블록 해시가 변조되었습니다."
  rebuildFrom c.chainId 1 Block.genesis c.blocks.tail ⟨c.initialBalances, ∅, ∅⟩

/-- `verify_and_rebuild`: replace the maps by the recomputed ones, or leave them on an error. -/
def verifyAndRebuild (c : Blockchain) : Result Unit × Blockchain :=
  match c.rebuild with
  | .ok state => (.ok (), c.withState state)
  | .error e => (.error e, c)

/-- What `state_hash` hashes: the balance entries in address order with their nonces, then the
executed event ids in order. -/
def stateBytes (c : Blockchain) : Bytes :=
  ((sortedList c.balances.keys).flatMap fun address =>
    textBytes address ++ beBytes 16 (c.balanceOf address).toNat ++
      beBytes 8 (c.nextNonce address).toNat) ++
  (sortedList c.executedEvents).flatMap fun eventId => textBytes "event:" ++ textBytes eventId

/-- `state_hash`. -/
def stateHash (c : Blockchain) : String := sha256Hex c.stateBytes

end

end Blockchain

end IeumChain
