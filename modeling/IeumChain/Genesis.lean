import IeumChain.Chain
import IeumChain.Consensus

/-!
# The genesis configuration (`genesis.rs`)

The file every node of a network starts from. `from_genesis` checks it, writes its balances under
normalised addresses and keeps its hash as the commitment of the ledger.
-/

namespace IeumChain

open Lib

/-- The JSON text of a validator. -/
def Validator.json (v : Validator) : Bytes :=
  textBytes "\x7b\"id\":" ++ Json.quoted v.id ++ textBytes ",\"voting_power\":" ++
    Json.decimal v.votingPower.toNat ++ textBytes "\x7d"

/-- The JSON text of an initial balance: a pair of address and amount. -/
def initialBalanceJson (entry : String × U128) : Bytes :=
  textBytes "[" ++ Json.quoted entry.1 ++ textBytes "," ++ Json.decimal entry.2.toNat ++
    textBytes "]"

structure GenesisConfig where
  chainId : UInt64
  networkName : String
  genesisTime : UInt64
  initialBalances : List (String × U128)
  validators : List Validator
  maxBlockBytes : UInt64
  maxActiveBlockBytes : UInt64
deriving DecidableEq

namespace GenesisConfig

/-- One validator of the configuration: with power, a 32-byte key, and not named before. -/
def checkValidator (validatorIds : Finset String) (v : Validator) : Result (Finset String) := do
  ensure (v.votingPower ≠ 0 ∧ (hexDecode v.id).map List.length = some 32 ∧ v.id ∉ validatorIds)
    "검증자 ID는 고유한 32바이트 Ed25519 공개키이고 투표권은 1 이상이어야 합니다."
  return insert v.id validatorIds

/-- `GenesisConfig::validate`. -/
def validate (g : GenesisConfig) : Result Unit := do
  ensure (g.chainId ≠ 0) "chain_id는 0일 수 없습니다."
  ensure (4 ≤ g.validators.length) "BFT 제네시스 검증자는 최소 4개가 필요합니다."
  let _ ← g.validators.foldlM checkValidator ∅
  ensure (g.maxBlockBytes ≠ 0 ∧ g.maxBlockBytes ≤ 4 * 1024 * 1024)
    "모바일 호환을 위해 블록은 1바이트~4MiB여야 합니다."
  ensure (g.maxActiveBlockBytes ≠ 0 ∧ g.maxActiveBlockBytes ≤ 100000000)
    "활성 블록 전체 크기는 100MB 이하여야 합니다."

/-- The JSON text of the configuration. -/
def json (g : GenesisConfig) : Bytes :=
  textBytes "\x7b\"chain_id\":" ++ Json.decimal g.chainId.toNat ++
    textBytes ",\"network_name\":" ++ Json.quoted g.networkName ++
    textBytes ",\"genesis_time\":" ++ Json.decimal g.genesisTime.toNat ++
    textBytes ",\"initial_balances\":" ++ Json.array initialBalanceJson g.initialBalances ++
    textBytes ",\"validators\":" ++ Json.array Validator.json g.validators ++
    textBytes ",\"max_block_bytes\":" ++ Json.decimal g.maxBlockBytes.toNat ++
    textBytes ",\"max_active_block_bytes\":" ++ Json.decimal g.maxActiveBlockBytes.toNat ++
    textBytes "\x7d"

/-- `genesis_hash`. -/
def genesisHash [Primitives] (g : GenesisConfig) : Result String := do
  g.validate
  return sha256Hex g.json

end GenesisConfig

/-- `from_genesis`. -/
def Blockchain.fromGenesis [Primitives] (genesis : GenesisConfig) : Result Blockchain := do
  genesis.validate
  let balances := genesis.initialBalances.map fun entry => (normalizeAddress entry.1, entry.2)
  let chain := withChainId genesis.chainId balances
  let commitment ← genesis.genesisHash
  return { chain with genesisCommitment := commitment }

/-- A valid configuration gives the genesis block with its normalised balances. -/
lemma Blockchain.fromGenesis_eq_ok [Primitives] {genesis : GenesisConfig} {c : Blockchain} :
    fromGenesis genesis = .ok c ↔ genesis.validate = .ok () ∧
      c = { withChainId genesis.chainId (genesis.initialBalances.map fun entry =>
        (normalizeAddress entry.1, entry.2)) with genesisCommitment := sha256Hex genesis.json } := by
  simp only [fromGenesis, GenesisConfig.genesisHash, bind_eq_ok, pure_eq_ok]
  constructor
  · rintro ⟨_, hvalid, _, ⟨_, _, rfl⟩, rfl⟩
    exact ⟨hvalid, rfl⟩
  · rintro ⟨hvalid, rfl⟩
    exact ⟨(), hvalid, _, ⟨(), hvalid, rfl⟩, rfl⟩

end IeumChain
