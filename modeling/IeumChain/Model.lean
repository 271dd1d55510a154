import IeumChain.ScheduledEvent

/-!
# Transactions and blocks (`model.rs`)

The data every node agrees on, and the byte strings its identifiers are hashes of. A transaction
is signed and identified over length-prefixed fields; a block's hash is taken over the plain
concatenation of its fields.
-/

namespace IeumChain

open Lib

/-- A signed transfer of coins. -/
structure Transaction where
  sender : String
  receiver : String
  amount : U128
  fee : U128
  nonce : UInt64
  signature : String
deriving DecidableEq

namespace Transaction

/-- `signing_bytes`: the fields a signature covers, in fixed order. -/
def signingBytes (tx : Transaction) : Bytes :=
  pushText tx.sender ++ pushText tx.receiver ++ beBytes 16 tx.amount.toNat ++
    beBytes 16 tx.fee.toNat ++ beBytes 8 tx.nonce.toNat

/-- What `Transaction::id` hashes. -/
def idPreimage (tx : Transaction) : Bytes := tx.signingBytes ++ textBytes tx.signature

/-- `Transaction::id`. -/
def id [Primitives] (tx : Transaction) : String := sha256Hex tx.idPreimage

end Transaction

/-- A block: a batch of transfers and system events on top of its predecessor. -/
structure Block where
  height : UInt64
  previousHash : String
  timestamp : UInt64
  producer : String
  transactions : List Transaction
  systemEvents : List ScheduledEvent
  hash : String
deriving DecidableEq

namespace Block
variable [Primitives]

/-- The events' contribution to the hash: id and JSON text of each. -/
def eventBytes (events : List ScheduledEvent) : Bytes :=
  events.flatMap fun e => textBytes e.id ++ e.consensusBytes

/-- The transactions' contribution to the hash: their ids. -/
def transactionBytes (transactions : List Transaction) : Bytes :=
  transactions.flatMap fun tx => textBytes tx.id

/-- What `calculate_hash` hashes: all fields but the hash, one after the other. -/
def preimage (b : Block) : Bytes :=
  beBytes 8 b.height.toNat ++ textBytes b.previousHash ++ beBytes 8 b.timestamp.toNat ++
    textBytes b.producer ++ transactionBytes b.transactions ++ eventBytes b.systemEvents

/-- `calculate_hash`. -/
def calculateHash (b : Block) : String := sha256Hex b.preimage

/-- `Block::new`: a block without events, with its hash. -/
def new (height : UInt64) (previousHash : String) (timestamp : UInt64) (producer : String)
    (transactions : List Transaction) : Block :=
  let block : Block :=
    { height, previousHash, timestamp, producer, transactions, systemEvents := [], hash := "" }
  { block with hash := block.calculateHash }

/-- `with_system_events`. -/
def withSystemEvents (b : Block) (events : List ScheduledEvent) : Block :=
  let block := { b with systemEvents := events }
  { block with hash := block.calculateHash }

/-- `Block::genesis`: the block at height 0 every node starts from. -/
def genesis : Block := new 0 (String.ofList (List.replicate 64 '0')) 0 "genesis" []

/-- The hash is not part of its own preimage. -/
@[simp] lemma calculateHash_with_hash (b : Block) (hash : String) :
    calculateHash { b with hash := hash } = b.calculateHash := rfl

lemma genesis_hash : genesis.hash = genesis.calculateHash := rfl

/-- A block hash is 64 bytes of text. -/
lemma textLen_calculateHash (b : Block) : textLen b.calculateHash = 64 := textLen_sha256Hex _

end Block

end IeumChain
