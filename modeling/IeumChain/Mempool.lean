import IeumChain.Lib.HashMap
import IeumChain.Model
import Mathlib.Data.List.MinMax
import Mathlib.Data.List.FinRange

/-!
# The transaction pool (`mempool.rs`)

The transactions that wait for a block. Beside the queue itself the pool keeps three fields that
can be computed from it: the ids it holds, the id it holds for each sender and nonce, and the
number of bytes of JSON it holds. Counters of type `usize` are natural numbers here, with the
saturation at the largest 64-bit value written out; `saturating_sub` is the subtraction of `ℕ`.
-/

namespace IeumChain

open Lib

namespace Transaction

/-- The JSON text of a transaction. Amount and fee are written as decimal strings. -/
def json (tx : Transaction) : Bytes :=
  textBytes "\x7b\"from\":" ++ Json.quoted tx.sender ++ textBytes ",\"to\":" ++
    Json.quoted tx.receiver ++ textBytes ",\"amount\":" ++ Json.quoted (toString tx.amount.toNat) ++
    textBytes ",\"fee\":" ++ Json.quoted (toString tx.fee.toNat) ++ textBytes ",\"nonce\":" ++
    Json.decimal tx.nonce.toNat ++ textBytes ",\"signature\":" ++ Json.quoted tx.signature ++
    textBytes "\x7d"

/-- The length of the JSON text. -/
def jsonSize (tx : Transaction) : ℕ := tx.json.length

/-- The sender with the nonce: what a later transaction replaces an earlier one by. -/
def slot (tx : Transaction) : String × UInt64 := (tx.sender, tx.nonce)

end Transaction

/-- The pool. -/
structure Mempool where
  transactions : List Transaction
  ids : Finset String
  senderNonce : HashMap (String × UInt64) String
  totalBytes : ℕ
  maxTransactions : UInt64
  maxBytes : UInt64

namespace Mempool

/-- `with_limits`: an empty pool with room for one transaction and one byte at least. -/
def withLimits (maxTransactions maxBytes : UInt64) : Mempool where
  transactions := []
  ids := ∅
  senderNonce := ∅
  totalBytes := 0
  maxTransactions := max maxTransactions 1
  maxBytes := max maxBytes 1

/-- `Mempool::default`: 10,000 transactions and 16 MiB. -/
def default : Mempool := withLimits 10000 (16 * 1024 * 1024)

/-! ## Adding a transaction -/

section
variable [Primitives]

/-- `remove_at`. -/
def removeAt (p : Mempool) (position : Fin p.transactions.length) : Transaction × Mempool :=
  let transaction := p.transactions[position]
  (transaction,
    { p with transactions := p.transactions.eraseIdx position
             ids := p.ids.erase transaction.id
             senderNonce := p.senderNonce.erase transaction.slot
             totalBytes := p.totalBytes - transaction.jsonSize })

/-- The message of `add` when `sender_nonce` names a transaction that is not held. -/
def indexCorrupted : String := "mempool nonce 인덱스가 손상되었습니다."

/-- The fee from which on a transaction may replace one of the given fee: a tenth more, and one
unit at least. -/
def minimumFee (fee : U128) : U128 :=
  U128.saturatingAdd fee (if fee / 10 < 1 then 1 else fee / 10)

/-- Make way in `add` for a transaction whose sender and nonce are taken. The entry of
`sender_nonce` stays until `add` overwrites it. -/
def replacePrevious (p : Mempool) (tx : Transaction) : Result Unit × Mempool :=
  match p.senderNonce.lookup tx.slot with
  | none => (.ok (), p)
  | some previousId =>
    match p.transactions.findFinIdx? fun existing => existing.id == previousId with
    | none => (.error indexCorrupted, p)
    | some position =>
      let previous := p.transactions[position]
      if tx.fee < minimumFee previous.fee then
        (.error "같은 nonce 거래 교체에는 기존보다 최소 10% 높은 수수료가 필요합니다.", p)
      else
        (.ok (),
          { p with totalBytes := p.totalBytes - previous.jsonSize
                   ids := p.ids.erase previousId
                   transactions := p.transactions.eraseIdx position })

/-- Is there no room for a transaction of the given size? -/
def Overfull (p : Mempool) (size : ℕ) : Prop :=
  p.maxTransactions.toNat ≤ p.transactions.length ∨
    p.maxBytes.toNat < saturatingAdd p.totalBytes size

instance (p : Mempool) (size : ℕ) : Decidable (p.Overfull size) :=
  inferInstanceAs (Decidable (_ ∨ _))

/-- The first position with the lowest fee. -/
def cheapest (p : Mempool) : Option (Fin p.transactions.length) :=
  (List.finRange p.transactions.length).argmin fun position =>
    p.transactions[position].fee.toNat

/-- One round of the eviction loop of `add`, or nothing where the loop ends. -/
def evictOne (p : Mempool) (size : ℕ) : Option Mempool :=
  if p.Overfull size then p.cheapest.map fun position => (p.removeAt position).2 else none

/-- A round leaves one transaction fewer. -/
lemma length_evictOne {p q : Mempool} {size : ℕ} (h : p.evictOne size = some q) :
    q.transactions.length + 1 = p.transactions.length := by
  unfold evictOne at h
  split at h
  · obtain ⟨position, _, rfl⟩ := Option.map_eq_some_iff.mp h
    exact List.length_eraseIdx_add_one position.isLt
  · exact absurd h (by simp)

/-- The eviction loop of `add`. -/
def evict (p : Mempool) (size : ℕ) : Mempool :=
  match _h : p.evictOne size with
  | none => p
  | some q => q.evict size
termination_by p.transactions.length
decreasing_by
  have := length_evictOne _h
  omega

/-- The end of `add`, where nothing can fail. -/
def push (p : Mempool) (tx : Transaction) : Mempool :=
  { p with ids := insert tx.id p.ids
           senderNonce := p.senderNonce.insert tx.slot tx.id
           totalBytes := saturatingAdd p.totalBytes tx.jsonSize
           transactions := p.transactions ++ [tx] }

/-- `add`. -/
def add (p : Mempool) (tx : Transaction) : Result Unit × Mempool :=
  if tx.id ∈ p.ids then (.error "이미 mempool에 있는 거래입니다.", p)
  else if p.maxBytes.toNat < tx.jsonSize then
    (.error "거래 하나가 mempool 최대 바이트보다 큽니다.", p)
  else
    match p.replacePrevious tx with
    | (.error e, p) => (.error e, p)
    | (.ok (), p) => (.ok (), (p.evict tx.jsonSize).push tx)

/-! ## Taking transactions out -/

/-- The order of `drain`: the higher fee first, then the lower nonce. -/
def DrainOrder (left right : Transaction) : Prop :=
  right.fee < left.fee ∨ (right.fee = left.fee ∧ left.nonce ≤ right.nonce)

instance (left right : Transaction) : Decidable (DrainOrder left right) :=
  inferInstanceAs (Decidable (_ ∨ _))

/-- The loop of `drain`. -/
def takeFirst : ℕ → Mempool → List Transaction × Mempool
  | 0, p => ([], p)
  | count + 1, p =>
    if h : 0 < p.transactions.length then
      let (transaction, p) := p.removeAt ⟨0, h⟩
      let (selected, p) := takeFirst count p
      (transaction :: selected, p)
    else ([], p)

/-- `drain`. The sort is stable. -/
def drain (p : Mempool) (maxCount : ℕ) : List Transaction × Mempool :=
  takeFirst maxCount { p with transactions := p.transactions.insertionSort DrainOrder }

/-- What `retain_valid` keeps. The predicate may have a state of its own, so that its answer
depends on the number of transactions it was asked about before. -/
def retained (p : Mempool) (valid : ℕ → Transaction → Bool) : List Transaction :=
  (p.transactions.zipIdx.filter fun entry => valid entry.2 entry.1).map Prod.fst

/-- `retain_valid`. -/
def retainValid (p : Mempool) (valid : ℕ → Transaction → Bool) : Mempool :=
  (p.retained valid).foldl (fun q tx => (q.add tx).2) (withLimits p.maxTransactions p.maxBytes)

/-! ## Runs -/

/-- A call that changes the pool. -/
inductive Call where
  | add (tx : Transaction)
  | drain (maxCount : ℕ)
  | retainValid (valid : ℕ → Transaction → Bool)

/-- The pool after a call. -/
def call (p : Mempool) : Call → Mempool
  | .add tx => (p.add tx).2
  | .drain maxCount => (p.drain maxCount).2
  | .retainValid valid => p.retainValid valid

/-- The pool after a list of calls. -/
def run (p : Mempool) (calls : List Call) : Mempool := calls.foldl call p

end

end Mempool

end IeumChain
