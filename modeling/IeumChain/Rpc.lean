import IeumChain.Chain
import IeumChain.Mempool

/-!
# Balances, nonces and transfers over RPC (`rpc.rs`)

The handlers a wallet calls: `eth_getBalance`, `eth_getTransactionCount` and
`eth_sendTransaction`. They take addresses as the caller spells them and translate them to the
ledger's with a normalisation of their own and the table of loaded wallets.
-/

namespace IeumChain

open Lib

/-! ## Account wallets (`account.rs`) -/

/-- A secp256k1 wallet, as the signing key answers: the uncompressed public key and the signature
of a message. -/
structure AccountWallet where
  publicKey : Bytes
  sign : Bytes → Bytes

namespace AccountWallet
variable [Primitives]

/-- `AccountWallet::address`. -/
def address (w : AccountWallet) : String := ethereumAddress w.publicKey

/-- `sign_bytes`: the public key in front of the signature. -/
def signBytes (w : AccountWallet) (message : Bytes) : String :=
  hexEncode (w.publicKey ++ w.sign message)

/-- `sign_transfer`. -/
def signTransfer (w : AccountWallet) (receiver : String) (amount fee : U128) (nonce : UInt64) :
    Transaction :=
  let tx : Transaction := { sender := w.address, receiver, amount, fee, nonce, signature := "" }
  { tx with signature := w.signBytes tx.signingBytes }

end AccountWallet

namespace Rpc

/-! ## Requests and answers -/

/-- An answer, or an error with its JSON-RPC code. -/
abbrev Answer (α : Type) := Except (ℤ × String) α

/-- An error message under a code. -/
def coded {α : Type} (code : ℤ) (x : Result α) : Answer α := x.mapError fun message => (code, message)

/-- A parameter of a request, as far as the handlers read it: a text, or an object with its
fields that are texts. -/
inductive Param where
  | string (text : String)
  | object (field : String → Option String)
  | other

/-- `Value::as_str`. -/
def Param.asStr : Param → Option String
  | .string text => some text
  | _ => none

/-- `Value::as_object`. -/
def Param.asObject : Param → Option (String → Option String)
  | .object field => some field
  | _ => none

/-- `string_param`. -/
def stringParam (params : List Param) (index : ℕ) : Answer String :=
  coded (-32602) (okOr (params[index]?.bind Param.asStr)
    s!"{index}번 문자열 파라미터가 필요합니다.")

/-- `quantity` and `quantity_u128`: the lower-case digits after `0x`. -/
def quantity (value : ℕ) : String := "0x" ++ String.ofList (Nat.toDigits 16 value)

/-- One digit of `from_str_radix`: more than `bits` bits are refused. -/
def pushDigit (bits value : ℕ) (c : Char) : Option ℕ := do
  let digit ← hexValue c
  if value * 16 + digit < 2 ^ bits then some (value * 16 + digit) else none

/-- `from_str_radix` for radix 16 and an unsigned type. One leading plus sign is allowed. -/
def fromStrRadix (bits : ℕ) (s : String) : Option ℕ :=
  let digits := match s.toList with
    | '+' :: rest => rest
    | cs => cs
  if digits = [] then none else digits.foldlM (pushDigit bits) 0

/-- `parse_quantity_u64` and `parse_quantity_u128`. -/
def parseQuantity (bits : ℕ) (value : String) : Answer ℕ := do
  let hex ← coded (-32602) (okOr (stripPrefix value "0x")
    "수량은 0x 접두사가 있는 hex여야 합니다.")
  coded (-32602) (okOr (fromStrRadix bits (if hex = "" then "0" else hex))
    s!"수량이 u{bits} 범위를 벗어났거나 잘못되었습니다.")

/-! ## State -/

section
variable [Primitives]

/-- `RpcState`, as far as these handlers use it. The wallets stand under the addresses they were
loaded by. -/
structure RpcState where
  chain : Blockchain
  pool : Mempool
  wallets : HashMap String AccountWallet

/-- `rpc::normalize_address`: one `0x` and lower case, whatever the spelling. -/
def normalizeAddress (address : String) : String :=
  "0x" ++ toAsciiLowercase (trimStart0x address)

/-- `resolve_ledger_address`: the address of the wallet loaded under the normalised address, or
that address. -/
def resolveLedgerAddress (state : RpcState) (address : String) : String :=
  let normalized := normalizeAddress address
  ((state.wallets.lookup normalized).map AccountWallet.address).getD normalized

/-! ## Handlers -/

/-- `eth_getBalance`. -/
def ethGetBalance (state : RpcState) (params : List Param) : Answer String := do
  let address ← stringParam params 0
  return quantity (state.chain.balanceOf (resolveLedgerAddress state address)).toNat

/-- `eth_getTransactionCount`. -/
def ethGetTransactionCount (state : RpcState) (params : List Param) : Answer String := do
  let address ← stringParam params 0
  return quantity (state.chain.nextNonce (resolveLedgerAddress state address)).toNat

/-- The nonce of a transfer: the requested one, or the next of the wallet's account. -/
def nonceOf (state : RpcState) (wallet : AccountWallet) : Option String → Answer UInt64
  | some value => do
    let nonce ← parseQuantity 64 value
    return UInt64.ofNat nonce
  | none => .ok (state.chain.nextNonce wallet.address)

/-- The signed transfer `send_transaction` offers to the pool. -/
def transferOf (state : RpcState) (params : List Param) : Answer Transaction := do
  let field ← coded (-32602) (okOr (params.head?.bind Param.asObject) "거래 객체가 필요합니다.")
  let sender ← coded (-32602) (okOr (field "from") "from 주소가 필요합니다.")
  let receiver ← coded (-32602) (okOr (field "to") "to 주소가 필요합니다.")
  let amount ← parseQuantity 128 ((field "value").getD "0x0")
  let gasPrice ← parseQuantity 128 ((field "gasPrice").getD "0x1")
  let gasLimit ← parseQuantity 128 ((field "gas").getD "0x5208")
  let fee ← coded (-32602) (okOr
    (U128.checkedMul (BitVec.ofNat 128 gasPrice) (BitVec.ofNat 128 gasLimit))
    "gasPrice와 gas의 곱이 u128 범위를 넘습니다.")
  let wallet ← coded (-32000) (okOr (state.wallets.lookup (normalizeAddress sender))
    "노드가 관리하지 않는 from 계정입니다.")
  let nonce ← nonceOf state wallet (field "nonce")
  return wallet.signTransfer (resolveLedgerAddress state receiver) (BitVec.ofNat 128 amount) fee
    nonce

/-- `send_transaction`: the answer is the id of the transfer the pool took. -/
def sendTransaction (state : RpcState) (params : List Param) : Answer String × RpcState :=
  match transferOf state params with
  | .error e => (.error e, state)
  | .ok tx =>
    match state.pool.add tx with
    | (.error message, pool) => (.error (-32000, message), { state with pool })
    | (.ok (), pool) => (.ok ("0x" ++ tx.id), { state with pool })

end

end Rpc

end IeumChain
