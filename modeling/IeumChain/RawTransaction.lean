import IeumChain.Model

/-!
# Embedded Ethereum transactions (`raw_transaction.rs`)

A transfer may carry an EIP-155 legacy transaction as its signature. `verifyEmbedded` decodes the
RLP list, recovers the signer from the ECDSA signature and compares the decoded transfer with the
fields of the ledger transaction.
-/

namespace IeumChain

open Lib

/-! ## RLP -/

namespace Rlp

/-- `encode_length`: the header of a string or list of `length` bytes. -/
def encodeLength (length shortBase longBase : ℕ) : Bytes :=
  if length ≤ 55 then [UInt8.ofNat (shortBase + length)]
  else
    let encoded := (beBytes 8 length).dropWhile (· == 0)
    UInt8.ofNat (longBase + encoded.length) :: encoded

/-- `encode_bytes`: a byte string. -/
def encodeBytes (value : Bytes) : Bytes :=
  match value with
  | [b] => if b < 0x80 then [b] else encodeLength 1 0x80 0xb7 ++ [b]
  | _ => encodeLength value.length 0x80 0xb7 ++ value

/-- `encode_list`: a list of encoded items. -/
def encodeList (items : List Bytes) : Bytes :=
  encodeLength items.flatten.length 0xc0 0xf7 ++ items.flatten

/-- `encode_u64` and `encode_u128`: the minimal big-endian bytes, none for zero. -/
def encodeNat (width value : ℕ) : Bytes :=
  if value = 0 then encodeBytes [] else encodeBytes ((beBytes width value).dropWhile (· == 0))

/-- The integer of a big-endian byte string. -/
def beNat (value : Bytes) : ℕ := value.foldl (fun acc byte => acc * 256 + byte.toNat) 0

/-- `read_length`: the big-endian length field after the first byte. -/
def readLength (input : Bytes) (width : ℕ) : Result ℕ := do
  ensure (width ≠ 0 ∧ width ≤ 8 ∧ 1 + width ≤ input.length) "RLP 길이 필드가 잘못되었습니다."
  return beNat ((input.drop 1).take width)

/-- The kind of the item at the front of the input, and where its content starts and how long it
is. -/
def itemHeader (input : Bytes) : Result (Bool × ℕ × ℕ) := do
  let first ← okOr input.head? "빈 RLP입니다."
  let p := first.toNat
  if p ≤ 0x7f then return (false, 0, 1)
  else if p ≤ 0xb7 then return (false, 1, p - 0x80)
  else if p ≤ 0xbf then
    let length ← readLength input (p - 0xb7)
    return (false, 1 + (p - 0xb7), length)
  else if p ≤ 0xf7 then return (true, 1, p - 0xc0)
  else
    let length ← readLength input (p - 0xf7)
    return (true, 1 + (p - 0xf7), length)

/-- `decode_item`: the content of the item at the front of the input and its encoded size. -/
def decodeItem (input : Bytes) (requireList : Bool) : Result (Bytes × ℕ) := do
  let (isList, start, length) ← itemHeader input
  ensure (requireList = isList) "예상한 RLP 항목 종류와 다릅니다."
  ensure (start + length < 2 ^ 64) "RLP 길이가 넘쳤습니다."
  ensure (start + length ≤ input.length) "RLP 길이가 실제 데이터보다 큽니다."
  return ((input.drop start).take length, start + length)

/-- The items of a list's content. Every item takes at least one byte, so as many steps as there
are bytes are enough. -/
def decodeItems : ℕ → Bytes → Result (List Bytes)
  | _, [] => .ok []
  | 0, _ :: _ => .error "빈 RLP입니다."
  | fuel + 1, b :: bs => do
    let (value, size) ← decodeItem (b :: bs) false
    let rest ← decodeItems fuel ((b :: bs).drop size)
    return value :: rest

/-- `decode_list`. -/
def decodeList (input : Bytes) : Result (List Bytes) := do
  let (payload, consumed) ← decodeItem input true
  ensure (consumed = input.length) "RLP 목록 뒤에 불필요한 바이트가 있습니다."
  decodeItems payload.length payload

end Rlp

/-! ## EIP-155 legacy transactions -/

section
variable [Primitives]

/-- `value_u64`. -/
def valueU64 (value : Bytes) (name : String) : Result UInt64 := do
  ensure (value.length ≤ 8) s!"{name}이 u64 범위를 벗어났습니다."
  return UInt64.ofNat (Rlp.beNat value)

/-- `value_u128`. -/
def valueU128 (value : Bytes) (name : String) : Result U128 := do
  ensure (value.length ≤ 16) s!"{name}이 u128 범위를 벗어났습니다."
  return BitVec.ofNat 128 (Rlp.beNat value)

/-- `padded_scalar`: the 32 bytes of a signature scalar. -/
def paddedScalar (value : Bytes) (name : String) : Result Bytes := do
  ensure (value.length ≤ 32) s!"서명 {name}이 32바이트를 넘습니다."
  return List.replicate (32 - value.length) 0 ++ value

/-- The Ethereum address of an uncompressed public key: the last 20 bytes of its Keccak hash. -/
def ethereumAddress (point : Bytes) : String :=
  "0x" ++ hexEncode ((keccak256 (point.drop 1)).val.drop 12)

/-- The nine fields of a legacy transaction. -/
def legacyFields (fields : List Bytes) (message : String) :
    Result (Bytes × Bytes × Bytes × Bytes × Bytes × Bytes × Bytes × Bytes × Bytes) :=
  match fields with
  | [f0, f1, f2, f3, f4, f5, f6, f7, f8] => .ok (f0, f1, f2, f3, f4, f5, f6, f7, f8)
  | _ => .error message

/-- The RLP payload an EIP-155 signature covers. -/
def legacySigning (nonce gasPrice gasLimit : UInt64) (receiver : Bytes) (amount : U128)
    (chainId : UInt64) : Bytes :=
  Rlp.encodeList
    [Rlp.encodeNat 8 nonce.toNat, Rlp.encodeNat 8 gasPrice.toNat, Rlp.encodeNat 8 gasLimit.toNat,
      Rlp.encodeBytes receiver, Rlp.encodeNat 16 amount.toNat, Rlp.encodeBytes [],
      Rlp.encodeNat 8 chainId.toNat, Rlp.encodeBytes [], Rlp.encodeBytes []]

/-- `decode_legacy`: check a raw transaction for this chain and translate it. -/
def decodeLegacy (rawHex : String) (expectedChainId : UInt64) : Result Transaction := do
  let raw ← okOr (hexDecode (trimStart0x rawHex)) "raw transaction이 올바른 hex가 아닙니다."
  let fields ← Rlp.decodeList raw
  let (f0, f1, f2, receiver, f4, f5, f6, f7, f8) ←
    legacyFields fields "v0.0.4는 EIP-155 legacy RLP 거래만 지원합니다."
  let nonce ← valueU64 f0 "nonce"
  let gasPrice ← valueU64 f1 "gasPrice"
  let gasLimit ← valueU64 f2 "gasLimit"
  ensure (receiver.length = 20) "현재는 20바이트 수신 주소 송금만 지원합니다."
  let amount ← valueU128 f4 "value"
  ensure (f5 = []) "EVM calldata는 아직 지원하지 않습니다."
  let v ← valueU64 f6 "v"
  ensure (35 ≤ v) "EIP-155 체인 ID가 없는 거래는 재생 공격 방지를 위해 거부합니다."
  let chainId := (v - 35) / 2
  ensure (chainId = expectedChainId)
    s!"체인 ID 불일치: 기대 {expectedChainId}, 입력 {chainId}"
  let r ← paddedScalar f7 "r"
  let s ← paddedScalar f8 "s"
  ensure (Primitives.ecdsaSignature (r ++ s) = true) "ECDSA r/s가 잘못되었습니다."
  let digest := (keccak256 (legacySigning nonce gasPrice gasLimit receiver amount chainId)).val
  let point ← okOr (Primitives.ecdsaRecover digest (r ++ s) ((v - 35) % 2).toNat)
    "raw transaction 서명에서 공개키를 복구하지 못했습니다."
  let fee ← okOr (U128.checkedMul (BitVec.ofNat 128 gasPrice.toNat)
    (BitVec.ofNat 128 gasLimit.toNat)) "gasPrice와 gasLimit의 곱이 u128 범위를 넘습니다."
  return { sender := ethereumAddress point, receiver := "0x" ++ hexEncode receiver, amount, fee,
           nonce, signature := "ethraw:" ++ hexEncode raw }

/-- `verify_embedded`: the ledger transaction is the decoding of the raw one it carries. -/
def verifyEmbedded (tx : Transaction) (expectedChainId : UInt64) : Result Unit := do
  let raw ← okOr (stripPrefix tx.signature "ethraw:") "Ethereum raw transaction 표식이 없습니다."
  let bytes ← okOr (hexDecode raw) "raw transaction이 올바른 hex가 아닙니다."
  let fields ← Rlp.decodeList bytes
  let (_, _, _, _, _, _, f6, _, _) ←
    legacyFields fields "legacy RLP 거래 필드 수가 9개가 아닙니다."
  let v ← valueU64 f6 "v"
  ensure (35 ≤ v) "EIP-155 체인 ID가 없는 거래입니다."
  let decoded ← decodeLegacy raw expectedChainId
  ensure (decoded = tx) "raw transaction과 원장 거래 필드가 일치하지 않습니다."

/-! ## Accounts (`account.rs`) and the choice of the check (`wallet.rs`) -/

/-- `account::normalize_address`: one `0x` and lower case, whatever the spelling. -/
def normalizeAccountAddress (address : String) : String :=
  "0x" ++ toAsciiLowercase (trimStart0x address)

/-- `verify_account_signature`: the 65-byte public key in front of the signature belongs to the
address and signs the message. -/
def verifyAccountSignature (address : String) (message : Bytes) (encodedSignature : String) :
    Result Unit := do
  let bytes ← okOr (hexDecode encodedSignature) "서명이 hex 문자열이 아닙니다."
  ensure (bytes.length = 129) "secp256k1 서명은 공개키 65바이트와 서명 64바이트여야 합니다."
  let point ← okOr (Primitives.secp256k1Key (bytes.take 65)) "secp256k1 공개키가 잘못되었습니다."
  ensure (ethereumAddress point = normalizeAccountAddress address)
    "서명 공개키에서 계산한 Ethereum 주소가 보내는 주소와 다릅니다."
  ensure (Primitives.ecdsaSignature (bytes.drop 65) = true) "ECDSA 서명이 잘못되었습니다."
  ensure (Primitives.ecdsaVerify point message (bytes.drop 65) = true)
    "전자서명이 일치하지 않습니다."

/-- `verify_transaction`: account signatures for `0x` senders, Ed25519 for the others. A raw
transaction is left to `verifyEmbedded`, which knows the chain. -/
def verifyTransaction (tx : Transaction) : Result Unit :=
  if startsWith tx.signature "ethraw:" then .ok ()
  else if startsWith tx.sender "0x" then
    verifyAccountSignature tx.sender tx.signingBytes tx.signature
  else verifySignature tx.sender tx.signingBytes tx.signature

end

end IeumChain
