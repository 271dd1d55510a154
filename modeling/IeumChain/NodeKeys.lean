import IeumChain.Lib.NewFiles
import IeumChain.Lib.Text
import IeumChain.Wallet

/-!
# Key files (`validator_key.rs`, `node_key.rs`)

A server has a validator key, the hexadecimal seed of an Ed25519 key, and a node key, the encoded
key pair its peer id comes from. Both files are made at the first start and read at every later one.
Paths are of any type; what they are shown as is a parameter.
-/

namespace IeumChain

open Lib

/-- What is used of the key types of `ed25519_dalek` and `libp2p`. -/
structure KeyTypes where
  /-- The public key of `SigningKey::from_bytes`. -/
  verifyingKey : Bytes → Bytes
  /-- The text of the peer id of `Keypair::from_protobuf_encoding`. -/
  peerIdOfEncoding : Bytes → Result String

/-- The paths that are used, what a path is shown as, and the directory it is in. -/
structure PathNames (P : Type) where
  display : P → String
  parent : P → P

/-- A generated key pair, and how `to_protobuf_encoding` ends. -/
structure GeneratedKeypair where
  peerId : String
  encoding : Result Bytes

/-- `fs::read_to_string`. -/
def readToString {P : Type} [DecidableEq P] (place : P) : DiskM P String := do
  let stored ← Disk.read place
  Disk.lift do
    let bytes ← okOr stored "No such file or directory (os error 2)"
    okOr (decodeText bytes) "stream did not contain valid UTF-8"

namespace KeyTypes
variable {P : Type} [DecidableEq P] (keys : KeyTypes) (names : PathNames P)

/-- `Wallet::from_seed`, and its address. -/
def address (seed : Bytes) : String := hexEncode (keys.verifyingKey seed)

/-- `parse_seed`. -/
def parseSeed (value : String) : Result Bytes := do
  let bytes ← okOr (hexDecode (trimStart0x (trim value))) "검증자 키 파일은 32바이트 hex여야 합니다."
  ensure (bytes.length = 32) "검증자 키 파일은 정확히 32바이트여야 합니다."
  return bytes

/-- `public_key_from_file`. -/
def publicKeyFromFile (path : P) : DiskM P String := do
  let text ← Disk.mapError
    (fun error => s!"검증자 키 파일 읽기 실패({names.display path}): {error}") (readToString path)
  let seed ← Disk.lift (parseSeed text)
  return keys.address seed

/-- `write_new_file`. The permissions of the file are left out. -/
def writeNewFile (path : P) (contents : Bytes) : DiskM P Unit := do
  Disk.mapError
    (fun error => s!"디렉터리 생성 실패({names.display (names.parent path)}): {error}")
    (Disk.createDir (names.parent path))
  Disk.createNew
    (fun error => s!"파일 생성 실패({names.display path}): {error}. 기존 파일은 안전을 위해 덮어쓰지 않습니다.")
    (fun error => s!"파일 저장 실패({names.display path}): {error}") path contents

/-- `generate_key_file`, with the seed that is drawn. -/
def generateKeyFile (seed : Bytes) (path : P) : DiskM P String := do
  writeNewFile names path (textBytes (hexEncode seed ++ "\n"))
  return keys.address seed

/-- `load_or_create_node_key`: the peer id of the key pair, with the one that is generated. -/
def loadOrCreateNodeKey (generated : GeneratedKeypair) (path : P) : DiskM P String := do
  if ← Disk.probe path then
    let stored ← Disk.mapError (fun error => s!"node key 읽기 실패: {error}") (Disk.read path)
    let bytes ← Disk.lift (okOr stored "node key 읽기 실패: No such file or directory (os error 2)")
    Disk.lift ((keys.peerIdOfEncoding bytes).mapError fun error => s!"node key 형식 오류: {error}")
  else
    Disk.mapError (fun error => s!"node key 폴더 생성 실패: {error}")
      (Disk.createDir (names.parent path))
    let bytes ← Disk.lift (generated.encoding.mapError fun error => s!"node key 직렬화 실패: {error}")
    Disk.createNew (fun error => s!"node key 생성 실패: {error}")
      (fun error => s!"node key 저장 실패: {error}") path bytes
    return generated.peerId

end KeyTypes

/-! ## The validators of a configuration -/

section
variable [Primitives]

/-- `normalize_public_key`. -/
def normalizePublicKey (value : String) : Result String := do
  let normalized := toAsciiLowercase (trimStart0x (trim value))
  let bytes ← okOr (hexDecode normalized) "검증자 공개키는 32바이트 hex여야 합니다."
  ensure (bytes.length = 32) "검증자 공개키는 정확히 32바이트여야 합니다."
  ensure (Primitives.ed25519Key bytes = true) "유효하지 않은 Ed25519 공개키입니다."
  return normalized

/-- The loop of `create_validators_config` over the keys that are left. -/
def collectValidators : List String → List String → Result (List String)
  | [], collected => .ok collected
  | value :: rest, collected => do
    let id ← normalizePublicKey value
    ensure (id ∉ collected) s!"중복된 검증자 공개키입니다: {id}"
    collectValidators rest (collected ++ [id])

/-- `create_validators_config`. `json` is `to_string_pretty` of the ids with one voting power. -/
def createValidatorsConfig {P : Type} [DecidableEq P] (names : PathNames P)
    (json : List (String × UInt64) → Result String) (path : P) (publicKeys : List String)
    (votingPower : UInt64) : DiskM P Unit := do
  Disk.lift (ensure (publicKeys ≠ []) "검증자 공개키가 최소 1개 필요합니다.")
  Disk.lift (ensure (votingPower ≠ 0) "검증자 voting power는 0보다 커야 합니다.")
  let ids ← Disk.lift (collectValidators publicKeys [])
  let text ← Disk.lift ((json (ids.map fun id => (id, votingPower))).mapError fun error =>
    s!"검증자 설정 직렬화 실패: {error}")
  KeyTypes.writeNewFile names path (textBytes (text ++ "\n"))

end

end IeumChain
