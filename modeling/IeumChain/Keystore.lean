import IeumChain.Lib.CaughtErrors
import IeumChain.Lib.Paths
import IeumChain.Lib.Sealing
import IeumChain.NodeKeys
import IeumChain.RawTransaction

/-!
# Encrypted keys (`keystore.rs`, `node_wallet_keystore.rs`)

A private key is stored in a JSON document, sealed with a password. There are two keystores: one for
the accounts of the RPC server, a directory with a file for every account, and one for the wallet of
the node, a single file whose password is in a second one. They differ in the labels that are hashed,
in the kind of key and in how a file is replaced. The password of the node's wallet is changed by a
command of `main.rs`.

What is drawn at random is a parameter, and so are `serde_json` and the two kinds of keys.
-/

namespace IeumChain

open Lib

/-! ## Documents -/

/-- `KeystoreFile` and `Document`. -/
structure KeystoreDocument where
  version : UInt32
  address : String
  salt : String
  nonce : String
  ciphertext : String
  mac : String
  kdfRounds : UInt32

/-- What `serde_json` does with a document. -/
structure KeystoreCodec where
  toVecPretty : KeystoreDocument → Result Bytes
  fromSlice : Bytes → Option KeystoreDocument

/-- What was written is read back. -/
structure KeystoreCodec.Lawful (codec : KeystoreCodec) : Prop where
  fromSlice : ∀ doc bytes, codec.toVecPretty doc = .ok bytes → codec.fromSlice bytes = some doc

/-- 32 bytes: a private key, a salt or a nonce. -/
abbrev Bytes32 := { bytes : Bytes // bytes.length = 32 }

/-- Salt and nonce of a document. -/
structure KeystoreDraw where
  salt : Bytes32
  nonce : Bytes32

/-- `KDF_ROUNDS`. -/
def kdfRounds : UInt32 := 200000

/-- The labels and the texts of a keystore. -/
structure KeystoreKind where
  labels : Sealing.Labels
  shortPassword : String
  weak : String
  notHex : String
  notLong : String
  notCiphertext : String
  refused : String
  notKey : String

namespace KeystoreKind
variable [Primitives] (kind : KeystoreKind)

def validatePassword (password : String) : Result Unit :=
  ensure (10 ≤ textLen password) kind.shortPassword

def deriveKey (password : String) (salt : Bytes) (rounds : ℕ) : Bytes :=
  Sealing.deriveKey sha256 kind.labels.kdf (textBytes password) salt rounds

def crypt (input key nonce : Bytes) : Bytes :=
  Sealing.crypt sha256 kind.labels.stream key nonce input

def mac (key nonce ciphertext : Bytes) : Bytes :=
  Sealing.mac sha256 kind.labels.mac key nonce ciphertext

/-- `decode_32`. -/
def decode32 (value : String) : Result Bytes := do
  let bytes ← okOr (hexDecode value) kind.notHex
  ensure (bytes.length = 32) kind.notLong
  return bytes

/-- The document that `store` writes. -/
def sealed (address : String) (secret : Bytes) (password : String) (draw : KeystoreDraw) :
    KeystoreDocument :=
  let key := kind.deriveKey password draw.salt.val kdfRounds.toNat
  let ciphertext := kind.crypt secret key draw.nonce.val
  { version := 1
    address
    salt := hexEncode draw.salt.val
    nonce := hexEncode draw.nonce.val
    ciphertext := hexEncode ciphertext
    mac := hexEncode (kind.mac key draw.nonce.val ciphertext)
    kdfRounds }

/-- What `load` does with a document before it makes a wallet of the key. -/
def unsealed (doc : KeystoreDocument) (password : String) : Result Bytes32 := do
  ensure (doc.version = 1 ∧ ¬ doc.kdfRounds < kdfRounds) kind.weak
  let salt ← kind.decode32 doc.salt
  let nonce ← kind.decode32 doc.nonce
  let ciphertext ← okOr (hexDecode doc.ciphertext) kind.notCiphertext
  let expectedMac ← kind.decode32 doc.mac
  let key := kind.deriveKey password salt doc.kdfRounds.toNat
  ensure (kind.mac key nonce ciphertext = expectedMac) kind.refused
  let plaintext := kind.crypt ciphertext key nonce
  if h : plaintext.length = 32 then .ok ⟨plaintext, h⟩ else .error kind.notKey

end KeystoreKind

/-! ## Accounts (`keystore.rs`) -/

/-- What is used of the keys of `k256`: the uncompressed point of `SigningKey::from_bytes`, if the
key is valid. -/
structure AccountKeys where
  point : Bytes → Option Bytes

/-- The private key of an `AccountWallet`, with its public key. -/
structure AccountSecret (accounts : AccountKeys) where
  privateKey : Bytes32
  point : Bytes
  isPoint : accounts.point privateKey.val = some point

section
variable [Primitives]

namespace AccountSecret
variable {accounts : AccountKeys}

/-- `AccountWallet::from_private_key`. -/
def fromPrivateKey (accounts : AccountKeys) (privateKey : Bytes32) :
    Result (AccountSecret accounts) :=
  match h : accounts.point privateKey.val with
  | some point => .ok ⟨privateKey, point, h⟩
  | none => .error "유효하지 않은 secp256k1 개인키입니다."

/-- `AccountWallet::address`. -/
def address (wallet : AccountSecret accounts) : String := ethereumAddress wallet.point

end AccountSecret

/-! A file of the directory stands under its name. -/

namespace Keystore
variable (accounts : AccountKeys) (codec : KeystoreCodec)

def kind : KeystoreKind where
  labels := { kdf := textBytes "IEUM-KEYSTORE-KDF-V1"
              stream := textBytes "IEUM-KEYSTORE-STREAM-V1"
              mac := textBytes "IEUM-KEYSTORE-MAC-V1" }
  shortPassword := "keystore 비밀번호는 10자 이상이어야 합니다."
  weak := "지원하지 않거나 너무 약한 keystore 버전입니다."
  notHex := "keystore hex 필드가 잘못되었습니다."
  notLong := "keystore 필드는 32바이트여야 합니다."
  notCiphertext := "keystore 암호문이 올바르지 않습니다."
  refused := "keystore 비밀번호가 틀렸거나 파일이 변조되었습니다."
  notKey := "keystore 개인키 길이가 잘못되었습니다."

/-- `path_for`. -/
def pathFor (address : String) : String := toAsciiLowercase (trimStart0x address) ++ ".json"

/-- `atomic_write`. -/
def atomicWrite (path : String) (bytes : Bytes) : DiskM String Unit := do
  let temporary := Path.fileStem path ++ ".tmp"
  Disk.write temporary bytes
  Disk.rename temporary path

/-- `store`. -/
def store (wallet : AccountSecret accounts) (password : String) (draw : KeystoreDraw) :
    DiskM String String := do
  Disk.lift (kind.validatePassword password)
  let address := wallet.address
  let document := kind.sealed address wallet.privateKey.val password draw
  let bytes ← Disk.lift (codec.toVecPretty document)
  atomicWrite (pathFor address) bytes
  return address

/-- `load`. -/
def load (address password : String) : DiskM String (AccountSecret accounts) := do
  let found ← Disk.mapError (fun _ => "keystore 파일이 없습니다.") (Disk.read (pathFor address))
  Disk.lift do
    let bytes ← okOr found "keystore 파일이 없습니다."
    let document ← okOr (codec.fromSlice bytes) "keystore 파일이 손상되었습니다."
    let privateKey ← kind.unsealed document password
    let wallet ← AccountSecret.fromPrivateKey accounts privateKey
    ensure (wallet.address = document.address) "keystore 주소 검증에 실패했습니다."
    return wallet

/-- The address that a file of the directory stands for. -/
def addressOf (name : String) : Option String :=
  if Path.extension name = some "json" then some ("0x" ++ trimStart0x (Path.fileStem name))
  else none

/-- `addresses`. -/
def addresses (listing : Listing String) : DiskM String (List String) := do
  let names ← Disk.list listing fun _ => true
  return (names.filterMap addressOf).insertionSort (· ≤ ·)

end Keystore

/-! ## The wallet of the node (`node_wallet_keystore.rs`) -/

/-- The paths of the node's wallet and of its password, each with the one that is renamed to it. -/
structure NodeWalletPaths (P : Type) where
  names : PathNames P
  keystore : P
  keystoreTmp : P
  password : P
  passwordTmp : P
  distinct : [keystore, keystoreTmp, password, passwordTmp].Nodup

/-- What is drawn for a new wallet. -/
structure NodeWalletDraw where
  seed : Bytes32
  password : Bytes32
  document : KeystoreDraw

namespace NodeWalletKeystore
variable {P : Type} [DecidableEq P] (paths : NodeWalletPaths P) (keys : KeyTypes)
  (codec : KeystoreCodec)

def kind : KeystoreKind where
  labels := { kdf := textBytes "IEUM-NODE-WALLET-KDF-V1"
              stream := textBytes "IEUM-NODE-WALLET-STREAM-V1"
              mac := textBytes "IEUM-NODE-WALLET-MAC-V1" }
  shortPassword := "노드 지갑 비밀번호는 10자 이상이어야 합니다."
  weak := "지원하지 않거나 너무 약한 node_wallet.keystore입니다."
  notHex := "노드 지갑 hex 오류"
  notLong := "노드 지갑 필드 길이 오류"
  notCiphertext := "노드 지갑 암호문 오류"
  refused := "노드 지갑 비밀번호가 틀렸거나 파일이 변조되었습니다."
  notKey := "노드 지갑 개인키 길이 오류"

/-- `load`: the seed of the wallet. -/
def load (path : P) (password : String) : DiskM P Bytes32 := do
  let found ← Disk.mapError (fun error => s!"노드 지갑 읽기 실패: {error}") (Disk.read path)
  Disk.lift do
    let bytes ← okOr found "노드 지갑 읽기 실패: No such file or directory (os error 2)"
    let document ← okOr (codec.fromSlice bytes) "node_wallet.keystore가 손상되었습니다."
    let seed ← kind.unsealed document password
    ensure (keys.address seed.val = document.address) "노드 지갑 주소 검증 실패"
    return seed

/-- `atomic_verified_replace`. -/
def atomicVerifiedReplace (bytes : Bytes) (password address : String) : DiskM P Unit := do
  Disk.createDir (paths.names.parent paths.keystore)
  Disk.write paths.keystoreTmp []
  Disk.append paths.keystoreTmp bytes
  Disk.syncAll paths.keystoreTmp
  let seed ← load keys codec paths.keystoreTmp password
  if keys.address seed.val ≠ address then
    Disk.attempt (Disk.remove paths.keystoreTmp)
    throw "임시 node_wallet.keystore 검증 실패"
  else Disk.rename paths.keystoreTmp paths.keystore

/-- `store`. -/
def store (seed : Bytes32) (password : String) (draw : KeystoreDraw) : DiskM P Unit := do
  Disk.lift (kind.validatePassword password)
  let address := keys.address seed.val
  let bytes ← Disk.lift (codec.toVecPretty (kind.sealed address seed.val password draw))
  atomicVerifiedReplace paths keys codec bytes password address

/-- `change_password`. -/
def changePassword (old new : String) (draw : KeystoreDraw) : DiskM P Unit := do
  let seed ← load keys codec paths.keystore old
  store paths keys codec seed new draw
  let again ← load keys codec paths.keystore new
  Disk.lift (ensure (keys.address again.val = keys.address seed.val) "재암호화 후 주소 불일치")

/-- `read_password`. -/
def readPassword : DiskM P String :=
  Disk.mapError (fun error => s!"노드 지갑 비밀번호 파일 읽기 실패: {error}")
    (readToString paths.password)

/-- `write_private_new`. The permissions of the file are left out. -/
def writePrivateNew (path : P) (bytes : Bytes) : DiskM P Unit := do
  Disk.createDir (paths.names.parent path)
  Disk.mapError (fun error => s!"비밀번호 파일 생성 실패: {error}") (Disk.writeNew path [])
  Disk.append path bytes
  Disk.syncAll path

/-- The end of `load_or_create_default`: a new wallet, whose password is written first. -/
def createDefault (draw : NodeWalletDraw) : DiskM P Bytes32 := do
  let password := hexEncode draw.password.val
  writePrivateNew paths paths.password (textBytes password)
  Disk.recover (store paths keys codec draw.seed password draw.document) fun error => do
    Disk.attempt (Disk.remove paths.password)
    throw error
  return draw.seed

/-- `load_or_create_default`. -/
def loadOrCreateDefault (draw : NodeWalletDraw) : DiskM P Bytes32 := do
  if ← Disk.probe paths.keystore then
    let password ← readPassword paths
    load keys codec paths.keystore (trim password)
  else if ← Disk.probe paths.password then
    throw "node_wallet.keystore는 없지만 비밀번호 파일이 남아 있어 자동 생성을 중단합니다."
  else createDefault paths keys codec draw

/-! ### The command (`main.rs`) -/

/-- `atomic_private_write`, of the password. -/
def atomicPrivateWrite (bytes : Bytes) : DiskM P Unit := do
  Disk.write paths.passwordTmp []
  Disk.append paths.passwordTmp bytes
  Disk.syncAll paths.passwordTmp
  Disk.rename paths.passwordTmp paths.password

/-- `run_reward_command`, the branch `ChangePassword`. `draw` is for the new password and `undo` for
the old one, in case the password cannot be written. -/
def runChangePassword (newPasswordFile : P) (draw undo : KeystoreDraw) : DiskM P Unit := do
  let oldPassword ← Disk.mapError (fun error => s!"현재 노드 지갑 암호 읽기 실패: {error}")
    (readToString paths.password)
  let newPassword ← Disk.mapError (fun error => s!"새 노드 지갑 암호 읽기 실패: {error}")
    (readToString newPasswordFile)
  let oldPassword := trim oldPassword
  let newPassword := trim newPassword
  changePassword paths keys codec oldPassword newPassword draw
  Disk.recover (atomicPrivateWrite paths (textBytes newPassword)) fun error => do
    Disk.attempt (changePassword paths keys codec newPassword oldPassword undo)
    throw s!"암호 파일 교체 실패로 keystore를 기존 암호로 복원했습니다: {error}"

end NodeWalletKeystore

end

end IeumChain
