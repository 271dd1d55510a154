import IeumChain.NodeKeys

/-!
# The files of a server (`installation.rs`)

Before a server starts it has its two keys, its configuration files and a marker that names the
keys. What is missing at the first start is made; after that a missing or another key stops the
server, so that it never becomes another node.
-/

namespace IeumChain

open Lib

/-- The files of a server. Of the ledger directory it is asked whether something is in it. -/
structure ServerPaths (P : Type) where
  names : PathNames P
  validatorKey : P
  nodeKey : P
  validatorsConfig : P
  eventsConfig : P
  upgradesConfig : P
  ledgerDir : P
  /-- `marker_path` of the ledger directory. -/
  marker : P
  inLedger : P → Bool

/-- What a start draws and asks for apart from files: keys in case they are needed, whether the
ledger directory is there, and the two lists of validators. -/
structure StartEnv where
  seed : Bytes
  keypair : GeneratedKeypair
  ledgerDirExists : Bool
  /-- `to_string_pretty` of a validator configuration. -/
  validatorsJson : List (String × UInt64) → Result String
  /-- The ids of the validators of the bundled genesis configuration, if it is valid. -/
  genesisValidators : Result (List String)
  /-- The addresses of the four validators of a development network. -/
  testnetValidators : List String

namespace ServerPaths
variable [Primitives] {P : Type} [DecidableEq P] (paths : ServerPaths P) (keys : KeyTypes)

/-- `require_existing`. -/
def requireExisting (name : String) (path : P) : DiskM P Unit := do
  let shown := paths.names.display path
  if ← Disk.probe path then return ()
  else throw (s!"기존 IEUM 설치에서 {name} 파일이 없어 실행을 중단합니다: {shown}. " ++
    "새 키를 자동 생성하면 다른 노드가 되므로 백업 파일을 복구해 주세요.")

/-- `create_if_missing`. -/
def createIfMissing (path : P) (contents description : String) : DiskM P Unit := do
  if ← Disk.probe path then return ()
  else
    Disk.mapError (fun error => s!"{description} 폴더 생성 실패: {error}")
      (Disk.createDir (paths.names.parent path))
    Disk.createNew (fun error => s!"{description} 생성 실패({paths.names.display path}): {error}")
      (fun error => s!"{description} 저장 실패({paths.names.display path}): {error}") path
      (textBytes contents)

/-- What `write_marker` writes. -/
def markerText (validatorPublicKey peerId : String) : String :=
  "version=1\n" ++ ("validator_public_key=" ++ validatorPublicKey ++ "\n" ++
    ("peer_id=" ++ peerId ++ "\n"))

/-- `write_marker`. -/
def writeMarker (validatorPublicKey peerId : String) : DiskM P Unit :=
  Disk.createNew
    (fun error => s!"초기화 표시 파일 생성 실패({paths.names.display paths.marker}): {error}")
    (fun error => s!"초기화 표시 파일 저장 실패({paths.names.display paths.marker}): {error}")
    paths.marker (textBytes (markerText validatorPublicKey peerId))

/-- `marker_value`. -/
def markerValue (contents name : String) : Option String :=
  (lines contents).findSome? fun line => stripPrefix line (name ++ "=")

/-- `verify_marker_identity`. -/
def verifyMarkerIdentity (env : StartEnv) (validatorPublicKey : String) : DiskM P Unit := do
  let contents ← Disk.mapError
    (fun error => s!"초기화 표시 파일 읽기 실패({paths.names.display paths.marker}): {error}")
    (readToString paths.marker)
  let expectedValidator ← Disk.lift (okOr (markerValue contents "validator_public_key")
    "초기화 표시 파일에 validator_public_key가 없습니다.")
  let expectedPeer ← Disk.lift (okOr (markerValue contents "peer_id")
    "초기화 표시 파일에 peer_id가 없습니다.")
  let actualPeer ← keys.loadOrCreateNodeKey paths.names env.keypair paths.nodeKey
  Disk.lift (ensure (expectedValidator = validatorPublicKey)
    "validator.key가 최초 초기화 때의 키와 다릅니다. 자동 생성하지 않고 실행을 중단합니다.")
  Disk.lift (ensure (expectedPeer = actualPeer)
    ("server.node.key의 PeerId가 최초 초기화 기록과 다릅니다. " ++
      s!"자동으로 교체하지 않고 실행을 중단합니다(기록: {expectedPeer}, 현재: {actualPeer})."))

/-- `prepare_validators_config`. -/
def prepareValidatorsConfig (env : StartEnv) (allowInsecureTestKeys : Bool) : DiskM P Unit := do
  if ← Disk.probe paths.validatorsConfig then return ()
  else if allowInsecureTestKeys then
    createValidatorsConfig paths.names env.validatorsJson paths.validatorsConfig
      env.testnetValidators 100
  else
    let publicKeys ← Disk.lift env.genesisValidators
    createValidatorsConfig paths.names env.validatorsJson paths.validatorsConfig publicKeys 100

/-- Is something in the ledger directory? A directory that cannot be listed counts as empty. -/
def ledgerHasData : DiskM P Bool := do
  match ← Disk.operate [paths.ledgerDir] with
  | some _ => return false
  | none => return decide (∃ p ∈ (← Disk.current).keys, paths.inLedger p = true)

/-- A ledger directory that is missing is made again. -/
def restoreLedgerDir (env : StartEnv) : DiskM P Unit :=
  if env.ledgerDirExists then return ()
  else
    Disk.mapError
      (fun error => s!"원장 자동 복구 실패({paths.names.display paths.ledgerDir}): {error}")
      (Disk.createDir paths.ledgerDir)

/-- `prepare_server_files`, where there is a marker. -/
def prepareKnown (env : StartEnv) (allowInsecureTestKeys : Bool) : DiskM P Unit := do
  paths.requireExisting "validator.key" paths.validatorKey
  paths.requireExisting "server.node.key" paths.nodeKey
  paths.restoreLedgerDir env
  let validatorPublicKey ← keys.publicKeyFromFile paths.names paths.validatorKey
  paths.verifyMarkerIdentity keys env validatorPublicKey
  paths.prepareValidatorsConfig env allowInsecureTestKeys

/-- The validator key of a first start: the one that is there, or a new one. -/
def firstValidatorKey (env : StartEnv) : DiskM P String := do
  if ← Disk.probe paths.validatorKey then keys.publicKeyFromFile paths.names paths.validatorKey
  else keys.generateKeyFile paths.names env.seed paths.validatorKey

/-- Are both keys there? -/
def bothKeys : DiskM P Bool := do
  if ← Disk.probe paths.validatorKey then Disk.probe paths.nodeKey else return false

/-- A ledger without its keys is that of another node. -/
def requireKeysOfLedger : DiskM P Unit := do
  let shown := paths.names.display paths.ledgerDir
  if ← paths.ledgerHasData then
    if ← paths.bothKeys then return ()
    else throw (s!"기존 원장({shown})은 있지만 서버 키가 없습니다. 기존 노드일 수 있어 " ++
      "새 키를 자동 생성하지 않습니다. 백업을 복구해 주세요.")
  else return ()

/-- `prepare_server_files`, where there is no marker. The node key is looked for once for the
message and once to load it. -/
def prepareFirst (env : StartEnv) (allowInsecureTestKeys : Bool) : DiskM P Unit := do
  paths.requireKeysOfLedger
  Disk.mapError (fun error => s!"원장 폴더 생성 실패({paths.names.display paths.ledgerDir}): {error}")
    (Disk.createDir paths.ledgerDir)
  let validatorPublicKey ← paths.firstValidatorKey keys env
  let _ ← Disk.probe paths.nodeKey
  let peerId ← keys.loadOrCreateNodeKey paths.names env.keypair paths.nodeKey
  paths.createIfMissing paths.eventsConfig "\x7b\n  \"events\": []\n\x7d\n" "예약 이벤트 설정"
  paths.createIfMissing paths.upgradesConfig "\x7b\n  \"upgrades\": []\n\x7d\n" "업그레이드 설정"
  paths.writeMarker validatorPublicKey peerId
  paths.prepareValidatorsConfig env allowInsecureTestKeys

/-- `prepare_server_files`. -/
def prepareServerFiles (env : StartEnv) (allowInsecureTestKeys : Bool) : DiskM P Unit := do
  if ← Disk.probe paths.marker then paths.prepareKnown keys env allowInsecureTestKeys
  else paths.prepareFirst keys env allowInsecureTestKeys

/-- `verify_server_node`: the validator's public key and the peer id. -/
def verifyServerNode (env : StartEnv) : DiskM P (String × String) := do
  paths.requireExisting ".ieum-initialized" paths.marker
  paths.requireExisting "validator.key" paths.validatorKey
  paths.requireExisting "server.node.key" paths.nodeKey
  Disk.lift (ensure (env.ledgerDirExists = true)
    s!"기존 원장 경로가 없습니다: {paths.names.display paths.ledgerDir}")
  let validatorPublicKey ← keys.publicKeyFromFile paths.names paths.validatorKey
  paths.verifyMarkerIdentity keys env validatorPublicKey
  let peerId ← keys.loadOrCreateNodeKey paths.names env.keypair paths.nodeKey
  return (validatorPublicKey, peerId)

end ServerPaths

end IeumChain
