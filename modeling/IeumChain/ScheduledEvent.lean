import IeumChain.Registration
import IeumChain.Lib.Json
import Mathlib.Data.Finset.Insert
import Mathlib.Data.List.Sort

/-!
# Scheduled events (`scheduled_event.rs`)

System events pay from the foundation account at agreed times. An event is checked by `validate`,
enters a block's hash through its JSON text `consensusBytes`, and is due once its time has come
and its id was not executed before. Two of the six actions are the built-in rewards, which no
schedule configures.
-/

namespace IeumChain

open Lib

/-- `MAX_CLOCK_DRIFT_SECONDS`. -/
def maxClockDriftSeconds : ℕ := 30

/-- One payment of a treasury distribution. -/
structure EventPayment where
  address : String
  amount : U128
deriving DecidableEq

/-- What an event does. -/
inductive ScheduledEventAction where
  | treasuryDistribution (recipients : List EventPayment)
  | periodicProducerReward (producer : String) (amount : U128)
  | incidentCompensation (incidentId victim : String) (amount : U128)
  | protocolCheckpoint (protocolVersion : UInt32)
  | bootstrapValidatorReward (registrations : List ValidatorRegistration) (amount : U128)
  | nodeMilestoneReward (registrations : List NodeRewardRegistration) (amount : U128)
deriving DecidableEq

/-- An event with its id and earliest execution time. -/
structure ScheduledEvent where
  id : String
  executeAt : UInt64
  action : ScheduledEventAction
deriving DecidableEq

/-! ## JSON text -/

/-- The JSON text of an amount: a decimal string. -/
def amountJson (amount : U128) : Bytes := Json.quoted (toString amount.toNat)

/-- The JSON text of a payment. -/
def EventPayment.json (p : EventPayment) : Bytes :=
  textBytes "\x7b\"address\":" ++ Json.quoted p.address ++ textBytes ",\"amount\":" ++
    amountJson p.amount ++ textBytes "\x7d"

/-- The JSON text of a validator registration. -/
def ValidatorRegistration.json (r : ValidatorRegistration) : Bytes :=
  textBytes "\x7b\"validator_id\":" ++ Json.quoted r.validatorId ++
    textBytes ",\"peer_id\":" ++ Json.quoted r.peerId ++
    textBytes ",\"signature_hex\":" ++ Json.quoted r.signatureHex ++ textBytes "\x7d"

/-- The JSON text of a node registration. -/
def NodeRewardRegistration.json (r : NodeRewardRegistration) : Bytes :=
  textBytes "\x7b\"reward_address\":" ++ Json.quoted r.rewardAddress ++
    textBytes ",\"peer_id\":" ++ Json.quoted r.peerId ++
    textBytes ",\"signature_hex\":" ++ Json.quoted r.signatureHex ++
    textBytes ",\"registration_signer\":" ++ Json.quoted r.registrationSigner ++
    textBytes ",\"node_public_key_hex\":" ++ Json.quoted r.nodePublicKeyHex ++
    textBytes ",\"node_signature_hex\":" ++ Json.quoted r.nodeSignatureHex ++ textBytes "\x7d"

namespace ScheduledEventAction

/-- The tag of the action in its JSON text. -/
def typeName : ScheduledEventAction → String
  | treasuryDistribution _ => "treasury_distribution"
  | periodicProducerReward _ _ => "periodic_producer_reward"
  | incidentCompensation _ _ _ => "incident_compensation"
  | protocolCheckpoint _ => "protocol_checkpoint"
  | bootstrapValidatorReward _ _ => "bootstrap_validator_reward"
  | nodeMilestoneReward _ _ => "node_milestone_reward"

/-- The fields of the action after its tag. -/
def fieldsJson : ScheduledEventAction → Bytes
  | treasuryDistribution recipients =>
    textBytes ",\"recipients\":" ++ Json.array EventPayment.json recipients ++ textBytes "\x7d"
  | periodicProducerReward producer amount =>
    textBytes ",\"producer\":" ++ Json.quoted producer ++ textBytes ",\"amount\":" ++
      amountJson amount ++ textBytes "\x7d"
  | incidentCompensation incidentId victim amount =>
    textBytes ",\"incident_id\":" ++ Json.quoted incidentId ++ textBytes ",\"victim\":" ++
      Json.quoted victim ++ textBytes ",\"amount\":" ++ amountJson amount ++ textBytes "\x7d"
  | protocolCheckpoint protocolVersion =>
    textBytes ",\"protocol_version\":" ++ Json.decimal protocolVersion.toNat ++ textBytes "\x7d"
  | bootstrapValidatorReward registrations amount =>
    textBytes ",\"registrations\":" ++ Json.array ValidatorRegistration.json registrations ++
      textBytes ",\"amount\":" ++ amountJson amount ++ textBytes "\x7d"
  | nodeMilestoneReward registrations amount =>
    textBytes ",\"registrations\":" ++ Json.array NodeRewardRegistration.json registrations ++
      textBytes ",\"amount\":" ++ amountJson amount ++ textBytes "\x7d"

/-- The JSON text of an action: its tag, then its fields. -/
def json (a : ScheduledEventAction) : Bytes :=
  textBytes "\x7b\"type\":" ++ Json.quoted a.typeName ++ a.fieldsJson

/-- The two rewards no schedule configures. -/
def isBuiltin : ScheduledEventAction → Bool
  | bootstrapValidatorReward _ _ => true
  | nodeMilestoneReward _ _ => true
  | _ => false

end ScheduledEventAction

/-- `consensus_bytes`: the JSON text of an event. -/
def ScheduledEvent.consensusBytes (e : ScheduledEvent) : Bytes :=
  textBytes "\x7b\"id\":" ++ Json.quoted e.id ++ textBytes ",\"execute_at\":" ++
    Json.decimal e.executeAt.toNat ++ textBytes ",\"action\":" ++ e.action.json ++
    textBytes "\x7d"

/-! ## Validation -/

/-- `validate_address`: 40 hexadecimal digits, with or without `0x`. -/
def validateAddress (address : String) : Result Unit :=
  let value := (stripPrefix address "0x").getD address
  ensure (textLen value = 40 ∧ (textBytes value).all isAsciiHexDigit = true)
    s!"잘못된 IEUM 주소: {address}"

/-- `validate_reward_address`: 64 hexadecimal digits. -/
def validateRewardAddress (address : String) : Result Unit :=
  ensure (textLen address = 64 ∧ (textBytes address).all isAsciiHexDigit = true)
    s!"잘못된 노드 보상 주소: {address}"

/-- May the byte stand in an event id? -/
def isIdByte (b : UInt8) : Bool := isAsciiAlphanumeric b || b == 45 || b == 95 || b == 46

section Validate
variable [Primitives]

/-- One validator registration of a bootstrap reward: not seen before, and signed. The state
holds the peers and the addresses seen so far. -/
def checkValidatorRegistration (seen : Finset String × Finset String)
    (r : ValidatorRegistration) : Result (Finset String × Finset String) := do
  ensure (r.peerId ∉ seen.1 ∧ r.validatorId ∉ seen.2)
    "최초 검증자 보상 증명에 중복 노드나 주소가 있습니다."
  verifySignature r.validatorId (ValidatorRegistration.bytesToSign r.validatorId r.peerId)
    r.signatureHex
  return (insert r.peerId seen.1, insert r.validatorId seen.2)

/-- One node registration of a milestone reward. -/
def checkNodeRegistration (seen : Finset String × Finset String)
    (r : NodeRewardRegistration) : Result (Finset String × Finset String) := do
  validateRewardAddress r.rewardAddress
  r.verifyNodeIdentity
  ensure (r.peerId ∉ seen.1 ∧ r.rewardAddress ∉ seen.2)
    "노드 마일스톤 보상 증명에 중복 노드나 주소가 있습니다."
  verifySignature r.signer (NodeRewardRegistration.bytesToSign r.rewardAddress r.peerId)
    r.signatureHex
  return (insert r.peerId seen.1, insert r.rewardAddress seen.2)

/-- One payment of a treasury distribution. -/
def checkPayment (_ : Unit) (p : EventPayment) : Result Unit := do
  validateAddress p.address
  ensure (p.amount ≠ 0) "재단 배분액은 0보다 커야 합니다."

/-- The part of `validate` that depends on the action. -/
def ScheduledEventAction.validate : ScheduledEventAction → Result Unit
  | treasuryDistribution recipients => do
    ensure (recipients ≠ [] ∧ recipients.length ≤ 10000) "재단 배분 대상은 1~10,000개여야 합니다."
    recipients.foldlM checkPayment ()
  | periodicProducerReward producer amount => do
    validateAddress producer
    ensure (amount ≠ 0) "주간 생성자 보상액은 0보다 커야 합니다."
  | incidentCompensation incidentId victim amount => do
    ensure (isBlank incidentId = false) "사고 ID가 비어 있습니다."
    validateAddress victim
    ensure (amount ≠ 0) "사고 보상액은 0보다 커야 합니다."
  | protocolCheckpoint protocolVersion =>
    ensure (protocolVersion ≠ 0) "프로토콜 버전은 1 이상이어야 합니다."
  | bootstrapValidatorReward registrations amount => do
    ensure (registrations.length = 4 ∧ amount ≠ 0)
      "최초 검증자 보상은 정확히 4명이고 금액은 0보다 커야 합니다."
    let _ ← registrations.foldlM checkValidatorRegistration (∅, ∅)
    return ()
  | nodeMilestoneReward registrations amount => do
    ensure (registrations.length = 100 ∧ amount ≠ 0)
      "노드 마일스톤 보상은 서로 다른 노드 정확히 100개가 필요합니다."
    let _ ← registrations.foldlM checkNodeRegistration (∅, ∅)
    return ()

/-- `ScheduledEvent::validate`. -/
def ScheduledEvent.validate (e : ScheduledEvent) : Result Unit := do
  ensure (e.id ≠ "" ∧ textLen e.id ≤ 128 ∧ (textBytes e.id).all isIdByte = true)
    "이벤트 ID는 1~128자의 영문, 숫자, -, _, .만 허용합니다."
  ensure (e.executeAt ≠ 0) s!"이벤트 {e.id}의 execute_at은 0일 수 없습니다."
  e.action.validate

end Validate

/-! ## The schedule -/

/-- The events a node's operator configured. -/
structure EventSchedule where
  events : List ScheduledEvent
deriving DecidableEq

namespace EventSchedule

/-- One configured event: valid, with an id not used before. -/
def checkEvent [Primitives] (ids : Finset String) (e : ScheduledEvent) :
    Result (Finset String) := do
  e.validate
  ensure (e.id ∉ ids) s!"중복 이벤트 ID: {e.id}"
  return insert e.id ids

/-- `EventSchedule::validate`. -/
def validate [Primitives] (s : EventSchedule) : Result Unit := do
  let _ ← s.events.foldlM checkEvent ∅
  return ()

/-- The order of due events: by time, then by id. -/
def eventLe (a b : ScheduledEvent) : Prop :=
  a.executeAt < b.executeAt ∨ (a.executeAt = b.executeAt ∧ a.id ≤ b.id)

instance : DecidableRel eventLe := fun _ _ => inferInstanceAs (Decidable (_ ∨ _))

/-- `due`: the events whose time has come and that were not executed, in order. -/
def due (s : EventSchedule) (timestamp : UInt64) (executed : Finset String) :
    List ScheduledEvent :=
  (s.events.filter fun e => e.executeAt ≤ timestamp ∧ e.id ∉ executed).insertionSort eventLe

/-- `validate_block_events`: the block's configured events are exactly those due. -/
def validateBlockEvents (s : EventSchedule) (timestamp : UInt64) (events : List ScheduledEvent)
    (executed : Finset String) : Result Unit :=
  ensure (events = s.due timestamp executed)
    "블록의 시스템 이벤트가 로컬 승인 일정과 일치하지 않습니다."

/-- `EventSchedule::default`: no events. -/
def empty : EventSchedule := ⟨[]⟩

lemma validate_empty [Primitives] : empty.validate = .ok () := rfl

end EventSchedule

end IeumChain
