import IeumChain.Proposer
import IeumChain.RuntimeMoves
import IeumChain.Lib.SortedEntries

/-!
# Registrations and the first validators (`main.rs`)

Nodes send each other signed registrations, of their validator keys and of their reward wallets. The
main loop keeps those that verify. As long as the chain is at the genesis block, the four registered
validators with the smallest ids take over; the registrations are the proofs that the two built-in
rewards carry.

Whatever else the loop does with its runtime is any operation of `RuntimeMoves`. An error that the
loop propagates ends the node, so a step returns a `Result`. A peer id is checked by a parameter.
-/

namespace IeumChain

open Lib

variable [Primitives]

/-- `verify_validator_registration`. -/
def verifyValidatorRegistration (isPeerId : String → Bool) (r : ValidatorRegistration) :
    Result Unit := do
  ensure (isPeerId r.peerId = true) "등록 PeerId 형식이 올바르지 않습니다."
  (verifySignature r.validatorId (ValidatorRegistration.bytesToSign r.validatorId r.peerId)
    r.signatureHex).mapError fun error => s!"검증자 소유권 서명 오류: {error}"

/-- The checks of the branch `NodeRewardRegistrationReceived`, with the peer the message is from. -/
def checkRewardRegistration (source : String) (r : NodeRewardRegistration) : Result Unit := do
  ensure (source = r.peerId) "[노드 보상 등록 거부] 전파 PeerId와 등록 PeerId가 다릅니다."
  (do
    verifySignature r.signer (NodeRewardRegistration.bytesToSign r.rewardAddress r.peerId)
      r.signatureHex
    r.verifyNodeIdentity).mapError fun error => s!"[노드 보상 등록 거부] {error}"

/-- What the loop keeps for the first validators. The two tables are ordered by their keys. -/
structure Bootstrap where
  runtime : ConsensusRuntime
  registrations : HashMap String ValidatorRegistration
  nodeRewardRegistrations : HashMap String NodeRewardRegistration
  validators : List Validator
  localIsValidator : Bool
  isClient : Bool

namespace Bootstrap

/-- The four registered validators with the smallest ids. -/
def selected (registrations : HashMap String ValidatorRegistration) : List Validator :=
  ((sortedList registrations.keys).take 4).map fun id => ⟨id, 100⟩

/-- The end of the branch `ValidatorRegistrationReceived`: the selected validators take over, unless
they are the current ones. `saved` is the answer of `save_validators`. -/
def takeOver (s : Bootstrap) (env : Reading) (saved : Result Unit) : Result Bootstrap :=
  if 4 ≤ s.registrations.keys.card ∧ s.runtime.chain.tipHeight = 0 then
    let selected := selected s.registrations
    let currentIds := (s.validators.map Validator.id).insertionSort (· ≤ ·)
    if currentIds ≠ selected.map Validator.id then do
      let runtime ← s.runtime.replaceBootstrapValidators env selected
      saved
      return { s with runtime, validators := selected
                      localIsValidator := selected.any fun v => v.id == s.runtime.validator }
    else .ok s
  else .ok s

/-- The branch `ValidatorRegistrationReceived`. A registration that is refused is logged. -/
def onValidatorRegistration (isPeerId : String → Bool) (s : Bootstrap) (env : Reading)
    (saved : Result Unit) (r : ValidatorRegistration) : Result Bootstrap :=
  if s.isClient then .ok s
  else if isOk (verifyValidatorRegistration isPeerId r) then
    takeOver { s with registrations := s.registrations.insert r.validatorId r } env saved
  else .ok s

/-- The branch `NodeRewardRegistrationReceived`. -/
def onNodeRewardRegistration (s : Bootstrap) (source : String) (r : NodeRewardRegistration) :
    Bootstrap :=
  if isOk (checkRewardRegistration source r) then
    { s with nodeRewardRegistrations := s.nodeRewardRegistrations.insert r.peerId r }
  else s

/-- The registrations that the consensus tick reads. -/
def validatorProofs (s : Bootstrap) : List ValidatorRegistration :=
  s.validators.filterMap fun v => s.registrations.lookup v.id

/-- The registered nodes in the order of their peer ids. -/
def rewardProofs (s : Bootstrap) : List NodeRewardRegistration :=
  (sortedEntries s.nodeRewardRegistrations).map Prod.snd

/-! ## Runs -/

/-- A turn of the loop: a registration comes in, or the runtime is used. -/
inductive Event where
  | operation (env : ℕ → Reading) (op : ConsensusRuntime.Op)
  | validatorRegistration (env : Reading) (saved : Result Unit) (r : ValidatorRegistration)
  | nodeRewardRegistration (source : String) (r : NodeRewardRegistration)

/-- The state after a turn. -/
def step (isPeerId : String → Bool) (s : Bootstrap) : Event → Result Bootstrap
  | .operation env op => .ok { s with runtime := (s.runtime.step env op).2 }
  | .validatorRegistration env saved r => s.onValidatorRegistration isPeerId env saved r
  | .nodeRewardRegistration source r => .ok (s.onNodeRewardRegistration source r)

/-- The state after a sequence of turns, if none of them ended the node. -/
def run (isPeerId : String → Bool) (s : Bootstrap) (events : List Event) : Result Bootstrap :=
  events.foldlM (step isPeerId) s

/-- The state before the first turn: the node has its own registrations. -/
def start (runtime : ConsensusRuntime) (validators : List Validator) (isClient : Bool)
    (own : Option ValidatorRegistration) (ownReward : NodeRewardRegistration) : Bootstrap where
  runtime
  registrations := match own with
    | some r => (∅ : HashMap String ValidatorRegistration).insert r.validatorId r
    | none => ∅
  nodeRewardRegistrations :=
    (∅ : HashMap String NodeRewardRegistration).insert ownReward.peerId ownReward
  validators
  localIsValidator := !isClient && validators.any fun v => v.id == runtime.validator
  isClient

end Bootstrap

end IeumChain
