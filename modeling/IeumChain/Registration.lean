import IeumChain.Wallet
import IeumChain.Lib.Text

/-!
# Signed registrations (`network.rs`)

What a validator and a node sign to be named in a reward event. The reward event carries the
registrations, so they are part of the block.
-/

namespace IeumChain

open Lib

/-- A validator's proof that its key belongs to a peer. -/
structure ValidatorRegistration where
  validatorId : String
  peerId : String
  signatureHex : String
deriving DecidableEq

/-- A node's proof that its reward wallet belongs to a peer. -/
structure NodeRewardRegistration where
  rewardAddress : String
  peerId : String
  signatureHex : String
  registrationSigner : String
  nodePublicKeyHex : String
  nodeSignatureHex : String
deriving DecidableEq

/-- `ValidatorRegistration::bytes_to_sign`. -/
def ValidatorRegistration.bytesToSign (validatorId peerId : String) : Bytes :=
  textBytes s!"ieum-validator-registration-v1:{validatorId}:{peerId}"

namespace NodeRewardRegistration

/-- `registration_signer`: the wallet itself signs unless another signer is named. -/
def signer (r : NodeRewardRegistration) : String :=
  if r.registrationSigner = "" then r.rewardAddress else r.registrationSigner

/-- `NodeRewardRegistration::bytes_to_sign`. -/
def bytesToSign (rewardAddress peerId : String) : Bytes :=
  textBytes s!"ieum-node-reward-registration-v1:{rewardAddress}:{peerId}"

/-- `verify_node_identity`: the peer id is that of the node key, which signed the registration. -/
def verifyNodeIdentity [Primitives] (r : NodeRewardRegistration) : Result Unit := do
  let publicKeyBytes ← okOr (hexDecode r.nodePublicKeyHex) "노드 공개키 hex 오류"
  let publicKey ← okOr (Primitives.peerKey publicKeyBytes) "노드 공개키 형식 오류"
  ensure (Primitives.peerIdOf publicKey = r.peerId)
    "노드 공개키에서 계산한 PeerId가 등록 PeerId와 다릅니다."
  let signature ← okOr (hexDecode r.nodeSignatureHex) "노드 서명 hex 오류"
  ensure (Primitives.peerVerify publicKey (bytesToSign r.rewardAddress r.peerId) signature = true)
    "PeerId 개인키 소유권 서명이 올바르지 않습니다."

end NodeRewardRegistration

end IeumChain
