import IeumChain.Lib.Bytes

/-!
# Third-party primitives

The cryptographic functions the node calls in other crates. They are parameters of the whole
development: every theorem holds whatever they compute, and what a theorem needs of one of them
is a hypothesis of that theorem.
-/

namespace IeumChain

open Lib

/-- A 32-byte digest. -/
abbrev Digest := { bytes : Bytes // bytes.length = 32 }

/-- The functions of `sha2`, `sha3`, `ed25519_dalek`, `k256` and `libp2p::identity` in use. -/
class Primitives where
  /-- `Sha256::digest`. -/
  sha256 : Bytes → Digest
  /-- `Keccak256::digest`. -/
  keccak256 : Bytes → Digest
  /-- `ed25519_dalek::VerifyingKey::from_bytes` accepts the 32 bytes. -/
  ed25519Key : Bytes → Bool
  /-- `ed25519_dalek::VerifyingKey::verify` of key, message and 64-byte signature. -/
  ed25519Verify : Bytes → Bytes → Bytes → Bool
  /-- `k256::ecdsa::VerifyingKey::from_sec1_bytes`: the uncompressed point. -/
  secp256k1Key : Bytes → Option Bytes
  /-- `k256::ecdsa::Signature::from_slice` or `from_scalars` accepts the 64 bytes `r ‖ s`. -/
  ecdsaSignature : Bytes → Bool
  /-- `k256::ecdsa::VerifyingKey::verify` of point, message and signature. -/
  ecdsaVerify : Bytes → Bytes → Bytes → Bool
  /-- `k256::ecdsa::VerifyingKey::recover_from_prehash` of digest, signature and recovery id:
  the uncompressed point. -/
  ecdsaRecover : Bytes → Bytes → ℕ → Option Bytes
  /-- `libp2p::identity::PublicKey::try_decode_protobuf`. -/
  peerKey : Bytes → Option Bytes
  /-- The text of `libp2p::PeerId::from` a public key. -/
  peerIdOf : Bytes → String
  /-- `libp2p::identity::PublicKey::verify` of key, message and signature. -/
  peerVerify : Bytes → Bytes → Bytes → Bool

export Primitives (sha256 keccak256)

/-- `hex::encode` of a SHA-256 digest: the form block hashes and transaction ids have. -/
def sha256Hex [Primitives] (bytes : Bytes) : String := hexEncode (sha256 bytes).val

lemma textLen_sha256Hex [Primitives] (bytes : Bytes) : textLen (sha256Hex bytes) = 64 := by
  rw [sha256Hex, textLen_hexEncode, (sha256 bytes).property]

/-- No two byte strings in `inputs` have the same SHA-256 digest. -/
def CollisionFree [Primitives] (inputs : Bytes → Prop) : Prop :=
  ∀ x y, inputs x → inputs y → sha256 x = sha256 y → x = y

lemma CollisionFree.eq_of_hex [Primitives] {inputs : Bytes → Prop} (h : CollisionFree inputs)
    {x y : Bytes} (hx : inputs x) (hy : inputs y) (heq : sha256Hex x = sha256Hex y) : x = y :=
  h x y hx hy (Subtype.ext (hexEncode_inj heq))

end IeumChain
