import IeumChain.Primitives
import IeumChain.Lib.Result

/-!
# Ed25519 signatures (`wallet.rs`)

Addresses of validators and native accounts are the hexadecimal public key itself, so a signature
is checked against the address.
-/

namespace IeumChain

open Lib

variable [Primitives]

/-- `verify_signature`: does the key named by the address sign the message? -/
def verifySignature (address : String) (message : Bytes) (signature : String) : Result Unit := do
  let publicKey ← okOr (hexDecode address) "보내는 주소가 hex 문자열이 아닙니다."
  ensure (publicKey.length = 32) "보내는 주소 길이가 잘못되었습니다."
  let signatureBytes ← okOr (hexDecode signature) "서명이 hex 문자열이 아닙니다."
  ensure (signatureBytes.length = 64) "서명 길이가 잘못되었습니다."
  ensure (Primitives.ed25519Key publicKey = true) "공개키가 잘못되었습니다."
  ensure (Primitives.ed25519Verify publicKey message signatureBytes = true)
    "전자서명이 일치하지 않습니다."

/-- Key and signature in hexadecimal are checked as they are. -/
lemma verifySignature_hexEncode {key message signature : Bytes} :
    verifySignature (hexEncode key) message (hexEncode signature) = .ok () ↔
      key.length = 32 ∧ signature.length = 64 ∧ Primitives.ed25519Key key = true ∧
        Primitives.ed25519Verify key message signature = true := by
  simp only [verifySignature, hexDecode_hexEncode, bind_eq_ok, okOr_eq_ok, Option.some.injEq,
    ensure_eq_ok]
  constructor
  · rintro ⟨_, rfl, _, hkey, _, rfl, _, hsignature, _, haccepted, hverify⟩
    exact ⟨hkey, hsignature, haccepted, hverify⟩
  · rintro ⟨hkey, hsignature, haccepted, hverify⟩
    exact ⟨key, rfl, (), hkey, signature, rfl, (), hsignature, (), haccepted, hverify⟩

end IeumChain
