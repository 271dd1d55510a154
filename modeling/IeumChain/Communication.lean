import IeumChain.Lib.Bytes
import IeumChain.Lib.Result

/-!
# Communication messages (`communication.rs`)

Messages with which the wallets of two users set up a call. A node does not read them: it checks
their form and their life time, and refuses a message whose id it has seen. The ids it remembers
are bounded in number.
-/

namespace IeumChain

open Lib

/-- `MAX_ENCRYPTED_SIGNAL_BYTES`. -/
def maxEncryptedSignalBytes : ℕ := 64 * 1024

/-- `MAX_SIGNAL_TTL_SECONDS`. -/
def maxSignalTtlSeconds : ℕ := 120

/-- `MAX_PENDING_SIGNALS`. -/
def maxPendingSignals : ℕ := 256

/-- `MAX_SEEN_SIGNAL_IDS`. -/
def maxSeenSignalIds : ℕ := 1024

inductive CommunicationKind where
  | callInvite
  | callAccept
  | callReject
  | webRtcOffer
  | webRtcAnswer
  | iceCandidate
  | hangup
  | encryptedChat
deriving DecidableEq

structure CommunicationEnvelope where
  id : String
  senderPeerId : String
  targetPeerId : String
  kind : CommunicationKind
  createdAt : UInt64
  expiresAt : UInt64
  encryptedPayloadHex : String
deriving DecidableEq

/-- `is_safe_id`: letters and digits of ASCII, hyphens and underscores. -/
def isSafeId (value : String) : Bool :=
  (textBytes value).all fun byte =>
    (48 ≤ byte && byte ≤ 57) || (65 ≤ byte && byte ≤ 90) || (97 ≤ byte && byte ≤ 122) ||
      byte == 45 || byte == 95

/-- `CommunicationEnvelope::validate`. The time of creation is not compared with the clock. -/
def CommunicationEnvelope.validate (e : CommunicationEnvelope) (now : UInt64) : Result Unit := do
  ensure (¬ (textLen e.id < 16 ∨ 128 < textLen e.id ∨ isSafeId e.id = false))
    "통신 메시지 id 형식이 올바르지 않습니다."
  ensure (¬ (textLen e.targetPeerId = 0 ∨ 128 < textLen e.targetPeerId))
    "대상 PeerId가 올바르지 않습니다."
  ensure (¬ (e.expiresAt ≤ e.createdAt ∨
      maxSignalTtlSeconds < e.expiresAt.toNat - e.createdAt.toNat ∨ e.expiresAt < now))
    "통신 메시지가 만료되었거나 허용 수명을 초과했습니다."
  ensure (¬ (textLen e.encryptedPayloadHex % 2 ≠ 0 ∨
      maxEncryptedSignalBytes < textLen e.encryptedPayloadHex / 2 ∨
      hexDecode e.encryptedPayloadHex = none))
    "암호화 payload 형식 또는 크기가 올바르지 않습니다."

structure CommunicationInbox where
  items : List CommunicationEnvelope
  seen : Finset String
  seenOrder : List String

namespace CommunicationInbox

/-- `CommunicationInbox::default`. -/
def empty : CommunicationInbox := ⟨[], ∅, []⟩

/-- The loop of `push` that forgets the oldest ids. -/
def forgetOldest : List String → Finset String → List String × Finset String
  | [], seen => ([], seen)
  | oldId :: rest, seen =>
    if maxSeenSignalIds < (oldId :: rest).length then forgetOldest rest (seen.erase oldId)
    else (oldId :: rest, seen)

/-- The loop of `push` that makes room for an item. -/
def dropOldest : List CommunicationEnvelope → List CommunicationEnvelope
  | [] => []
  | old :: rest => if maxPendingSignals ≤ (old :: rest).length then dropOldest rest else old :: rest

/-- `push`. -/
def push (inbox : CommunicationInbox) (envelope : CommunicationEnvelope) (now : UInt64) :
    Result Unit × CommunicationInbox :=
  match envelope.validate now with
  | .error e => (.error e, inbox)
  | .ok () =>
    if envelope.id ∈ inbox.seen then (.error "이미 처리한 통신 메시지입니다.", inbox)
    else
      let (seenOrder, seen) :=
        forgetOldest (inbox.seenOrder ++ [envelope.id]) (insert envelope.id inbox.seen)
      (.ok (), { items := dropOldest inbox.items ++ [envelope], seen, seenOrder })

/-- `drain`. -/
def drain (inbox : CommunicationInbox) : List CommunicationEnvelope × CommunicationInbox :=
  (inbox.items, { inbox with items := [] })

/-! ## Runs -/

/-- A call on the inbox. -/
inductive Call where
  | push (envelope : CommunicationEnvelope) (now : UInt64)
  | drain

/-- The inbox after a call, and the envelopes accepted so far with the times they were accepted
at. -/
def call (s : CommunicationInbox × List (CommunicationEnvelope × UInt64)) :
    Call → CommunicationInbox × List (CommunicationEnvelope × UInt64)
  | .push envelope now =>
    match s.1.push envelope now with
    | (.ok (), inbox) => (inbox, s.2 ++ [(envelope, now)])
    | (.error _, inbox) => (inbox, s.2)
  | .drain => (s.1.drain.2, s.2)

/-- An inbox after a sequence of calls, with what it accepted. -/
def run (calls : List Call) : CommunicationInbox × List (CommunicationEnvelope × UInt64) :=
  calls.foldl call (empty, [])

end CommunicationInbox

end IeumChain
