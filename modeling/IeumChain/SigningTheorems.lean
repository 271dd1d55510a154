import IeumChain.BlockHashTheorems

/-!
# What a signature is given for

A key signs five kinds of byte strings: votes, proposals, the two registrations and native
transfers. Votes and proposals start with their own tag, the registrations are one text with
theirs in front, and a transfer starts with the eight-byte length of its sender. The first six
bytes already tell the five apart (`Signed.take_bytes`), and behind them the fields of a vote and
of a transfer are framed (`signed_bytes_unambiguous`).
-/

namespace IeumChain

open Lib

/-! ## Votes -/

lemma VoteType.code_inj {t t' : VoteType} (h : t.code = t'.code) : t = t' := by
  cases t <;> cases t' <;> first | rfl | exact absurd h (by decide)

/-- The signing bytes of a vote determine its fields. -/
lemma ConsensusMessage.unsignedBytes_inj {height height' : UInt64} {round round' : UInt32}
    {validatorId validatorId' : String} {voteType voteType' : VoteType}
    {blockHash blockHash' : String} (hid : Fits validatorId) (hid' : Fits validatorId')
    (hhash : Fits blockHash) (hhash' : Fits blockHash')
    (h : unsignedBytes height round validatorId voteType blockHash
      = unsignedBytes height' round' validatorId' voteType' blockHash') :
    height = height' ∧ round = round' ∧ validatorId = validatorId' ∧ voteType = voteType' ∧
      blockHash = blockHash' := by
  simp only [unsignedBytes, List.append_assoc, List.append_cancel_left_eq] at h
  obtain ⟨hheight, h⟩ := append_inj_of_length (by simp) h
  obtain ⟨hround, h⟩ := append_inj_of_length (by simp) h
  obtain ⟨htype, h⟩ := append_inj_of_length (by simp) h
  obtain ⟨hvalidator, h⟩ := pushText_append_inj hid hid' h
  -- the block hash stands at the end, before nothing
  rw [← List.append_nil (pushText blockHash), ← List.append_nil (pushText blockHash')] at h
  obtain ⟨hblock, _⟩ := pushText_append_inj hhash hhash' h
  exact ⟨beBytes_uint64_inj hheight, beBytes_uint32_inj hround, hvalidator,
    VoteType.code_inj (List.singleton_injective htype), hblock⟩

/-! ## The five layouts -/

/-- A text of 64 hexadecimal digits, as the address of an Ed25519 key is. -/
def IsHexAddress (s : String) : Prop := (hexDecode s).map List.length = some 32

instance (s : String) : Decidable (IsHexAddress s) := inferInstanceAs (Decidable (_ = _))

lemma IsHexAddress.textLen_eq {s : String} (h : IsHexAddress s) : textLen s = 64 := by
  obtain ⟨bs, hbs, hlen⟩ := Option.map_eq_some_iff.mp h
  rw [textLen_of_hexDecode hbs, hlen]

/-- What a signature is given for. -/
inductive Purpose where
  | vote
  | proposal
  | validatorRegistration
  | nodeReward
  | transfer
deriving DecidableEq

/-- Something a key signs, with the fields its byte string is made of. -/
inductive Signed where
  | vote (height : UInt64) (round : UInt32) (validatorId : String) (voteType : VoteType)
    (blockHash : String)
  | proposal (height : UInt64) (round : UInt32) (proposerId blockHash : String)
    (validRound : Option UInt32)
  | validatorRegistration (validatorId peerId : String)
  | nodeReward (rewardAddress peerId : String)
  | transfer (tx : Transaction) (native : IsHexAddress tx.sender)

namespace Signed

def purpose : Signed → Purpose
  | vote .. => .vote
  | proposal .. => .proposal
  | validatorRegistration .. => .validatorRegistration
  | nodeReward .. => .nodeReward
  | transfer .. => .transfer

/-- The bytes the key signs. -/
def bytes : Signed → Bytes
  | vote height round validatorId voteType blockHash =>
    ConsensusMessage.unsignedBytes height round validatorId voteType blockHash
  | proposal height round proposerId blockHash validRound =>
    SignedProposal.unsignedBytes height round proposerId blockHash validRound
  | validatorRegistration validatorId peerId =>
    ValidatorRegistration.bytesToSign validatorId peerId
  | nodeReward rewardAddress peerId => NodeRewardRegistration.bytesToSign rewardAddress peerId
  | transfer tx _ => tx.signingBytes

end Signed

/-- The first six bytes of what is signed for the purpose. -/
def Purpose.tag : Purpose → Bytes
  | vote => textBytes "IEUM-C"
  | proposal => textBytes "IEUM-P"
  | validatorRegistration => textBytes "ieum-v"
  | nodeReward => textBytes "ieum-n"
  | transfer => [0, 0, 0, 0, 0, 0]

lemma Purpose.tag_inj : ∀ {p q : Purpose}, p.tag = q.tag → p = q := by
  have h : ∀ p q : Purpose, p ≠ q → p.tag ≠ q.tag := by
    intro p q
    cases p <;> cases q <;> decide
  intro p q htag
  exact not_not.mp fun hne => h p q hne htag

/-- The first bytes of a text are those of a text in front of it. -/
lemma take_textBytes_append (s : String) {n : ℕ} (r : Bytes) (h : n ≤ textLen s) :
    (textBytes s ++ r).take n = (textBytes s).take n := List.take_append_of_le_length h

/-- The first six bytes tell what is signed. -/
lemma Signed.take_bytes (s : Signed) : s.bytes.take 6 = s.purpose.tag := by
  cases s with
  | vote height round validatorId voteType blockHash =>
    simp only [bytes, ConsensusMessage.unsignedBytes, List.append_assoc]
    rw [take_textBytes_append _ _ (by decide)]
    show _ = Purpose.tag .vote
    decide
  | proposal height round proposerId blockHash validRound =>
    simp only [bytes, SignedProposal.unsignedBytes, List.append_assoc]
    rw [take_textBytes_append _ _ (by decide)]
    show _ = Purpose.tag .proposal
    decide
  | validatorRegistration validatorId peerId =>
    simp only [bytes, ValidatorRegistration.bytesToSign, toString, textBytes_append,
      List.append_assoc]
    rw [take_textBytes_append _ _ (by decide)]
    show _ = Purpose.tag .validatorRegistration
    decide
  | nodeReward rewardAddress peerId =>
    simp only [bytes, NodeRewardRegistration.bytesToSign, toString, textBytes_append,
      List.append_assoc]
    rw [take_textBytes_append _ _ (by decide)]
    show _ = Purpose.tag .nodeReward
    decide
  | transfer tx native =>
    simp only [bytes, Transaction.signingBytes, pushText, List.append_assoc, native.textLen_eq]
    rw [List.take_append_of_le_length (by simp)]
    show _ = Purpose.tag .transfer
    decide

/-- **Signed byte strings cannot be confused.** The bytes signed for a vote, the bytes signed for
a transfer and the bytes a transaction id hashes determine their fields. What is signed for two
different purposes is never one byte string, so that a check that accepts each signature for one
message only accepts none for two purposes. -/
theorem signed_bytes_unambiguous :
    (∀ (height height' : UInt64) (round round' : UInt32) (validatorId validatorId' : String)
      (voteType voteType' : VoteType) (blockHash blockHash' : String),
      Fits validatorId → Fits validatorId' → Fits blockHash → Fits blockHash' →
      ConsensusMessage.unsignedBytes height round validatorId voteType blockHash
        = ConsensusMessage.unsignedBytes height' round' validatorId' voteType' blockHash' →
      height = height' ∧ round = round' ∧ validatorId = validatorId' ∧ voteType = voteType' ∧
        blockHash = blockHash') ∧
    (∀ tx tx' : Transaction, tx.Sized → tx'.Sized → tx.signingBytes = tx'.signingBytes →
      tx.sender = tx'.sender ∧ tx.receiver = tx'.receiver ∧ tx.amount = tx'.amount ∧
        tx.fee = tx'.fee ∧ tx.nonce = tx'.nonce) ∧
    (∀ tx tx' : Transaction, tx.Sized → tx'.Sized → tx.idPreimage = tx'.idPreimage → tx = tx') ∧
    (∀ a b : Signed, a.purpose ≠ b.purpose → a.bytes ≠ b.bytes) ∧
    ∀ check : Bytes → String → Prop,
      (∀ message message' signature, check message signature → check message' signature →
        message = message') →
      ∀ (a b : Signed) (signature : String), check a.bytes signature → a.purpose ≠ b.purpose →
        ¬ check b.bytes signature := by
  have hdisjoint : ∀ a b : Signed, a.purpose ≠ b.purpose → a.bytes ≠ b.bytes := by
    intro a b hne h
    apply hne
    apply Purpose.tag_inj
    rw [← a.take_bytes, ← b.take_bytes, h]
  refine ⟨?_, ?_, ?_, hdisjoint, ?_⟩
  · intro height height' round round' validatorId validatorId' voteType voteType' blockHash
      blockHash' hid hid' hhash hhash' h
    exact ConsensusMessage.unsignedBytes_inj hid hid' hhash hhash' h
  · intro tx tx' hs hs' h
    rw [← List.append_nil tx.signingBytes, ← List.append_nil tx'.signingBytes] at h
    exact (signingBytes_append_inj hs hs' h).1
  · intro tx tx' hs hs' h
    exact idPreimage_inj hs hs' h
  · intro check hbinding a b signature ha hne hb
    exact hdisjoint a b hne (hbinding _ _ _ ha hb)

/-- The transfer with another nonce. -/
def laterTransfer : Transaction := { Devnet.transfer with nonce := 1 }

/-- A byte moved from one text of a vote to the next, another nonce of the transfer, and a vote
beside the transfer: the byte strings differ. -/
theorem signed_bytes_unambiguous_transfer :
    ConsensusMessage.unsignedBytes 1 0 "a" .prevote "bc"
        ≠ ConsensusMessage.unsignedBytes 1 0 "ab" .prevote "c" ∧
      Devnet.transfer.signingBytes ≠ laterTransfer.signingBytes ∧
      Devnet.transfer.idPreimage ≠ laterTransfer.idPreimage ∧
      ∃ native : IsHexAddress Devnet.transfer.sender,
        (Signed.vote 1 0 Devnet.validator .precommit "").bytes
          ≠ (Signed.transfer Devnet.transfer native).bytes := by
  obtain ⟨hvote, hsigning, hpreimage, hdisjoint, _⟩ := signed_bytes_unambiguous
  have hnative : IsHexAddress Devnet.transfer.sender := by
    show (hexDecode (hexEncode Devnet.validatorKey)).map List.length = some 32
    rw [hexDecode_hexEncode]
    rfl
  have hsized : laterTransfer.Sized := sized_transfer
  have hnonce : Devnet.transfer.nonce ≠ laterTransfer.nonce := by decide
  refine ⟨fun h => ?_, fun h => ?_, fun h => ?_, hnative, ?_⟩
  · have hfields := hvote _ _ _ _ _ _ _ _ _ _ (by decide) (by decide)
      (by decide) (by decide) h
    exact absurd hfields.2.2.1 (by decide)
  · exact hnonce (hsigning _ _ sized_transfer hsized h).2.2.2.2
  · exact hnonce (congrArg Transaction.nonce (hpreimage _ _ sized_transfer hsized h))
  · apply hdisjoint
    show Purpose.vote ≠ Purpose.transfer
    decide

/-! ## What a proposal's signature covers -/

/-- The fields a proposal signs. -/
structure ProposalContent where
  height : UInt64
  round : UInt32
  proposerId : String
  blockHash : String
  validRound : Option UInt32
deriving DecidableEq

namespace ProposalContent

/-- The byte string signed for the fields. -/
def bytes (p : ProposalContent) : Bytes :=
  SignedProposal.unsignedBytes p.height p.round p.proposerId p.blockHash p.validRound

/-- The texts fit their length fields. -/
structure Sized (p : ProposalContent) : Prop where
  proposerId : Fits p.proposerId
  blockHash : Fits p.blockHash

/-- The round number that is written where there is no valid round. -/
def lastRound : UInt32 := UInt32.ofNat (2 ^ 32 - 1)

/-- One of the two names no valid round, the other names the largest one, and that is the only
difference. -/
def SameButRound (p q : ProposalContent) : Prop :=
  { p with validRound := q.validRound } = q ∧
    ((p.validRound = none ∧ q.validRound = some lastRound) ∨
      (p.validRound = some lastRound ∧ q.validRound = none))

/-- The bytes determine all fields, but the valid round only with none counted as the largest. -/
lemma bytes_eq_iff {p q : ProposalContent} (hp : p.Sized) (hq : q.Sized) :
    p.bytes = q.bytes ↔ { p with validRound := q.validRound } = q ∧
      p.validRound.getD lastRound = q.validRound.getD lastRound := by
  constructor
  · intro h
    simp only [bytes, SignedProposal.unsignedBytes, List.append_assoc,
      List.append_cancel_left_eq] at h
    obtain ⟨hheight, h⟩ := append_inj_of_length (by simp) h
    obtain ⟨hround, h⟩ := append_inj_of_length (by simp) h
    obtain ⟨hproposer, h⟩ := pushText_append_inj hp.proposerId hq.proposerId h
    obtain ⟨hblock, hvalid⟩ := pushText_append_inj hp.blockHash hq.blockHash h
    refine ⟨?_, beBytes_uint32_inj hvalid⟩
    rw [beBytes_uint64_inj hheight, beBytes_uint32_inj hround, hproposer, hblock]
  · rintro ⟨hfields, hvalid⟩
    rw [← hfields] at hvalid ⊢
    simp only [bytes, SignedProposal.unsignedBytes]
    -- the two differ in the last field only, which is flattened
    exact congrArg (fun round => _ ++ beBytes 4 (UInt32.toNat round)) hvalid

/-- Two different proposals have the same bytes when only the flattened field tells them apart. -/
lemma bytes_eq_iff_sameButRound {p q : ProposalContent} (hp : p.Sized) (hq : q.Sized)
    (hne : p ≠ q) : p.bytes = q.bytes ↔ p.SameButRound q := by
  rw [bytes_eq_iff hp hq, SameButRound]
  refine and_congr_right fun hfields => ?_
  have hround : p.validRound ≠ q.validRound := by
    intro heq
    apply hne
    rw [← hfields, ← heq]
  cases hpr : p.validRound with
  | none =>
    cases hqr : q.validRound with
    | none => exact absurd (hpr.trans hqr.symm) hround
    | some s => simp [eq_comm]
  | some r =>
    cases hqr : q.validRound with
    | none => simp
    | some s =>
      rw [hpr, hqr] at hround
      simpa using hround

/-- **The signature of a proposal covers its fields, but for one pair of valid rounds.** Two
different proposals have different signing bytes, and a check that accepts each signature for one
message only accepts no signature for both, exactly when their difference is not just that one
names no valid round and the other the largest. -/
theorem bytes_cover_iff (p q : ProposalContent) (hp : p.Sized) (hq : q.Sized) (hne : p ≠ q) :
    (p.bytes ≠ q.bytes ↔ ¬ p.SameButRound q) ∧
      ∀ check : Bytes → String → Prop,
        (∀ message message' signature, check message signature → check message' signature →
          message = message') →
        ∀ signature, check p.bytes signature → (¬ check q.bytes signature ↔ ¬ p.SameButRound q) := by
  have hbytes := bytes_eq_iff_sameButRound hp hq hne
  refine ⟨not_congr hbytes, fun check hbinding signature hsigned => not_congr ?_⟩
  rw [← hbytes]
  constructor
  · intro hboth
    exact hbinding _ _ _ hsigned hboth
  · intro heq
    rwa [← heq]

/-- A proposal without a valid round, of a block. -/
def fresh : ProposalContent := ⟨1, 0, "a", "b", none⟩

/-- The same for another round. -/
theorem bytes_cover_iff_round :
    fresh.bytes ≠ { fresh with round := 1 }.bytes := by
  have hsized : fresh.Sized := ⟨by decide, by decide⟩
  have hround : fresh.round ≠ 1 := by decide
  have hcover := bytes_cover_iff fresh { fresh with round := 1 } hsized
    ⟨hsized.proposerId, hsized.blockHash⟩ fun h => hround (congrArg round h)
  exact hcover.1.mpr fun hsame => hround (congrArg round hsame.1)

end ProposalContent

section
attribute [local instance] Devnet.primitives

/-- The validator's proposal with the largest valid round written into it. -/
def lastRoundProposal : SignedProposal :=
  { Devnet.firstProposal with validRound := some ProposalContent.lastRound }

/-- The signature the validator made for a proposal without a valid round is accepted for another
proposal. -/
theorem lastRound_verifies : Devnet.firstProposal ≠ lastRoundProposal ∧
    Devnet.firstProposal.verify = .ok () ∧ lastRoundProposal.verify = .ok () := by
  have hverify : Devnet.firstProposal.verify = .ok () :=
    Devnet.verify_proposal (by simp [Devnet.proposals]) Devnet.first_hash
  refine ⟨fun h => ?_, hverify, hverify⟩
  exact absurd (congrArg SignedProposal.validRound h) (by decide)

end

end IeumChain
