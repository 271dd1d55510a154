import IeumChain.Consensus

/-!
# Round changes (`consensus_era.rs`)

A round-change certificate shows that validators with more than two thirds of the power
precommitted nothing in a round. The value they vote for is a fixed text.
-/

namespace IeumChain

open Lib

/-- `NIL_BLOCK_HASH`. -/
def nilBlockHash : String := "ieum:nil"

/-- The nil votes that allow a validator to leave a round. -/
structure RoundChangeCertificate where
  height : UInt64
  fromRound : UInt32
  votes : List ConsensusMessage
deriving DecidableEq

namespace RoundChangeCertificate

/-- The errors of `RoundChangeCertificate::verify`. -/
def errors : CertificateErrors :=
  { mixed := "round-change 인증서에 다른 투표가 섞였습니다."
    unregistered := "등록되지 않은 검증자의 round-change 투표입니다."
    range := "round-change 투표권 합계가 범위를 넘었습니다."
    quorum := "round-change에 필요한 2/3 초과 서명이 없습니다." }

/-- The votes a certificate may hold. -/
def expects (c : RoundChangeCertificate) (vote : ConsensusMessage) : Bool :=
  decide (vote.height = c.height ∧ vote.round = c.fromRound ∧ vote.voteType = .precommit ∧
    vote.blockHash = nilBlockHash)

/-- `RoundChangeCertificate::verify`. -/
def verify [Primitives] (c : RoundChangeCertificate) (validators : List Validator) :
    Result Unit :=
  verifyVotes errors validators c.expects c.votes

end RoundChangeCertificate

/-- No block has the nil value as its hash. -/
lemma calculateHash_ne_nil [Primitives] (b : Block) : b.calculateHash ≠ nilBlockHash := by
  intro h
  have hlen := b.textLen_calculateHash
  rw [h] at hlen
  revert hlen
  decide

end IeumChain
