import IeumChain.Quartet

/-!
# Accountability

Two certificates that contradict each other, for two blocks or for a block and for leaving its
round, each come from a quorum. Every validator in both quorums signed two votes that are evidence
of a double vote, and these validators hold more than a third of the voting power.
-/

namespace IeumChain

open Lib

section
variable [Primitives]

/-- The validators for whom a vote of the first list and one of the second make evidence. -/
def doubleVoters (validators : List Validator) (first second : List ConsensusMessage) :
    List Validator :=
  validators.filter fun v => first.any fun m => second.any fun m' =>
    m.validatorId == v.id && isOk (DoubleVoteEvidence.new m m')

/-- Two signed votes of one validator in one step for different blocks are evidence. -/
lemma DoubleVoteEvidence.new_isOk {m m' : ConsensusMessage} (hm : m.verify = .ok ())
    (hm' : m'.verify = .ok ()) (hheight : m.height = m'.height) (hround : m.round = m'.round)
    (htype : m.voteType = m'.voteType) (hid : m.validatorId = m'.validatorId)
    (hhash : m.blockHash ≠ m'.blockHash) : isOk (DoubleVoteEvidence.new m m') = true := by
  rw [isOk_iff]
  refine ⟨⟨m, m'⟩, ?_⟩
  simp only [DoubleVoteEvidence.new, DoubleVoteEvidence.verify, bind_eq_ok, ensure_eq_ok,
    pure_eq_ok]
  exact ⟨(), ⟨(), hm, (), hm', hheight, hround, htype, hid, hhash⟩, trivial⟩

/-- Two lists of votes that both reach a quorum and that conflict vote by vote convict more than
a third of the voting power. -/
lemma doubleVoters_power {errors errors' : CertificateErrors}
    {expected expected' : ConsensusMessage → Bool} {validators : List Validator}
    {votes votes' : List ConsensusMessage} (hids : (validators.map Validator.id).Nodup)
    (h : verifyVotes errors validators expected votes = .ok ())
    (h' : verifyVotes errors' validators expected' votes' = .ok ())
    (hconflict : ∀ m m', expected m = true → expected' m' = true →
      m.height = m'.height ∧ m.round = m'.round ∧ m.voteType = m'.voteType ∧
        m.blockHash ≠ m'.blockHash) :
    sumPower validators < 3 * sumPower (doubleVoters validators votes votes') := by
  obtain ⟨q, hq, hsigned⟩ := verifyVotes_eq_ok hids h
  obtain ⟨q', hq', hsigned'⟩ := verifyVotes_eq_ok hids h'
  have hinter := hq.inter hq'
  -- every validator in both quorums is convicted by its two votes
  have hsub : q ∩ q' ⊆ idsOf (doubleVoters validators votes votes') := by
    intro id hid
    obtain ⟨hidq, hidq'⟩ := Finset.mem_inter.mp hid
    obtain ⟨m, hm, hmid, hmexp, hmok⟩ := hsigned id hidq
    obtain ⟨m', hm', hmid', hmexp', hmok'⟩ := hsigned' id hidq'
    obtain ⟨hheight, hround, htype, hhash⟩ := hconflict m m' hmexp hmexp'
    obtain ⟨v, hv, hvid⟩ := List.mem_map.mp (List.mem_toFinset.mp (hq.subset hidq))
    have hevidence : isOk (DoubleVoteEvidence.new m m') = true :=
      DoubleVoteEvidence.new_isOk hmok hmok' hheight hround htype (hmid.trans hmid'.symm) hhash
    refine List.mem_toFinset.mpr (List.mem_map.mpr ⟨v, List.mem_filter.mpr ⟨hv, ?_⟩, hvid⟩)
    rw [List.any_eq_true]
    refine ⟨m, hm, ?_⟩
    rw [List.any_eq_true]
    exact ⟨m', hm', by simp [hmid, hvid, hevidence]⟩
  have hmono := weight_mono (powerIn validators) hsub
  have hdouble := weight_idsOf hids (l := doubleVoters validators votes votes')
    List.filter_sublist
  have htotal := weight_idsOf hids (List.Sublist.refl validators)
  omega

/-- **Accountable safety.** Two finality certificates for one height and round but different
blocks, or a finality certificate and a round change away from its round, convict validators with
more than a third of the voting power. -/
theorem accountable_safety (validators : List Validator)
    (hids : (validators.map Validator.id).Nodup) :
    (∀ c c' : FinalityCertificate, c.block.height = c'.block.height → c.round = c'.round →
      c.block.hash ≠ c'.block.hash → c.verify validators = .ok () →
      c'.verify validators = .ok () →
      sumPower validators < 3 * sumPower (doubleVoters validators c.precommits c'.precommits)) ∧
    (∀ (c : FinalityCertificate) (r : RoundChangeCertificate), c.block.height = r.height →
      c.round = r.fromRound → c.verify validators = .ok () → r.verify validators = .ok () →
      sumPower validators < 3 * sumPower (doubleVoters validators c.precommits r.votes)) := by
  constructor
  · intro c c' hheight hround hhash h h'
    simp only [FinalityCertificate.verify, bind_eq_ok, ensure_eq_ok] at h h'
    obtain ⟨_, _, hvotes⟩ := h
    obtain ⟨_, _, hvotes'⟩ := h'
    refine doubleVoters_power hids hvotes hvotes' ?_
    intro m m' hm hm'
    obtain ⟨h₁, h₂, h₃, h₄⟩ := of_decide_eq_true hm
    obtain ⟨h₁', h₂', h₃', h₄'⟩ := of_decide_eq_true hm'
    refine ⟨by rw [h₁, h₁', hheight], by rw [h₂, h₂', hround], by rw [h₃, h₃'], ?_⟩
    rw [h₄, h₄']
    exact hhash
  · intro c r hheight hround h h'
    simp only [FinalityCertificate.verify, bind_eq_ok, ensure_eq_ok] at h
    obtain ⟨_, hblock, hvotes⟩ := h
    refine doubleVoters_power hids hvotes h' ?_
    intro m m' hm hm'
    obtain ⟨h₁, h₂, h₃, h₄⟩ := of_decide_eq_true hm
    obtain ⟨h₁', h₂', h₃', h₄'⟩ := of_decide_eq_true hm'
    refine ⟨by rw [h₁, h₁', hheight], by rw [h₂, h₂', hround], by rw [h₃, h₃'], ?_⟩
    rw [h₄, h₄', hblock]
    exact calculateHash_ne_nil c.block

end

namespace Quartet

attribute [local instance] primitives

/-- Three validators finalise the first block. -/
def certificate : FinalityCertificate :=
  ⟨Devnet.first, 0, [first.precommit, second.precommit, fourth.precommit]⟩

/-- Three validators finalise the other block, two of them a second time. -/
def rivalCertificate : FinalityCertificate := ⟨Devnet.rival, 0, rivals⟩

/-- The same three leave the round. -/
def roundChange : RoundChangeCertificate := ⟨1, 0, nils⟩

lemma verify_certificate : certificate.verify validators = .ok () := by
  simp only [FinalityCertificate.verify, bind_eq_ok, ensure_eq_ok]
  refine ⟨(), first_hash, verifyVotes_three [Devnet.validatorKey, secondKey, fourthKey] rfl
    (fun m hm => ?_) (by decide) (by decide) (by decide)⟩
  simp only [certificate, List.mem_cons, List.not_mem_nil, or_false] at hm
  rcases hm with rfl | rfl | rfl
  all_goals exact ⟨by simp [votes, voters], decide_eq_true ⟨rfl, rfl, rfl, rfl⟩⟩

lemma verify_rivalCertificate : rivalCertificate.verify validators = .ok () := by
  simp only [FinalityCertificate.verify, bind_eq_ok, ensure_eq_ok]
  refine ⟨(), rival_hash, verifyVotes_three [secondKey, thirdKey, fourthKey] rfl
    (fun m hm => ⟨?_, ?_⟩) (by decide) (by decide) (by decide)⟩
  · exact List.mem_append_left _ (List.mem_append_right _ hm)
  · simp only [rivalCertificate, rivals, List.mem_cons, List.not_mem_nil, or_false] at hm
    rcases hm with rfl | rfl | rfl <;> exact decide_eq_true ⟨rfl, rfl, rfl, rfl⟩

lemma verify_roundChange : roundChange.verify validators = .ok () := by
  refine verifyVotes_three [secondKey, thirdKey, fourthKey] rfl
    (fun m hm => ⟨List.mem_append_right _ hm, ?_⟩) (by decide) (by decide) (by decide)
  simp only [roundChange, nils, List.mem_cons, List.not_mem_nil, or_false] at hm
  rcases hm with rfl | rfl | rfl <;> exact decide_eq_true ⟨rfl, rfl, rfl, rfl⟩

end Quartet

section
attribute [local instance] Quartet.primitives

/-- Of four validators two signed for both blocks, and for leaving the round. -/
theorem accountable_safety_rivals :
    400 < 3 * sumPower (doubleVoters Quartet.validators Quartet.certificate.precommits
        Quartet.rivalCertificate.precommits) ∧
      400 < 3 * sumPower (doubleVoters Quartet.validators Quartet.certificate.precommits
        Quartet.roundChange.votes) := by
  obtain ⟨hblocks, hrounds⟩ := accountable_safety Quartet.validators Quartet.nodup_ids
  have hdiffer : Quartet.certificate.block.hash ≠ Quartet.rivalCertificate.block.hash := by
    intro h
    exact absurd (hexEncode_inj h) (by decide)
  rw [← Quartet.sumPower_validators]
  exact ⟨hblocks _ _ rfl rfl hdiffer Quartet.verify_certificate Quartet.verify_rivalCertificate,
    hrounds _ _ rfl rfl Quartet.verify_certificate Quartet.verify_roundChange⟩

end

end IeumChain
