import IeumChain.RuntimeMoves
import IeumChain.ConsensusEra
import IeumChain.Lib.Sha256

/-!
# A network with one validator

The smallest network a genesis configuration allows: a single validator proposes, and its own vote
is a quorum. The proposal, the prevote and the precommit each succeed at the first attempt, and a
block that executes is final after them (`alone_finalizes`).

`Devnet` is such a network with keys, blocks and signatures: the validator and a user have the
Ed25519 keys of the seeds `[1; 32]` and `[2; 32]`, SHA-256 is the real one, and the signatures are
those these keys make.
-/

namespace IeumChain

open Lib

namespace BftConsensus

/-- A machine of one validator whose power is not zero and far from the limit. -/
structure Solo (v : Validator) (c : BftConsensus) : Prop where
  runs : RunsFor [v] c
  positive : 0 < v.votingPower.toNat
  bounded : v.votingPower.toNat < 2 ^ 62

namespace Solo
variable {v : Validator} {c : BftConsensus}

lemma mem_iff (h : Solo v c) (id : String) : id ∈ c.validators ↔ id = v.id := by
  rw [h.runs.registered.mem]
  simp [idsOf]

lemma keys_eq (h : Solo v c) : c.validators.keys = {v.id} := by
  ext id
  rw [Finmap.mem_keys, h.mem_iff, Finset.mem_singleton]

lemma totalPower (h : Solo v c) : c.totalPower.toNat = v.votingPower.toNat := by
  rw [h.runs.total]
  simp [sumPower]

lemma powerOf_self (h : Solo v c) : c.powerOf v.id = v.votingPower.toNat := by
  rw [powerOf, h.runs.registered.lookup v (List.mem_singleton_self v)]
  rfl

/-- The validator always proposes. -/
lemma expectedProposer (h : Solo v c) (hround : c.round = 0) : c.expectedProposer = .ok v.id := by
  have hheight := c.height.toNat_lt
  have hturn : c.height.toNat - 1 + c.round.toNat < 2 ^ 64 := by
    rw [hround]
    show c.height.toNat - 1 + 0 < _
    omega
  simp only [BftConsensus.expectedProposer, bind_eq_ok, ensure_eq_ok, okOr_eq_ok, h.keys_eq]
  refine ⟨(), hturn, ?_⟩
  show [v.id][_ % 1]? = some v.id
  rw [Nat.mod_one]
  rfl

/-- The validator's own vote is a quorum. -/
lemma hasQuorum (h : Solo v c) {key : VoteType × String} (hvoted : v.id ∈ c.voters key) :
    c.hasQuorum key = true := by
  have hweight : v.votingPower.toNat ≤ weight c.powerOf (c.voters key) := by
    have hmono := weight_mono c.powerOf (Finset.singleton_subset_iff.mpr hvoted)
    rwa [weight, Finset.sum_singleton, h.powerOf_self] at hmono
  have hpositive := h.positive
  have hbounded := h.bounded
  refine decide_eq_true ?_
  rw [h.totalPower]
  unfold saturatingMul
  omega

section
variable [Primitives]

/-- The machine after it remembered a vote. -/
def recorded (c : BftConsensus) (m : ConsensusMessage) : BftConsensus :=
  { c with voteHistory := c.voteHistory.insert (historyKey m) m.blockHash
           voteMessages := c.voteMessages.insert (historyKey m) m }

/-- A first vote for the proposal is accepted and acts as a quorum. -/
lemma handle (h : Solo v c) {m : ConsensusMessage} (hcheck : c.checkVote m = .ok ())
    (hnew : c.voteHistory.lookup (historyKey m) = none) (hproposal : c.proposal = some m.blockHash)
    (hphase : c.phase ≠ .finalized) :
    c.handle m = (.ok (), ((recorded c m).addVoter m).onQuorum m) := by
  obtain ⟨_, hmem, _, _⟩ := checkVote_eq_ok.mp hcheck
  have hid := (h.mem_iff _).mp hmem
  have hsolo : Solo v ((recorded c m).addVoter m) :=
    ⟨⟨h.runs.registered, h.runs.total⟩, h.positive, h.bounded⟩
  have hquorum : ((recorded c m).addVoter m).hasQuorum (m.voteType, m.blockHash) = true := by
    refine hsolo.hasQuorum ?_
    rw [voters_addVoter, if_pos rfl, ← hid]
    exact Finset.mem_insert_self _ _
  simp only [BftConsensus.handle, hcheck, recordVote, hnew]
  rw [if_pos hproposal]
  simp only [acceptVote]
  rw [if_pos ⟨hquorum, hphase⟩]
  rfl

end

end Solo

end BftConsensus

/-! ## Certificates -/

section
variable [Primitives] {v : Validator}

/-- Votes of the one validator, at least one of them, are enough for a certificate. -/
lemma verifyVotes_solo {errors : CertificateErrors} {expected : ConsensusMessage → Bool}
    {votes : List ConsensusMessage} (hpositive : 0 < v.votingPower.toNat)
    (hvotes : ∀ m ∈ votes, m.validatorId = v.id ∧ expected m = true ∧ m.verify = .ok ())
    (hne : votes ≠ []) : verifyVotes errors [v] expected votes = .ok () := by
  have hbound := v.votingPower.toNat_lt
  have hids : ([v].map Validator.id).Nodup := List.nodup_singleton _
  have hsum : sumPower [v] = v.votingPower.toNat := by simp [sumPower]
  have hvoters : votersOf votes = idsOf [v] := by
    ext id
    simp only [votersOf, idsOf, List.mem_toFinset, List.mem_map, List.map_singleton,
      List.mem_singleton]
    constructor
    · rintro ⟨m, hm, rfl⟩
      exact (hvotes m hm).1
    · rintro rfl
      obtain ⟨m, hm⟩ := List.exists_mem_of_ne_nil votes hne
      exact ⟨m, hm, (hvotes m hm).1⟩
  have hcountable : Countable expected [v] votes :=
    ⟨fun m hm => (hvotes m hm).2.1, fun m hm => (hvotes m hm).2.2, hvoters.subset⟩
  rw [verifyVotes_iff hids (by omega) hcountable, hvoters,
    weight_idsOf hids (List.Sublist.refl _)]
  omega

/-- Precommits of the one validator, at least one of them, are a finality certificate. -/
lemma verify_solo {b : Block} {round : UInt32} {precommits : List ConsensusMessage}
    (hpositive : 0 < v.votingPower.toNat) (hhash : b.hash = b.calculateHash)
    (hvotes : ∀ m ∈ precommits, IsVote v.id b.height round .precommit b.hash m)
    (hne : precommits ≠ []) :
    FinalityCertificate.verify ⟨b, round, precommits⟩ [v] = .ok () := by
  simp only [FinalityCertificate.verify, bind_eq_ok, ensure_eq_ok]
  refine ⟨(), hhash, verifyVotes_solo hpositive (fun m hm => ?_) hne⟩
  obtain ⟨hid, hheight, hround, htype, hblock, hverify⟩ := hvotes m hm
  exact ⟨hid, decide_eq_true ⟨hheight, hround, htype, hblock⟩, hverify⟩

end

/-! ## The runtime -/

namespace ConsensusRuntime
variable [Primitives] {v : Validator} {r : ConsensusRuntime} {b : Block}

/-- A signer that answers with the signature of a vote makes the node return that vote. -/
lemma signVote_of_isVote {env : Reading} {height : UInt64} {round : UInt32} {voteType : VoteType}
    {blockHash : String} {m : ConsensusMessage}
    (hm : IsVote r.validator height round voteType blockHash m)
    (hsign : env.sign (ConsensusMessage.unsignedBytes height round r.validator voteType blockHash)
      = .ok m.signature) : r.signVote env height round voteType blockHash = .ok m := by
  obtain ⟨hid, rfl, rfl, rfl, rfl, hverify⟩ := hm
  simp only [signVote, ConsensusMessage.fromSignature, ← hid, bind_eq_ok, pure_eq_ok] at hsign ⊢
  exact ⟨m.signature, hsign, (), hverify, rfl⟩

/-- A block that fits, in a proposal the machine takes, becomes the candidate. -/
lemma acceptProposal_of_fits {env : Reading} {p : SignedProposal} {consensus : BftConsensus}
    (hfits : r.Fits env.now p.block) (hc : r.consensus.handleProposal p = .ok consensus) :
    r.acceptProposal env p
      = .ok ({ r with consensus, pending := some p.block }.resetDeadline env) := by
  have hscheduled := hfits.scheduled
  simp only [validateScheduledBlock, bind_eq_ok, okOr_eq_ok] at hscheduled
  obtain ⟨previous, hlast, _⟩ := hscheduled
  obtain ⟨htip, hhash⟩ := Blockchain.tipHeight_of_getLast hlast
  simp only [acceptProposal, bind_eq_ok, okOr_eq_ok, ensure_eq_ok, addOne_eq_ok, pure_eq_ok]
  refine ⟨previous, hlast, (), by rw [hfits.previousHash, hhash], p.block.height, ?_, (), rfl, (),
    hfits.scheduled, consensus, hc, rfl⟩
  rw [hfits.height, htip]

/-- The lone validator's runtime at the start of a height. -/
structure Fresh (v : Validator) (r : ConsensusRuntime) : Prop where
  solo : r.consensus.Solo v
  listed : r.validators = [v]
  own : r.validator = v.id
  round : r.consensus.round = 0
  phase : r.consensus.phase = .propose
  unlocked : r.consensus.lockedValue = none
  unseen : r.consensus.voteHistory = ∅
  precommits : r.precommits = []

/-- The lone validator's runtime in a phase after the proposal, with the block as candidate and no
precommit seen. -/
structure Candidate (v : Validator) (b : Block) (current : ConsensusPhase)
    (r : ConsensusRuntime) : Prop where
  solo : r.consensus.Solo v
  listed : r.validators = [v]
  own : r.validator = v.id
  round : r.consensus.round = 0
  phase : r.consensus.phase = current
  height : r.consensus.height = b.height
  proposal : r.consensus.proposal = some b.hash
  pending : r.pending = some b
  precommits : r.precommits = []
  unseen : ∀ t, (t = .prevote → current = .prevote) →
    r.consensus.voteHistory.lookup (b.height, 0, t, v.id) = none

lemma Fresh.started {chain : Blockchain} {schedule : EventSchedule}
    (hpositive : 0 < v.votingPower.toNat) (hbounded : v.votingPower.toNat < 2 ^ 62)
    (h : Started chain [v] schedule v.id r) : Fresh v r := by
  obtain ⟨map, total, height, timeouts, deadline, hvalid, _, hruns, rfl⟩ := h.eq
  exact ⟨⟨hruns, hpositive, hbounded⟩, rfl, rfl, rfl, rfl, rfl, rfl, rfl⟩

/-- The proposal of a block that fits a started runtime is for its height. -/
lemma Started.place {chain : Blockchain} {validators : List Validator} {schedule : EventSchedule}
    {id : String} {now : Option UInt64} {p : SignedProposal}
    (h : Started chain validators schedule id r) (hverify : p.verify = .ok ())
    (hfits : r.Fits now p.block) : p.height = r.consensus.height := by
  obtain ⟨map, total, height, _, _, _, hheight, _, heq⟩ := h.eq
  have hchain : r.chain = chain := by rw [heq]
  simp only [SignedProposal.verify, bind_eq_ok, ensure_eq_ok] at hverify
  obtain ⟨_, hsame, _⟩ := hverify
  have hlevel := hfits.height
  rw [hchain] at hlevel
  rw [hsame, heq]
  exact UInt64.toNat_inj.mp (hlevel.trans hheight.symm)

/-- The machine takes a signed proposal of the validator. -/
lemma Fresh.handleProposal (h : Fresh v r) {p : SignedProposal}
    (hheight : p.height = r.consensus.height) (hround : p.round = 0)
    (hproposer : p.proposerId = v.id) (hverify : p.verify = .ok ()) :
    r.consensus.handleProposal p
      = .ok { r.consensus with proposal := some p.block.hash, phase := .prevote } := by
  have hblock := hverify
  simp only [SignedProposal.verify, bind_eq_ok, ensure_eq_ok] at hblock
  obtain ⟨_, _, _, hhash, _⟩ := hblock
  have hne : p.block.hash ≠ "" := by
    intro hempty
    have hlength := p.block.textLen_calculateHash
    rw [← hhash, hempty] at hlength
    revert hlength
    decide
  simp only [BftConsensus.handleProposal, BftConsensus.propose, bind_eq_ok, ensure_eq_ok,
    pure_eq_ok]
  exact ⟨(), ⟨hheight, by rw [hround, h.round]⟩, (), (h.solo.mem_iff _).mpr hproposer, (),
    hverify, (), .inl h.unlocked, (), h.phase, v.id, h.solo.expectedProposer h.round, (),
    hproposer, (), hne, trivial⟩

/-- A signed proposal of the validator for a block that fits is answered with its prevote. -/
lemma Fresh.receiveProposal (h : Fresh v r) (env : Reading) {p : SignedProposal}
    (hheight : p.height = r.consensus.height) (hround : p.round = 0)
    (hproposer : p.proposerId = v.id) (hverify : p.verify = .ok ())
    (hfits : r.Fits env.now p.block) {m : ConsensusMessage}
    (hm : IsVote v.id p.block.height 0 .prevote p.block.hash m)
    (hsign : env.sign
      (ConsensusMessage.unsignedBytes p.block.height 0 v.id .prevote p.block.hash)
        = .ok m.signature) :
    ∃ r', r.receiveProposal env p = (.ok m, r') ∧ Candidate v p.block .prevote r' ∧
      r'.chain = r.chain ∧ r'.finalized = r.finalized ∧
      r'.pendingFinalized = r.pendingFinalized := by
  have hsame : p.height = p.block.height := by
    simp only [SignedProposal.verify, bind_eq_ok, ensure_eq_ok] at hverify
    obtain ⟨_, hsame, _⟩ := hverify
    exact hsame
  have hc := h.handleProposal hheight hround hproposer hverify
  set r' := { r with
    consensus := { r.consensus with proposal := some p.block.hash, phase := .prevote }
    pending := some p.block }.resetDeadline env with hr'
  have hvote : r'.signVote env p.height p.round .prevote p.block.hash = .ok m := by
    rw [hsame, hround]
    refine signVote_of_isVote ?_ ?_
    · show IsVote r.validator _ _ _ _ m
      rw [h.own]
      exact hm
    · show env.sign (ConsensusMessage.unsignedBytes _ _ r.validator _ _) = _
      rw [h.own]
      exact hsign
  refine ⟨r', ?_, ⟨⟨⟨h.solo.runs.registered, h.solo.runs.total⟩, h.solo.positive, h.solo.bounded⟩,
    h.listed, h.own, h.round, rfl, hheight.symm.trans hsame, rfl, rfl, h.precommits,
    fun t _ => ?_⟩, rfl, rfl, rfl⟩
  · rw [ConsensusRuntime.receiveProposal, acceptProposal_of_fits hfits hc]
    simp only [← hr', hvote]
  · show r.consensus.voteHistory.lookup _ = none
    rw [h.unseen]
    exact Finmap.lookup_empty _

/-- The vote of the round is one the machine can count. -/
lemma Candidate.checkVote {current : ConsensusPhase} (h : Candidate v b current r) {t : VoteType}
    {m : ConsensusMessage} (hm : IsVote v.id b.height 0 t b.hash m)
    (htakes : BftConsensus.takesVote current t = true) : r.consensus.checkVote m = .ok () := by
  obtain ⟨hid, hheight, hround, htype, _, hverify⟩ := hm
  rw [BftConsensus.checkVote_eq_ok, h.height, h.round, h.phase, htype, h.solo.mem_iff]
  exact ⟨⟨hheight, hround⟩, hid, hverify, htakes⟩

/-- The own vote of a type not seen yet acts as a quorum. -/
lemma Candidate.handle {current : ConsensusPhase} (h : Candidate v b current r) {t : VoteType}
    {m : ConsensusMessage} (hm : IsVote v.id b.height 0 t b.hash m)
    (htakes : BftConsensus.takesVote current t = true) (hnew : t = .prevote → current = .prevote)
    (hopen : current ≠ .finalized) :
    r.consensus.handle m
      = (.ok (), ((BftConsensus.Solo.recorded r.consensus m).addVoter m).onQuorum m) := by
  refine h.solo.handle (h.checkVote hm htakes) ?_ ?_ ?_
  · rw [BftConsensus.historyKey, hm.height, hm.round, hm.voteType, hm.validatorId]
    exact h.unseen t hnew
  · rw [h.proposal, hm.blockHash]
  · rw [h.phase]
    exact hopen

/-- The own prevote locks the candidate and is answered with the precommit. -/
lemma Candidate.prevote (h : Candidate v b .prevote r) {env : Reading} {m m' : ConsensusMessage}
    (hm : IsVote v.id b.height 0 .prevote b.hash m)
    (hm' : IsVote v.id b.height 0 .precommit b.hash m')
    (hsign : env.sign (ConsensusMessage.unsignedBytes b.height 0 v.id .precommit b.hash)
      = .ok m'.signature) :
    ∃ r', r.receiveVote env m = (.ok (some m'), r') ∧ Candidate v b .precommit r' ∧
      r'.chain = r.chain ∧ r'.finalized = r.finalized ∧
      r'.pendingFinalized = r.pendingFinalized := by
  -- the only validator is a quorum by itself
  have hhandle := h.handle hm rfl (fun _ => rfl) (by decide)
  set c := ((BftConsensus.Solo.recorded r.consensus m).addVoter m).onQuorum m with hc
  have hlocked : c = { (BftConsensus.Solo.recorded r.consensus m).addVoter m with
      validValue := some m.blockHash, validRound := some r.consensus.round
      lockedValue := some m.blockHash, lockedRound := some r.consensus.round
      phase := .precommit } := by
    rw [hc, BftConsensus.onQuorum, hm.voteType]
    exact if_pos h.phase
  obtain ⟨validBlock, deadline, hphase⟩ :=
    onPhaseChange_eq { r with consensus := c } env r.consensus.phase
  have hafter : ({ r with consensus := c }.keepPrecommit m).onPhaseChange env r.consensus.phase
      = { r with consensus := c, validBlock, deadline } := by
    rw [keepPrecommit, if_neg (by rw [hm.voteType]; simp), hphase]
  set r' : ConsensusRuntime := { r with consensus := c, validBlock, deadline } with hr'
  have hcandidate : Candidate v b .precommit r' := by
    refine ⟨⟨⟨?_, ?_⟩, h.solo.positive, h.solo.bounded⟩, h.listed, h.own, ?_, ?_, ?_, ?_,
      h.pending, h.precommits, fun t ht => ?_⟩ <;> simp only [hr', hlocked]
    · exact h.solo.runs.registered
    · exact h.solo.runs.total
    · exact h.round
    · exact h.height
    · exact h.proposal
    · -- the vote just recorded is the prevote, not the one asked for
      have htype : t = .precommit := by
        cases t with
        | prevote => exact absurd (ht rfl) (by decide)
        | precommit => rfl
      show ((r.consensus.voteHistory).insert _ _).lookup _ = none
      rw [HashMap.lookup_insert, if_neg, h.unseen t (fun _ => rfl)]
      rw [htype, BftConsensus.historyKey, hm.voteType]
      simp
  refine ⟨r', ?_, hcandidate, rfl, rfl, rfl⟩
  have hvote : r'.precommitPending env = .ok (some m') := by
    simp only [precommitPending, bind_eq_ok, okOr_eq_ok, pure_eq_ok]
    refine ⟨b, h.pending, m', ?_, rfl⟩
    rw [hcandidate.round]
    refine signVote_of_isVote ?_ ?_ <;> rw [hcandidate.own]
    · exact hm'
    · exact hsign
  rw [receiveVote, hhandle]
  simp only [hafter, hcandidate.phase, hvote]

/-- A finalised candidate with its certificate that executes is committed. -/
lemma finalizePending_commits {chain : Blockchain} (hpending : r.pending = some b)
    (hfinal : r.consensus.finalized = some b.hash)
    (hverify : (r.certificateFor b).verify r.validators = .ok ())
    (happly : r.chain.applyBlock b = .ok chain) :
    ∃ r', r.finalizePending = (.ok none, r') ∧ r'.chain = chain ∧
      r'.finalized = r.finalized ++ [r.certificateFor b] ∧
      r'.pendingFinalized = r.pendingFinalized ++ [r.certificateFor b] := by
  have hcommit : ∃ r', { r with pending := none }.commit b = .ok r' ∧ r'.chain = chain ∧
      r'.finalized = r.finalized ++ [r.certificateFor b] ∧
      r'.pendingFinalized = r.pendingFinalized ++ [r.certificateFor b] := by
    refine ⟨{ r with chain, pending := none, finalized := r.finalized ++ [r.certificateFor b]
                     pendingFinalized := r.pendingFinalized ++ [r.certificateFor b] }, ?_, rfl, rfl,
      rfl⟩
    simp only [ConsensusRuntime.commit, bind_eq_ok, ensure_eq_ok, pure_eq_ok]
    exact ⟨(), hfinal, (), hverify, chain, happly, rfl⟩
  obtain ⟨r', hr', hledger⟩ := hcommit
  refine ⟨r', ?_, hledger⟩
  rw [finalizePending, hpending]
  simp only [hr']

/-- The own precommit finalises the candidate, if it executes. -/
lemma Candidate.precommit (h : Candidate v b .precommit r) (env : Reading) {m : ConsensusMessage}
    (hm : IsVote v.id b.height 0 .precommit b.hash m) {chain : Blockchain}
    (happly : r.chain.applyBlock b = .ok chain) :
    ∃ r', r.receiveVote env m = (.ok none, r') ∧ r'.chain = chain ∧
      r'.finalized = r.finalized ++ [⟨b, 0, [m]⟩] ∧
      r'.pendingFinalized = r.pendingFinalized ++ [⟨b, 0, [m]⟩] := by
  have hhandle := h.handle hm rfl (fun hp => by cases hp) (by decide)
  set c := ((BftConsensus.Solo.recorded r.consensus m).addVoter m).onQuorum m with hc
  have hfinal : c = { (BftConsensus.Solo.recorded r.consensus m).addVoter m with
      phase := .finalized, finalized := some m.blockHash } := by
    rw [hc, BftConsensus.onQuorum, hm.voteType]
  obtain ⟨validBlock, deadline, hphase⟩ := onPhaseChange_eq
    { r with consensus := c, precommits := [m] } env r.consensus.phase
  have hafter : ({ r with consensus := c }.keepPrecommit m).onPhaseChange env r.consensus.phase
      = { r with consensus := c, precommits := [m], validBlock, deadline } := by
    rw [keepPrecommit, if_pos ⟨hm.voteType, by simp [h.precommits]⟩, ← hphase, h.precommits]
    rfl
  set r₁ : ConsensusRuntime := { r with consensus := c, precommits := [m], validBlock, deadline }
    with hr₁
  have hcertificate : r₁.certificateFor b = ⟨b, 0, [m]⟩ := by
    rw [certificateFor, hr₁, hfinal]
    exact congrArg (fun round => FinalityCertificate.mk b round [m]) h.round
  obtain ⟨_, _, _, hlinks, _, _⟩ := Blockchain.applyBlock_eq_ok.mp happly
  have hverify : (r₁.certificateFor b).verify r₁.validators = .ok () := by
    show (r₁.certificateFor b).verify r.validators = .ok ()
    rw [hcertificate, h.listed]
    refine verify_solo h.solo.positive hlinks.hash (fun m' hm' => ?_) (List.cons_ne_nil _ _)
    rw [List.mem_singleton.mp hm']
    exact hm
  have hphase₁ : r₁.consensus.phase = .finalized := by
    rw [hr₁, hfinal]
  have hhash : r₁.consensus.finalized = some b.hash := by
    rw [hr₁, hfinal, hm.blockHash]
  rw [receiveVote, hhandle]
  simp only [hafter, hphase₁]
  rw [← hcertificate]
  exact finalizePending_commits h.pending hhash hverify happly

/-- A proposal that is answered. -/
lemma step_receiveProposal {r' : ConsensusRuntime} {env : ℕ → Reading} {p : SignedProposal}
    {m : ConsensusMessage} (h : r.receiveProposal (env 0) p = (.ok m, r')) :
    r.step env (.receiveProposal p) = ([m], r') := by
  simp only [step, h]
  rfl

/-- A vote that is accepted. -/
lemma step_receiveVote {r' : ConsensusRuntime} {env : ℕ → Reading} {m : ConsensusMessage}
    (result : Option ConsensusMessage) (h : r.receiveVote (env 0) m = (.ok result, r')) :
    r.step env (.receiveVote m) = (result.toList, r') := by
  simp only [step, h]
  rfl

/-- **A lone validator finalises what it proposes.** From the start of a height, a signed proposal
of a block that fits and executes, the prevote it is answered with and the precommit that one is
answered with put the block on the chain, with the precommit as its certificate. -/
theorem alone_finalizes {chain chain' : Blockchain} {schedule : EventSchedule}
    (hpositive : 0 < v.votingPower.toNat) (hbounded : v.votingPower.toNat < 2 ^ 62)
    (hr : Started chain [v] schedule v.id r) {env₁ env₂ env₃ : ℕ → Reading} {p : SignedProposal}
    (hround : p.round = 0) (hproposer : p.proposerId = v.id) (hverify : p.verify = .ok ())
    (hfits : r.Fits (env₁ 0).now p.block) (happly : chain.applyBlock p.block = .ok chain')
    {m m' : ConsensusMessage} (hm : IsVote v.id p.block.height 0 .prevote p.block.hash m)
    (hm' : IsVote v.id p.block.height 0 .precommit p.block.hash m')
    (hsign : (env₁ 0).sign
      (ConsensusMessage.unsignedBytes p.block.height 0 v.id .prevote p.block.hash)
        = .ok m.signature)
    (hsign' : (env₂ 0).sign
      (ConsensusMessage.unsignedBytes p.block.height 0 v.id .precommit p.block.hash)
        = .ok m'.signature) :
    ∃ r₁ r₂ r₃, r.step env₁ (.receiveProposal p) = ([m], r₁) ∧
      r₁.step env₂ (.receiveVote m) = ([m'], r₂) ∧ r₂.step env₃ (.receiveVote m') = ([], r₃) ∧
      r₃.chain = chain' ∧ r₃.finalized = [⟨p.block, 0, [m']⟩] ∧
      r₃.pendingFinalized = [⟨p.block, 0, [m']⟩] := by
  have hfresh := Fresh.started hpositive hbounded hr
  obtain ⟨r₁, hproposal, hcandidate, hchain₁, hfinalized₁, htaken₁⟩ :=
    hfresh.receiveProposal (env₁ 0) (hr.place hverify hfits) hround hproposer hverify hfits hm hsign
  obtain ⟨r₂, hprevote, hcandidate', hchain₂, hfinalized₂, htaken₂⟩ :=
    hcandidate.prevote hm hm' hsign'
  obtain ⟨_, _, _, _, _, _, _, _, heq⟩ := hr.eq
  have hchain : r.chain = chain := by rw [heq]
  have hempty : r.finalized = [] := by rw [heq]
  have hnone : r.pendingFinalized = [] := by rw [heq]
  obtain ⟨r₃, hprecommit, hchain₃, hfinalized₃, htaken₃⟩ :=
    hcandidate'.precommit (env₃ 0) hm' (by rw [hchain₂, hchain₁, hchain]; exact happly)
  rw [hfinalized₂, hfinalized₁, hempty, List.nil_append] at hfinalized₃
  rw [htaken₂, htaken₁, hnone, List.nil_append] at htaken₃
  exact ⟨r₁, r₂, r₃, step_receiveProposal hproposal, step_receiveVote (some m') hprevote,
    step_receiveVote none hprecommit, hchain₃, hfinalized₃, htaken₃⟩

end ConsensusRuntime

/-! ## The network of two keys -/

namespace Devnet

/-- The key of the seed `[1; 32]`. -/
def validatorKey : Bytes :=
  beBytes 32 0x8a88e3dd7409f195fd52db2d3cba5d72ca6709bf1d94121bf3748801b40f6f5c

/-- The key of the seed `[2; 32]`. -/
def userKey : Bytes :=
  beBytes 32 0x8139770ea87d175f56a35466c34c7ecccb8d8a91b4ee37a25df60f5b8fc9b394

/-- The address of the validator. -/
def validator : String := hexEncode validatorKey

/-- The address of the user. -/
def user : String := hexEncode userKey

/-- A digest written as a number. -/
def digest (n : ℕ) : String := hexEncode (beBytes 32 n)

/-- A signature with its two halves written as numbers. -/
def signature (r s : ℕ) : String := hexEncode (beBytes 32 r ++ beBytes 32 s)

/-! ### Transactions and blocks -/

/-- The validator pays the user. -/
def transfer : Transaction :=
  { sender := validator
    receiver := user
    amount := 10
    fee := 5
    nonce := 0
    signature := signature
      0x61655a58e72591f05ab3b35ee6d87bf62cff84040757bf2a548ffda3fc98ec81
      0x0c64738f1a9fc2b50beeb5acbaeaff79fbd027a3cfa189fc85b656d879c3bb0e }

/-- The user pays with coins it does not have. -/
def overdraft : Transaction :=
  { sender := user
    receiver := validator
    amount := 10
    fee := 5
    nonce := 0
    signature := signature
      0xa5068dd2eefb5de9c6ec8a3a2beb1ef31fb8baee571302f2cb890d53c7d0c6db
      0xaafa250f81adbb7b37fc0ed2e96c7f10ef413e831dcabdd7b76a4f857652220a }

/-- The hash of the genesis block. -/
def genesisHash : String :=
  digest 0xcb7d14a5b50a7dca609733cf707d3bb21f607c04287e08f708a63f2394c01375

/-- A block of the validator. -/
def block (height : UInt64) (previousHash : String) (timestamp : UInt64)
    (transactions : List Transaction) (hash : ℕ) : Block :=
  { height
    previousHash
    timestamp
    producer := validator
    transactions
    systemEvents := []
    hash := digest hash }

/-- An empty block on the genesis block. -/
def first : Block :=
  block 1 genesisHash 100 []
    0x8309ec79c4f6e6c451217fea8c1c94113eb3059bb250eec1f1aeed2b846f55e0

/-- Another block on the genesis block. -/
def rival : Block :=
  block 1 genesisHash 200 []
    0x545c442c42d2a79c07f75f5aa70b9180aa58e30c10143aedcae9276888da5f14

/-- A block on the first one. -/
def second : Block :=
  block 2 first.hash 300 []
    0x45920fcb3aee75828136fe6895a104e2f4e8ebd72402dadc43cbd7012de465a2

/-- The block with the transfer. -/
def paid : Block :=
  block 1 genesisHash 100 [transfer]
    0x3e8425f32db3484c53672e199f59ede3346cdec7bdf42a8b7cd8c73607b16ecb

/-- The block with the overdraft. -/
def overdrawn : Block :=
  block 1 genesisHash 100 [overdraft]
    0xfb106b531a72e1a8be8b9cf4b149ad32979f6fa9c909358469ede71ba8ed6b25

/-! ### Signatures -/

/-- A vote of the validator in round 0. -/
def vote (voteType : VoteType) (b : Block) (r s : ℕ) : ConsensusMessage :=
  { height := b.height
    round := 0
    validatorId := validator
    voteType
    blockHash := b.hash
    signature := signature r s }

/-- A proposal of the validator in round 0. -/
def proposal (b : Block) (r s : ℕ) : SignedProposal :=
  { height := b.height
    round := 0
    proposerId := validator
    validRound := none
    block := b
    signature := signature r s }

def firstPrevote : ConsensusMessage :=
  vote .prevote first
    0x340acec31a304dbef1d1c3fde2f2f008ca423992973ffd3c7f6a07050c48d2f4
    0x726a9bf2505a7585974511db5f89fa507190e6e2d2a2f778db0577cb9d521f0a

def firstPrecommit : ConsensusMessage :=
  vote .precommit first
    0xb6977b66c05f0d6e3f271aafb1347f6f22f15cdf37a2c1165f509fe93e444baf
    0xdecb752fbdd7f49a241e01023adb2271f8ba00ec005990ad3d7ef836a0a3b700

def rivalPrevote : ConsensusMessage :=
  vote .prevote rival
    0x204883638a61fd32c1ee4c534746b40dce1e3b30449adb24885a464e5d5bfb32
    0xd1903a65f449f3e51d7b62633b10baff63058302bd412fea319c1695fdf80b0b

def secondPrecommit : ConsensusMessage :=
  vote .precommit second
    0xc06dc06b496a26217e4a186757848691f01d4e5f3425e53909331df5e118b87e
    0xd03fd80e061a2bfb387fc615d731d3edd6095154e2d44839a694ca37dd306402

def paidPrecommit : ConsensusMessage :=
  vote .precommit paid
    0x9e92d7cefc942e6a34eea3aa5e5bd6513b4c19c7247120388b4cb457453cb544
    0x98d193afba6fb2fe8dcb2cc812bc2f5bdf33af369ebb491d43087aea959c400d

def overdrawnPrevote : ConsensusMessage :=
  vote .prevote overdrawn
    0x44efecb41cc7cd599fbffcf652e0f7762c17fda43334986d3856cf083b04d992
    0xf434c8a842b18a0441777dd9866059b755faaec4c7d2c06f383f42c5ced61500

def firstProposal : SignedProposal :=
  proposal first
    0x6bca0eb6cef664a4a9e2645255c135a0c4287da038594e17ed5bb132f1b0f2e9
    0x42c6914082b2f10e788340614660b30d2462214b390cf682dbf278b02d463003

def rivalProposal : SignedProposal :=
  proposal rival
    0x243b030cf0096e50e76d1aa7d92b3978e841c971a7561662a2e85bf76a9d42ab
    0x4a3d9e1f84fc5c968f5f14087d50c19c40846c787d5e6916110ad654aaca0c0c

def overdrawnProposal : SignedProposal :=
  proposal overdrawn
    0xcd587216e02ab5125cb69a11274e07778203bf31653498ebff90e0eb9cf5d226
    0x2fdc987faddf8cc8145432a3f74cd503e6f7519b489d026f865900b464a7a20d

/-- The votes the validator signed. -/
def votes : List ConsensusMessage :=
  [firstPrevote, firstPrecommit, rivalPrevote, secondPrecommit, paidPrecommit, overdrawnPrevote]

/-- The proposals the validator signed. -/
def proposals : List SignedProposal := [firstProposal, rivalProposal, overdrawnProposal]

/-- Every signature that was made: address, message and signature. -/
def signatures : List (String × Bytes × String) :=
  votes.map (fun m => (m.validatorId, ConsensusMessage.unsignedBytes m.height m.round
    m.validatorId m.voteType m.blockHash, m.signature)) ++
  proposals.map (fun p => (p.proposerId, SignedProposal.unsignedBytes p.height p.round
    p.proposerId p.block.hash p.validRound, p.signature)) ++
  [transfer, overdraft].map fun tx => (tx.sender, tx.signingBytes, tx.signature)

/-- Is a signature among those made? -/
def signedIn (made : List (String × Bytes × String)) (key message signature : Bytes) : Bool :=
  made.contains (hexEncode key, message, hexEncode signature)

/-- SHA-256 and the Ed25519 signatures made above. Ethereum accounts and node keys do not occur. -/
@[reducible] def primitives : Primitives where
  sha256 bytes := ⟨Sha256.hash bytes, Sha256.length_hash bytes⟩
  keccak256 _ := ⟨List.replicate 32 0, rfl⟩
  ed25519Key key := decide (key = validatorKey ∨ key = userKey)
  ed25519Verify key message signature :=
    decide ((hexEncode key, message, hexEncode signature) ∈ signatures)
  secp256k1Key _ := none
  ecdsaSignature _ := false
  ecdsaVerify _ _ _ := false
  ecdsaRecover _ _ _ := none
  peerKey _ := none
  peerIdOf _ := ""
  peerVerify _ _ _ := false

/-- Signatures of the two keys are accepted where Ed25519 accepts both. -/
lemma verifySignature_of_keys [P : Primitives] {address sig : String} {message : Bytes}
    (haddress : address = validator ∨ address = user) (hsig : ∃ r s, sig = signature r s)
    (hkeys : P.ed25519Key validatorKey = true ∧ P.ed25519Key userKey = true)
    (hverify : ∀ key bytes, hexEncode key = address → hexEncode bytes = sig →
      P.ed25519Verify key message bytes = true) :
    verifySignature address message sig = .ok () := by
  obtain ⟨r, s, rfl⟩ := hsig
  have hlength : (beBytes 32 r ++ beBytes 32 s).length = 64 := by simp
  rcases haddress with rfl | rfl
  · exact verifySignature_hexEncode.mpr ⟨length_beBytes 32 _, hlength, hkeys.1,
      hverify _ _ rfl rfl⟩
  · exact verifySignature_hexEncode.mpr ⟨length_beBytes 32 _, hlength, hkeys.2,
      hverify _ _ rfl rfl⟩

section
attribute [local instance] primitives

/-- The signatures of the list are accepted. -/
lemma verifySignature_of_mem {address sig : String} {message : Bytes}
    (haddress : address = validator ∨ address = user) (hsig : ∃ r s, sig = signature r s)
    (h : (address, message, sig) ∈ signatures) :
    verifySignature address message sig = .ok () := by
  refine verifySignature_of_keys haddress hsig
    ⟨decide_eq_true (.inl rfl), decide_eq_true (.inr rfl)⟩ ?_
  rintro key bytes rfl rfl
  exact decide_eq_true h

lemma verify_vote : ∀ m ∈ votes, m.verify = .ok () := by
  intro m hm
  have hshape : m.validatorId = validator ∧ ∃ r s, m.signature = signature r s := by
    simp only [votes, List.mem_cons, List.not_mem_nil, or_false] at hm
    rcases hm with rfl | rfl | rfl | rfl | rfl | rfl <;> exact ⟨rfl, _, _, rfl⟩
  exact verifySignature_of_mem (.inl hshape.1) hshape.2
    (List.mem_append_left _ (List.mem_append_left _ (List.mem_map_of_mem hm)))

/-- A vote of the list is one of the validator in round 0. -/
lemma isVote {m : ConsensusMessage} (h : m ∈ votes) :
    IsVote validator m.height 0 m.voteType m.blockHash m := by
  have hshape : m.validatorId = validator ∧ m.round = 0 := by
    simp only [votes, List.mem_cons, List.not_mem_nil, or_false] at h
    rcases h with rfl | rfl | rfl | rfl | rfl | rfl <;> exact ⟨rfl, rfl⟩
  exact ⟨hshape.1, rfl, hshape.2, rfl, rfl, verify_vote m h⟩

/-! ### Hashes -/

lemma digest_eq {n : ℕ} {bytes : Bytes} (h : Sha256.hash bytes = beBytes 32 n) :
    digest n = sha256Hex bytes := by
  rw [digest, ← h]
  rfl

lemma genesis_hash : genesisHash = Block.genesis.hash :=
  digest_eq (by decide)

/-- The blocks carry their own hashes. -/
lemma hash_eq : ∀ b ∈ [first, rival, second, paid, overdrawn], b.hash = b.calculateHash := by
  decide +kernel

lemma first_hash : first.hash = first.calculateHash := hash_eq first (by simp)

lemma rival_hash : rival.hash = rival.calculateHash := hash_eq rival (by simp)

lemma second_hash : second.hash = second.calculateHash := hash_eq second (by simp)

lemma paid_hash : paid.hash = paid.calculateHash := hash_eq paid (by simp)

lemma overdrawn_hash : overdrawn.hash = overdrawn.calculateHash := hash_eq overdrawn (by simp)

lemma transfer_id : Sha256.hash transfer.idPreimage
    = beBytes 32 0x4532e77569c9812708d622e1c14d8c1ca6781db9f6b7007e7a2ad986b3e1acd1 := by
  decide +kernel

/-! ### The node -/

/-- The validator with its voting power. -/
def self : Validator := ⟨validator, 100⟩

/-- The ledger at the genesis block, with all coins at the validator. -/
def chain : Blockchain := Blockchain.withChainId 1 [(validator, 1000)]

/-- The node of the validator right after its start. -/
def node : ConsensusRuntime :=
  { chain
    consensus := BftConsensus.opened (HashMap.ofList [(validator, 100)]) 100 1
    validator
    pending := none
    validBlock := none
    deadline := 3000
    timeouts := ⟨3000, 2000, 2000⟩
    validators := [self]
    precommits := []
    deferredVotes := []
    finalized := []
    pendingFinalized := []
    eventSchedule := EventSchedule.empty
    scheduleValid := EventSchedule.validate_empty }

/-- A reading of the clock at which every block lies in the past, with one signature. -/
def reading (signature : String) : Reading :=
  { now := some 1000, instant := 0, sign := fun _ => .ok signature }

lemma node_withSigner :
    ConsensusRuntime.withSigner chain [self] validator ⟨3000, 2000, 2000⟩ 0 = .ok node := rfl

lemma node_started : ConsensusRuntime.Started chain [self] EventSchedule.empty validator node :=
  ⟨⟨3000, 2000, 2000⟩, 0, node, node_withSigner, rfl⟩

lemma node_fresh : ConsensusRuntime.Fresh self node :=
  ConsensusRuntime.Fresh.started (by decide) (by decide) node_started

/-- A block of the validator on the genesis block fits the node. -/
lemma node_fits {timestamp : UInt64} {transactions : List Transaction} {hash : ℕ}
    (htime : timestamp ≤ 1000) :
    node.Fits (some 1000) (block 1 genesisHash timestamp transactions hash) := by
  refine ⟨rfl, genesis_hash, ?_⟩
  simp only [ConsensusRuntime.validateScheduledBlock, bind_eq_ok, okOr_eq_ok, ensure_eq_ok]
  refine ⟨Block.genesis, rfl, (), UInt64.le_iff_toNat_le.mpr (Nat.zero_le _), 1000, rfl, (), ?_, (),
    rfl, rfl⟩
  have hle := UInt64.le_iff_toNat_le.mp htime
  change timestamp.toNat ≤ 1000 at hle
  refine le_trans hle ?_
  decide

lemma verify_proposal {p : SignedProposal} (hp : p ∈ proposals)
    (hhash : p.block.hash = p.block.calculateHash) : p.verify = .ok () := by
  have hshape : p.height = p.block.height ∧ p.proposerId = validator ∧
      ∃ r s, p.signature = signature r s := by
    simp only [proposals, List.mem_cons, List.not_mem_nil, or_false] at hp
    rcases hp with rfl | rfl | rfl <;> exact ⟨rfl, rfl, _, _, rfl⟩
  simp only [SignedProposal.verify, bind_eq_ok, ensure_eq_ok]
  refine ⟨(), hshape.1, (), hhash, verifySignature_of_mem (.inl hshape.2.1) hshape.2.2 ?_⟩
  exact List.mem_append_left _ (List.mem_append_right _ (List.mem_map_of_mem hp))

/-- The node answers a proposal of a block that fits with the prevote for it. -/
lemma node_receiveProposal {p : SignedProposal} {m : ConsensusMessage} (hp : p ∈ proposals)
    (hm : m ∈ votes) (hplace : p.height = 1 ∧ p.round = 0 ∧ p.proposerId = validator)
    (hfits : node.Fits (some 1000) p.block) (hhash : p.block.hash = p.block.calculateHash)
    (hvote : m.height = p.block.height ∧ m.voteType = .prevote ∧ m.blockHash = p.block.hash) :
    ∃ after, node.receiveProposal (reading m.signature) p = (.ok m, after) ∧
      ConsensusRuntime.Candidate self p.block .prevote after ∧ after.chain = chain := by
  have hisVote := isVote hm
  rw [hvote.1, hvote.2.1, hvote.2.2] at hisVote
  obtain ⟨after, hreceive, hcandidate, hchain, _, _⟩ := node_fresh.receiveProposal
    (reading m.signature) hplace.1 hplace.2.1 hplace.2.2 (verify_proposal hp hhash) hfits hisVote
    rfl
  exact ⟨after, hreceive, hcandidate, hchain⟩

lemma node_receives_first : ∃ after,
    node.receiveProposal (reading firstPrevote.signature) firstProposal
      = (.ok firstPrevote, after) ∧
      ConsensusRuntime.Candidate self first .prevote after ∧ after.chain = chain :=
  node_receiveProposal (p := firstProposal) (by simp [proposals]) (by simp [votes])
    ⟨rfl, rfl, rfl⟩ (node_fits (by decide)) first_hash ⟨rfl, rfl, rfl⟩

lemma node_receives_rival : ∃ after,
    node.receiveProposal (reading rivalPrevote.signature) rivalProposal
      = (.ok rivalPrevote, after) ∧
      ConsensusRuntime.Candidate self rival .prevote after ∧ after.chain = chain :=
  node_receiveProposal (p := rivalProposal) (by simp [proposals]) (by simp [votes])
    ⟨rfl, rfl, rfl⟩ (node_fits (by decide)) rival_hash ⟨rfl, rfl, rfl⟩

lemma node_receives_overdrawn : ∃ after,
    node.receiveProposal (reading overdrawnPrevote.signature) overdrawnProposal
      = (.ok overdrawnPrevote, after) ∧
      ConsensusRuntime.Candidate self overdrawn .prevote after ∧ after.chain = chain :=
  node_receiveProposal (p := overdrawnProposal) (by simp [proposals]) (by simp [votes])
    ⟨rfl, rfl, rfl⟩ (node_fits (by decide)) overdrawn_hash ⟨rfl, rfl, rfl⟩

/-! ### Execution -/

lemma user_ne_validator : user ≠ validator := by
  intro h
  exact absurd (hexEncode_inj h) (by decide)

lemma foundation_ne {bs : Bytes} (h : bs.length = 32) : foundationFeeAddress ≠ hexEncode bs := by
  intro heq
  have hlength := textLen_hexEncode bs
  rw [← heq, h] at hlength
  revert hlength
  decide

lemma transfer_authentic : authenticate 1 transfer = .ok () := by
  have hraw : startsWith transfer.signature "ethraw:" = false :=
    startsWith_hexEncode 'e' ['h', 'r', 'a', 'w', ':'] (b := 't') (by decide)
  have heth : startsWith transfer.sender "0x" = false :=
    startsWith_hexEncode '0' [] (b := 'x') (by decide)
  rw [authenticate, hraw, verifyTransaction, hraw, heth]
  refine verifySignature_of_mem (.inl rfl) ⟨_, _, rfl⟩ ?_
  exact List.mem_append_right _ List.mem_cons_self

lemma transfer_applies : ∃ balances, applyTransaction 1 validator
    (HashMap.ofList [(validator, 1000)], ∅) transfer
      = .ok (balances, (∅ : Nonces).insert validator 1) := by
  have hfoundation : foundationFeeAddress ≠ validator := foundation_ne (length_beBytes 32 _)
  have hfoundation' : foundationFeeAddress ≠ user := foundation_ne (length_beBytes 32 _)
  have huser := user_ne_validator
  set b₀ : Balances := HashMap.ofList [(validator, 1000)] with hb₀
  set b₁ : Balances := b₀.insert validator 985 with hb₁
  set b₂ : Balances := b₁.insert user 10 with hb₂
  set b₃ : Balances := b₂.insert validator 989 with hb₃
  have hsender : balanceIn b₀ validator = 1000 := by
    simp [balanceIn, hb₀, HashMap.ofList]
  have hreceiver : balanceIn b₁ user = 0 := by
    simp [balanceIn, hb₁, hb₀, HashMap.ofList, huser]
  have hproducer : balanceIn b₂ validator = 985 := by
    simp [balanceIn, hb₂, hb₁, huser.symm]
  have hempty : balanceIn b₃ foundationFeeAddress = 0 := by
    simp [balanceIn, hb₃, hb₂, hb₁, hb₀, HashMap.ofList, hfoundation, hfoundation']
  have hdebit : b₀.insert validator (balanceIn b₀ validator - 15) = b₁ := by
    rw [hsender]
    rfl
  refine ⟨b₃.insert foundationFeeAddress 1, ?_⟩
  simp only [applyTransaction, bind_eq_ok, ensure_eq_ok, okOr_eq_ok, pure_eq_ok]
  refine ⟨(), transfer_authentic, (), by decide, (), rfl, 15, rfl, (), ?_, 10, ?_, 1, rfl, b₃, ?_,
    b₃.insert foundationFeeAddress 1, ?_, 1, rfl, rfl⟩
  · show (15 : U128) ≤ balanceIn b₀ validator
    rw [hsender]
    decide
  · show U128.checkedAdd
      (balanceIn (b₀.insert validator (balanceIn b₀ validator - 15)) user) 10 = some 10
    rw [hdebit, hreceiver]
    rfl
  · show creditBalance
      ((b₀.insert validator (balanceIn b₀ validator - 15)).insert user 10) validator 4 _ = .ok b₃
    rw [hdebit]
    exact creditBalance_eq_ok (by decide) (by rw [hproducer]; rfl)
  · exact creditBalance_eq_ok (by decide) (by rw [hempty]; rfl)

/-- The block with the transfer is applied. -/
lemma paid_applies : ∃ c, chain.applyBlock paid = .ok c ∧
    c.nextNonces = (∅ : Nonces).insert validator 1 := by
  obtain ⟨balances, htransfer⟩ := transfer_applies
  refine ⟨_, Blockchain.applyBlock_eq_ok.mpr ⟨Block.genesis,
    ⟨balances, (∅ : Nonces).insert validator 1, ∅⟩, rfl, ⟨rfl, genesis_hash, paid_hash⟩,
    executeBlock_eq_ok.mpr ⟨balances, ?_, rfl⟩, rfl⟩, rfl⟩
  exact foldlM_cons_eq_ok.mpr ⟨_, htransfer, rfl⟩

/-- An empty block of the validator on the tip is applied. -/
lemma empty_applies {c : Blockchain} {previous : Block} (height timestamp : UInt64) {hash : ℕ}
    (hlast : c.blocks.getLast? = some previous) (hheight : height.toNat = previous.height.toNat + 1)
    (hhash : digest hash = (block height previous.hash timestamp [] hash).calculateHash) :
    c.applyBlock (block height previous.hash timestamp [] hash)
      = .ok { c with blocks := c.blocks ++ [block height previous.hash timestamp [] hash] } :=
  Blockchain.applyBlock_eq_ok.mpr ⟨previous, c.state, hlast, ⟨hheight, rfl, hhash⟩, rfl, rfl⟩

lemma first_applies : chain.applyBlock first = .ok { chain with blocks := [Block.genesis, first] } := by
  have hlast : chain.blocks.getLast? = some Block.genesis := rfl
  have h := empty_applies 1 100 hlast rfl (by rw [← genesis_hash]; exact first_hash)
  rw [← genesis_hash] at h
  exact h

lemma second_applies : Blockchain.applyBlock { chain with blocks := [Block.genesis, first] } second
    = .ok { chain with blocks := [Block.genesis, first, second] } :=
  empty_applies (c := { chain with blocks := [Block.genesis, first] }) 2 300 rfl rfl second_hash

def firstCertificate : FinalityCertificate := ⟨first, 0, [firstPrecommit]⟩

def secondCertificate : FinalityCertificate := ⟨second, 0, [secondPrecommit]⟩

/-- A block with a precommit of the list is certified, however often the precommit is repeated. -/
lemma verify_certificate {b : Block} {m : ConsensusMessage} (n : ℕ) (hm : m ∈ votes)
    (hhash : b.hash = b.calculateHash)
    (hplace : m.height = b.height ∧ m.voteType = .precommit ∧ m.blockHash = b.hash) :
    FinalityCertificate.verify ⟨b, 0, List.replicate (n + 1) m⟩ [self] = .ok () := by
  refine verify_solo (v := self) (by decide) hhash (fun m' hm' => ?_) (by simp)
  rw [List.eq_of_mem_replicate hm']
  obtain ⟨hheight, htype, hblock⟩ := hplace
  rw [← hheight, ← htype, ← hblock]
  exact isVote hm

lemma verify_firstCertificate : firstCertificate.verify [self] = .ok () :=
  verify_certificate 0 (by simp [votes]) first_hash ⟨rfl, rfl, rfl⟩

lemma verify_secondCertificate : secondCertificate.verify [self] = .ok () :=
  verify_certificate 0 (by simp [votes]) second_hash ⟨rfl, rfl, rfl⟩

/-- The node finalises the first block with its own votes. -/
lemma node_finalizes_first : ∃ r₁ r₂ r₃,
    node.step (fun _ => reading firstPrevote.signature) (.receiveProposal firstProposal)
      = ([firstPrevote], r₁) ∧
    r₁.step (fun _ => reading firstPrecommit.signature) (.receiveVote firstPrevote)
      = ([firstPrecommit], r₂) ∧
    r₂.step (fun _ => reading "") (.receiveVote firstPrecommit) = ([], r₃) ∧
    r₃.chain = { chain with blocks := [Block.genesis, first] } ∧
    r₃.finalized = [firstCertificate] ∧ r₃.pendingFinalized = [firstCertificate] :=
  ConsensusRuntime.alone_finalizes (v := self) (p := firstProposal) (by decide) (by decide)
    node_started rfl rfl (verify_proposal (by simp [proposals]) first_hash)
    (node_fits (by decide)) first_applies (isVote (m := firstPrevote) (by simp [votes]))
    (isVote (m := firstPrecommit) (by simp [votes])) rfl rfl

end

end Devnet

end IeumChain
