import IeumChain.NodeLoop
import IeumChain.QuorumTheorems
import IeumChain.SyncTheorems

/-!
# A round of votes for one block

A node that has accepted a proposal is given votes for its block.

* `Ballot` fixes a round: who votes, for which block, and which validators the given votes are
  from. `Base` and `Stage` say what the runtime of a node looks like after the proposal: it counted
  votes of expected voters only, and its phase is the one the counted votes call for.
* One call of `receive_vote` keeps this (`Active.receiveVote`), and so does the call with the node's
  own answer to it (`Active.feed`).
* `Kept` is what the loops of the node need of such a property: it holds before the proposal
  (`waiting_kept`) and after it (`settled_kept`).
-/

namespace IeumChain

open Lib

/-! ## What a vote changes -/

namespace BftConsensus
variable {c : BftConsensus} {m : ConsensusMessage}

/-- The phase `Prevote` takes prevotes only. -/
lemma eq_prevote_of_takesVote {t : VoteType} (h : takesVote .prevote t = true) : t = .prevote := by
  cases t with
  | prevote => rfl
  | precommit => cases h

/-- A machine that sees no quorum only counts the vote. -/
lemma acceptVote_of_not_quorum (h : ¬ (c.addVoter m).hasQuorum (m.voteType, m.blockHash) = true) :
    c.acceptVote m = c.addVoter m := if_neg fun hq => h hq.1

/-- A prevote after the phase `Prevote` is only counted. -/
lemma acceptVote_late_prevote (htype : m.voteType = .prevote) (hphase : c.phase ≠ .prevote) :
    c.acceptVote m = c.addVoter m := by
  rw [acceptVote]
  split
  · rw [onQuorum, htype]
    exact if_neg hphase
  · rfl

/-- A finalised machine only counts votes. -/
lemma acceptVote_of_finalized (hphase : c.phase = .finalized) : c.acceptVote m = c.addVoter m :=
  if_neg fun hq => hq.2 hphase

/-- A quorum of prevotes locks the block. -/
lemma acceptVote_locks (htype : m.voteType = .prevote) (hphase : c.phase = .prevote)
    (h : (c.addVoter m).hasQuorum (m.voteType, m.blockHash) = true) :
    c.acceptVote m = { c.addVoter m with
      validValue := some m.blockHash, validRound := some c.round
      lockedValue := some m.blockHash, lockedRound := some c.round, phase := .precommit } := by
  have hopen : (c.addVoter m).phase ≠ .finalized := by
    show c.phase ≠ .finalized
    rw [hphase]
    decide
  rw [acceptVote]
  dsimp only
  rw [if_pos ⟨h, hopen⟩, onQuorum, htype]
  exact if_pos hphase

/-- A quorum of precommits finalises the block. -/
lemma acceptVote_finalizes (htype : m.voteType = .precommit) (hphase : c.phase ≠ .finalized)
    (h : (c.addVoter m).hasQuorum (m.voteType, m.blockHash) = true) :
    c.acceptVote m = { c.addVoter m with phase := .finalized, finalized := some m.blockHash } := by
  have hopen : (c.addVoter m).phase ≠ .finalized := hphase
  rw [acceptVote]
  dsimp only
  rw [if_pos ⟨h, hopen⟩, onQuorum, htype]

end BftConsensus

/-! ## A round of votes for one block -/

/-- A round in which a block is voted for, as a node sees it. -/
structure Ballot where
  validators : List Validator
  self : String
  height : UInt64
  round : UInt32
  block : Block
  /-- The chain of the node without and with the block. -/
  before : Blockchain
  after : Blockchain
  /-- The validators whose votes the node is given. -/
  others : VoteType → Finset String

namespace Ballot

/-- Whose votes the node can count: the given ones and its own. -/
def expected (b : Ballot) (t : VoteType) : Finset String := insert b.self (b.others t)

/-- More than two thirds of the power. -/
def Quorum (b : Ballot) (voters : Finset String) : Prop :=
  2 * sumPower b.validators < 3 * weight (powerIn b.validators) voters

lemma Quorum.mono {b : Ballot} {s t : Finset String} (h : b.Quorum s) (hst : s ⊆ t) :
    b.Quorum t := by
  have hle := weight_mono (powerIn b.validators) hst
  unfold Quorum at h ⊢
  omega

lemma not_quorum_empty (b : Ballot) : ¬ b.Quorum ∅ := by
  have hzero : weight (powerIn b.validators) ∅ = 0 := rfl
  rw [Quorum, hzero]
  omega

section
variable [Primitives]

/-- What the round is about: a block that fits on the chain, and validators the node is one of. -/
structure Valid (b : Ballot) : Prop where
  ids : (b.validators.map Validator.id).Nodup
  power : sumPower b.validators < 2 ^ 63
  registered : b.self ∈ idsOf b.validators
  height : b.block.height = b.height
  hash : b.block.hash = b.block.calculateHash
  applies : b.before.applyBlock b.block = .ok b.after

/-- A vote of an expected validator for the block. -/
structure Counts (b : Ballot) (m : ConsensusMessage) : Prop where
  height : m.height = b.height
  round : m.round = b.round
  blockHash : m.blockHash = b.block.hash
  verify : m.verify = .ok ()
  registered : m.validatorId ∈ idsOf b.validators
  expected : m.validatorId ∈ b.expected m.voteType

/-- The signer answers with signatures of the node's votes in the round. -/
def Signs (b : Ballot) (env : Reading) : Prop :=
  ∀ t, ∃ m, IsVote b.self b.height b.round t b.block.hash m ∧
    env.sign (ConsensusMessage.unsignedBytes b.height b.round b.self t b.block.hash)
      = .ok m.signature

/-- The votes for the block a runtime has counted. -/
def counted (b : Ballot) (r : ConsensusRuntime) (t : VoteType) : Finset String :=
  r.consensus.voters (t, b.block.hash)

/-- One more vote is counted. -/
def Adds (b : Ballot) (m : ConsensusMessage) (r r' : ConsensusRuntime) : Prop :=
  ∀ t, b.counted r' t
    = if t = m.voteType then insert m.validatorId (b.counted r t) else b.counted r t

namespace Adds
variable {b : Ballot} {m : ConsensusMessage} {r r' : ConsensusRuntime}

lemma mono (h : b.Adds m r r') (t : VoteType) : b.counted r t ⊆ b.counted r' t := by
  rw [h]
  split
  · exact Finset.subset_insert _ _
  · exact subset_rfl

lemma other (h : b.Adds m r r') {t : VoteType} (ht : t ≠ m.voteType) :
    b.counted r' t = b.counted r t := by rw [h, if_neg ht]

lemma mem (h : b.Adds m r r') : m.validatorId ∈ b.counted r' m.voteType := by
  rw [h, if_pos rfl]
  exact Finset.mem_insert_self _ _

end Adds

/-- The runtime is that of the node in the round, and knows no vote of it for another block. -/
structure InRound (b : Ballot) (r : ConsensusRuntime) : Prop where
  runs : r.consensus.RunsFor b.validators
  listed : r.validators = b.validators
  own : r.validator = b.self
  height : r.consensus.height = b.height
  round : r.consensus.round = b.round
  history : ∀ t id hash,
    r.consensus.voteHistory.lookup (b.height, b.round, t, id) = some hash → hash = b.block.hash

/-- A runtime that agrees on the validators and the place, and knows no other vote, is in the
round as well. -/
lemma InRound.congr {b : Ballot} {r r' : ConsensusRuntime} (h : b.InRound r)
    (hvalidators : r'.consensus.validators = r.consensus.validators)
    (htotal : r'.consensus.totalPower = r.consensus.totalPower)
    (hheight : r'.consensus.height = r.consensus.height)
    (hround : r'.consensus.round = r.consensus.round)
    (hlisted : r'.validators = r.validators) (hown : r'.validator = r.validator)
    (hhistory : ∀ t id hash,
      r'.consensus.voteHistory.lookup (b.height, b.round, t, id) = some hash →
        hash = b.block.hash) : b.InRound r' := by
  refine ⟨⟨?_, ?_⟩, hlisted.trans h.listed, hown.trans h.own, hheight.trans h.height,
    hround.trans h.round, hhistory⟩
  · rw [hvalidators]
    exact h.runs.registered
  · rw [htotal]
    exact h.runs.total

/-- What holds of the runtime from the proposal on, in every phase. -/
structure Base (b : Ballot) (r : ConsensusRuntime) : Prop extends InRound b r where
  proposal : r.consensus.proposal = some b.block.hash
  counted : ∀ t, b.counted r t ⊆ idsOf b.validators ∧ b.counted r t ⊆ b.expected t
  /-- The precommits kept for the certificate are those counted. -/
  kept : ∀ m ∈ r.precommits, b.Counts m ∧ m.voteType = .precommit
  voters : votersOf r.precommits = b.counted r .precommit

/-- The phase is the one that the counted votes call for. -/
inductive Stage (b : Ballot) (r : ConsensusRuntime) : Prop where
  | prevote (hphase : r.consensus.phase = .prevote) (hpending : r.pending = some b.block)
      (hchain : r.chain = b.before) (hopen : ¬ b.Quorum (b.counted r .prevote))
      (hnone : b.counted r .precommit = ∅)
  | precommit (hphase : r.consensus.phase = .precommit) (hpending : r.pending = some b.block)
      (hchain : r.chain = b.before) (hquorum : b.Quorum (b.counted r .prevote))
      (hopen : ¬ b.Quorum (b.counted r .precommit))
  | finalized (hphase : r.consensus.phase = .finalized) (hpending : r.pending = none)
      (hchain : r.chain = b.after) (hquorum : b.Quorum (b.counted r .prevote))
      (hfinal : b.Quorum (b.counted r .precommit))

/-- The runtime in the round, after the proposal. -/
structure Active (b : Ballot) (r : ConsensusRuntime) : Prop extends Base b r where
  stage : b.Stage r

/-- The node's answer to a vote: a precommit of its own in the phase `Precommit`. -/
def Answers (b : Ballot) (r : ConsensusRuntime) (own : Option ConsensusMessage) : Prop :=
  (own = none ∧ r.consensus.phase ≠ .precommit) ∨
    ∃ m, own = some m ∧ r.consensus.phase = .precommit ∧ b.Counts m ∧ m.voteType = .precommit ∧
      m.validatorId = b.self

/-! ## One vote -/

/-- Keeping a precommit adds its validator to those of the precommits kept. -/
lemma votersOf_keepPrecommit (r : ConsensusRuntime) (m : ConsensusMessage) :
    votersOf (r.keepPrecommit m).precommits
      = if m.voteType = .precommit then insert m.validatorId (votersOf r.precommits)
        else votersOf r.precommits := by
  unfold ConsensusRuntime.keepPrecommit
  split
  · rename_i hnew
    rw [if_pos hnew.1]
    simp only [votersOf, List.map_append, List.map_cons, List.map_nil, List.toFinset_append,
      List.toFinset_cons, List.toFinset_nil]
    rw [Finset.union_comm, Finset.insert_union, Finset.empty_union]
  · rename_i hknown
    split
    · rename_i htype
      -- the validator has a precommit there already
      have hex : ∃ known ∈ r.precommits, known.validatorId = m.validatorId := by
        by_contra hnone
        push Not at hnone
        exact hknown ⟨htype, fun known hmem hsame => hnone known hmem hsame.2.2⟩
      obtain ⟨known, hmem, hid⟩ := hex
      have hvoter : m.validatorId ∈ votersOf r.precommits :=
        mem_votersOf.mpr ⟨known, hmem, hid⟩
      rw [Finset.insert_eq_of_mem hvoter]
    · rfl

lemma mem_keepPrecommit {r : ConsensusRuntime} {m known : ConsensusMessage}
    (h : known ∈ (r.keepPrecommit m).precommits) :
    known ∈ r.precommits ∨ (known = m ∧ m.voteType = .precommit) := by
  unfold ConsensusRuntime.keepPrecommit at h
  split at h
  · rename_i hnew
    rcases List.mem_append.mp h with h | h
    · exact .inl h
    · exact .inr ⟨List.mem_singleton.mp h, hnew.1⟩
  · exact .inl h

namespace Base
variable {b : Ballot} {r r' : ConsensusRuntime} {m : ConsensusMessage}

/-- The exact quorum test. -/
lemma hasQuorum_iff (h : b.Base r) (hb : b.Valid) (t : VoteType) :
    r.consensus.hasQuorum (t, b.block.hash) = true ↔ b.Quorum (b.counted r t) :=
  BftConsensus.hasQuorum_iff h.runs hb.power (h.counted t).1

/-- A vote for the block is recorded: no other vote of its validator is in the way. -/
lemma recordVote (h : b.Base r) (hm : b.Counts m) :
    ∃ s : BftConsensus.Records, r.consensus.recordVote m = (.ok (), r.consensus.withRecords s) ∧
      ∀ t id hash, s.voteHistory.lookup (b.height, b.round, t, id) = some hash →
        hash = b.block.hash := by
  unfold BftConsensus.recordVote
  split
  · rename_i previousHash hlookup
    rw [BftConsensus.historyKey, hm.height, hm.round] at hlookup
    rw [if_pos ((h.history _ _ _ hlookup).trans hm.blockHash.symm)]
    exact ⟨⟨r.consensus.voteHistory, r.consensus.voteMessages, r.consensus.evidence⟩, rfl,
      h.history⟩
  · refine ⟨⟨r.consensus.voteHistory.insert (BftConsensus.historyKey m) m.blockHash,
      r.consensus.voteMessages.insert (BftConsensus.historyKey m) m, r.consensus.evidence⟩, rfl,
      fun t id hash hlookup => ?_⟩
    rw [HashMap.lookup_insert] at hlookup
    split at hlookup
    · rw [← hm.blockHash]
      exact (Option.some.inj hlookup).symm
    · exact h.history t id hash hlookup

/-- A vote the phase takes is counted. -/
lemma handle (h : b.Base r) (hm : b.Counts m)
    (htakes : BftConsensus.takesVote r.consensus.phase m.voteType = true) :
    ∃ s : BftConsensus.Records,
      r.consensus.handle m = (.ok (), (r.consensus.withRecords s).acceptVote m) ∧
      ∀ t id hash, s.voteHistory.lookup (b.height, b.round, t, id) = some hash →
        hash = b.block.hash := by
  have hcheck : r.consensus.checkVote m = .ok () := by
    rw [BftConsensus.checkVote_eq_ok, h.height, h.round, h.runs.registered.mem]
    exact ⟨⟨hm.height, hm.round⟩, hm.registered, hm.verify, htakes⟩
  obtain ⟨s, hrecord, hs⟩ := h.recordVote hm
  refine ⟨s, ?_, hs⟩
  rw [BftConsensus.handle, hcheck, hrecord]
  exact if_pos (h.proposal.trans (congrArg some hm.blockHash.symm))

/-- The base holds after a vote was counted, whatever it did to phase, lock and chain. -/
lemma afterVote (h : b.Base r) (hm : b.Counts m) {s : BftConsensus.Records}
    (hs : ∀ t id hash, s.voteHistory.lookup (b.height, b.round, t, id) = some hash →
      hash = b.block.hash)
    (hvalidators : r'.consensus.validators = r.consensus.validators)
    (htotal : r'.consensus.totalPower = r.consensus.totalPower)
    (hheight : r'.consensus.height = r.consensus.height)
    (hround : r'.consensus.round = r.consensus.round)
    (hproposal : r'.consensus.proposal = r.consensus.proposal)
    (hhistory : r'.consensus.voteHistory = s.voteHistory)
    (hvotes : r'.consensus.votes = (r.consensus.addVoter m).votes)
    (hlisted : r'.validators = r.validators) (hown : r'.validator = r.validator)
    (hkept : r'.precommits = (r.keepPrecommit m).precommits) :
    b.Base r' ∧ b.Adds m r r' := by
  have hcounted : b.Adds m r r' := by
    intro t
    have hadd := BftConsensus.voters_addVoter r.consensus m (t, b.block.hash)
    rw [hm.blockHash] at hadd
    simp only [Prod.mk.injEq, and_true] at hadd
    rw [Ballot.counted, BftConsensus.voters, hvotes]
    exact hadd
  have hin : b.InRound r' := by
    refine h.toInRound.congr hvalidators htotal hheight hround hlisted hown ?_
    rw [hhistory]
    exact hs
  refine ⟨⟨hin, hproposal.trans h.proposal, fun t => ?_, fun known hknown => ?_, ?_⟩, hcounted⟩
  · rw [hcounted]
    split
    · rename_i ht
      exact ⟨Finset.insert_subset hm.registered (h.counted t).1,
        Finset.insert_subset (ht ▸ hm.expected) (h.counted t).2⟩
    · exact h.counted t
  · rw [hkept] at hknown
    rcases mem_keepPrecommit hknown with hknown | ⟨rfl, htype⟩
    · exact h.kept known hknown
    · exact ⟨hm, htype⟩
  · rw [hkept, votersOf_keepPrecommit, h.voters, hcounted]
    simp only [eq_comm]

end Base

/-- The runtime once a vote is in, up to the deadline and the block kept for a later proposal. -/
lemma receiveVote_eq {r : ConsensusRuntime} {m : ConsensusMessage} {c : BftConsensus}
    (env : Reading) (h : r.consensus.handle m = (.ok (), c)) :
    ∃ r' validBlock deadline,
      r' = { r with consensus := c, precommits := (r.keepPrecommit m).precommits
                    validBlock, deadline } ∧
      r.receiveVote env m = match c.phase with
        | .precommit => (r'.precommitPending env, r')
        | .finalized => r'.finalizePending
        | _ => (.ok none, r') := by
  have hkeep : { r with consensus := c }.keepPrecommit m
      = { r with consensus := c, precommits := (r.keepPrecommit m).precommits } := by
    unfold ConsensusRuntime.keepPrecommit
    split <;> rfl
  obtain ⟨validBlock, deadline, hphase⟩ := ConsensusRuntime.onPhaseChange_eq
    { r with consensus := c, precommits := (r.keepPrecommit m).precommits } env r.consensus.phase
  refine ⟨_, validBlock, deadline, rfl, ?_⟩
  rw [ConsensusRuntime.receiveVote, h]
  cases hnow : c.phase <;> simp only [hkeep, hphase, hnow]

/-- The runtime once a vote is in, before what its phase asks for is done. -/
structure Voted (b : Ballot) (r : ConsensusRuntime) (m : ConsensusMessage)
    (s : BftConsensus.Records) (r₁ : ConsensusRuntime) : Prop where
  base : b.Base r₁
  adds : b.Adds m r r₁
  consensus : r₁.consensus = (r.consensus.withRecords s).acceptVote m
  quorum : ((r.consensus.withRecords s).addVoter m).hasQuorum (m.voteType, m.blockHash) = true ↔
    b.Quorum (b.counted r₁ m.voteType)
  pending : r₁.pending = r.pending
  chain : r₁.chain = r.chain
  deferred : r₁.deferredVotes = r.deferredVotes

/-- The block is to be committed. -/
structure Due (b : Ballot) (r : ConsensusRuntime) : Prop where
  phase : r.consensus.phase = .finalized
  pending : r.pending = some b.block
  chain : r.chain = b.before
  hash : r.consensus.finalized = some b.block.hash
  prevotes : b.Quorum (b.counted r .prevote)
  precommits : b.Quorum (b.counted r .precommit)

namespace Voted
variable {b : Ballot} {r r₁ : ConsensusRuntime} {m : ConsensusMessage} {s : BftConsensus.Records}

/-- The phase after a vote is the one the votes call for, up to the commit. -/
lemma stage (h : b.Voted r m s r₁) (hr : b.Stage r) (hm : b.Counts m)
    (htakes : BftConsensus.takesVote r.consensus.phase m.voteType = true) :
    b.Stage r₁ ∨ b.Due r₁ := by
  have hc := h.consensus
  have hquorum := h.quorum
  have hsame : (r.consensus.withRecords s).phase = r.consensus.phase := rfl
  cases hr with
  -- a quorum of prevotes locks the block; no precommit is counted yet
  | prevote hphase hpending hchain hopen hnone =>
    have htype := BftConsensus.eq_prevote_of_takesVote (hphase ▸ htakes)
    have hprecommits : b.counted r₁ .precommit = ∅ := by
      rw [h.adds.other (by rw [htype]; decide), hnone]
    by_cases hq : b.Quorum (b.counted r₁ m.voteType)
    · rw [BftConsensus.acceptVote_locks htype (hsame.trans hphase) (hquorum.mpr hq)] at hc
      refine .inl (.precommit (by rw [hc]) (h.pending.trans hpending) (h.chain.trans hchain)
        (htype ▸ hq) ?_)
      rw [hprecommits]
      exact b.not_quorum_empty
    · rw [BftConsensus.acceptVote_of_not_quorum (mt hquorum.mp hq)] at hc
      exact .inl (.prevote (by rw [hc]; exact hphase) (h.pending.trans hpending)
        (h.chain.trans hchain) (htype ▸ hq) hprecommits)
  -- a late prevote changes nothing; a quorum of precommits finalises
  | precommit hphase hpending hchain hprevotes hopen =>
    cases htype : m.voteType with
    | prevote =>
      have hlate : (r.consensus.withRecords s).phase ≠ .prevote := by
        rw [hsame, hphase]
        decide
      rw [BftConsensus.acceptVote_late_prevote htype hlate] at hc
      rw [← h.adds.other (t := .precommit) (by rw [htype]; decide)] at hopen
      exact .inl (.precommit (by rw [hc]; exact hphase) (h.pending.trans hpending)
        (h.chain.trans hchain) (hprevotes.mono (h.adds.mono _)) hopen)
    | precommit =>
      by_cases hq : b.Quorum (b.counted r₁ m.voteType)
      · have hnot : (r.consensus.withRecords s).phase ≠ .finalized := by
          rw [hsame, hphase]
          decide
        rw [BftConsensus.acceptVote_finalizes htype hnot (hquorum.mpr hq)] at hc
        exact .inr ⟨by rw [hc], h.pending.trans hpending, h.chain.trans hchain,
          by rw [hc, hm.blockHash], hprevotes.mono (h.adds.mono _), htype ▸ hq⟩
      · rw [BftConsensus.acceptVote_of_not_quorum (mt hquorum.mp hq)] at hc
        exact .inl (.precommit (by rw [hc]; exact hphase) (h.pending.trans hpending)
          (h.chain.trans hchain) (hprevotes.mono (h.adds.mono _)) (htype ▸ hq))
  | finalized hphase hpending hchain hprevotes hfinal =>
    rw [BftConsensus.acceptVote_of_finalized (hsame.trans hphase)] at hc
    exact .inl (.finalized (by rw [hc]; exact hphase) (h.pending.trans hpending)
      (h.chain.trans hchain) (hprevotes.mono (h.adds.mono _))
      (hfinal.mono (h.adds.mono _)))

end Voted

namespace Active
variable {b : Ballot} {r : ConsensusRuntime} {m : ConsensusMessage} {env : Reading}

/-- The node's precommit for the candidate. -/
lemma precommitPending (h : b.Base r) (hb : b.Valid) (hsign : b.Signs env)
    (hpending : r.pending = some b.block) :
    ∃ m, r.precommitPending env = .ok (some m) ∧ b.Counts m ∧ m.voteType = .precommit ∧
      m.validatorId = b.self := by
  obtain ⟨m, hm, hsigned⟩ := hsign .precommit
  have hvote : r.signVote env b.height b.round .precommit b.block.hash = .ok m := by
    refine ConsensusRuntime.signVote_of_isVote ?_ ?_
    · rw [h.own]
      exact hm
    · rw [h.own]
      exact hsigned
  refine ⟨m, ?_, ⟨hm.height, hm.round, hm.blockHash, hm.verify, ?_, ?_⟩, hm.voteType,
    hm.validatorId⟩
  · simp only [ConsensusRuntime.precommitPending, bind_eq_ok, okOr_eq_ok, pure_eq_ok]
    refine ⟨b.block, hpending, m, ?_, rfl⟩
    rw [hb.height, h.round]
    exact hvote
  · rw [hm.validatorId]
    exact hb.registered
  · rw [hm.validatorId]
    exact Finset.mem_insert_self _ _

/-- The block is committed once the counted precommits are a quorum. -/
lemma finalizePending (h : b.Base r) (hb : b.Valid) (hpending : r.pending = some b.block)
    (hchain : r.chain = b.before) (hhash : r.consensus.finalized = some b.block.hash)
    (hquorum : b.Quorum (b.counted r .precommit)) :
    ∃ certificate, r.finalizePending = (.ok none, { r with
      pending := none, chain := b.after, finalized := r.finalized ++ [certificate]
      pendingFinalized := r.pendingFinalized ++ [certificate] }) := by
  have hcertificate : (r.certificateFor b.block).verify r.validators = .ok () := by
    have hcountable : Countable (r.certificateFor b.block).expects b.validators r.precommits := by
      refine ⟨fun vote hvote => ?_, fun vote hvote => (h.kept vote hvote).1.verify, ?_⟩
      · obtain ⟨hcounts, htype⟩ := h.kept vote hvote
        refine decide_eq_true ⟨hcounts.height.trans hb.height.symm, ?_, htype, hcounts.blockHash⟩
        exact hcounts.round.trans h.round.symm
      · rw [h.voters]
        exact (h.counted .precommit).1
    simp only [FinalityCertificate.verify, bind_eq_ok, ensure_eq_ok]
    refine ⟨(), hb.hash, ?_⟩
    rw [h.listed]
    refine (verifyVotes_iff hb.ids (lt_trans hb.power (by norm_num)) hcountable).mpr ?_
    rw [h.voters]
    exact hquorum
  refine ⟨r.certificateFor b.block, ?_⟩
  rw [ConsensusRuntime.finalizePending, hpending]
  have hcommit : { r with pending := none }.commit b.block = .ok { r with
      pending := none, chain := b.after
      finalized := r.finalized ++ [r.certificateFor b.block]
      pendingFinalized := r.pendingFinalized ++ [r.certificateFor b.block] } := by
    simp only [ConsensusRuntime.commit, bind_eq_ok, ensure_eq_ok, pure_eq_ok]
    exact ⟨(), hhash, (), hcertificate, b.after, hchain ▸ hb.applies, rfl⟩
  simp only [hcommit]

/-- The end of `receive_vote` where no block is left to commit. -/
lemma answers (h : b.Active r) (hb : b.Valid) (hsign : b.Signs env) :
    ∃ own, (match r.consensus.phase with
        | .precommit => (r.precommitPending env, r)
        | .finalized => r.finalizePending
        | _ => (.ok none, r)) = (.ok own, r) ∧ b.Answers r own := by
  cases h.stage with
  | prevote hphase =>
    rw [hphase]
    exact ⟨none, rfl, .inl ⟨rfl, by rw [hphase]; decide⟩⟩
  | precommit hphase hpending =>
    obtain ⟨own, hown, hcounts, htype, hid⟩ := precommitPending h.toBase hb hsign hpending
    rw [hphase, hown]
    exact ⟨some own, rfl, .inr ⟨own, rfl, hphase, hcounts, htype, hid⟩⟩
  | finalized hphase hpending =>
    rw [hphase, ConsensusRuntime.finalizePending, hpending]
    exact ⟨none, rfl, .inl ⟨rfl, by rw [hphase]; decide⟩⟩

/-- A vote the phase takes is counted: the runtime before the end of `receive_vote`. -/
lemma voted (h : b.Active r) (hb : b.Valid) (hm : b.Counts m)
    (htakes : BftConsensus.takesVote r.consensus.phase m.voteType = true) (env : Reading) :
    ∃ s r₁, b.Voted r m s r₁ ∧ r.receiveVote env m = match r₁.consensus.phase with
      | .precommit => (r₁.precommitPending env, r₁)
      | .finalized => r₁.finalizePending
      | _ => (.ok none, r₁) := by
  obtain ⟨s, hhandle, hs⟩ := h.toBase.handle hm htakes
  obtain ⟨r₁, validBlock, deadline, hr₁, hreceive⟩ := receiveVote_eq env hhandle
  have hbase : ∀ c r', BftConsensus.Accepts (r.consensus.withRecords s) m c →
      r' = { r with consensus := c, precommits := (r.keepPrecommit m).precommits
                    validBlock, deadline } →
      b.Base r' ∧ b.Adds m r r' := by
    intro c r' haccepts hr'
    rw [hr']
    cases haccepts <;> exact h.toBase.afterVote hm hs rfl rfl rfl rfl rfl rfl rfl rfl rfl rfl
  obtain ⟨hbase₁, hadds₁⟩ := hbase _ r₁ (BftConsensus.acceptVote_accepts _ m) hr₁
  obtain ⟨hbase₂, hadds₂⟩ := hbase _ _ .counted rfl
  have hquorum := hbase₂.hasQuorum_iff hb m.voteType
  rw [hadds₂, ← hadds₁, ← hm.blockHash] at hquorum
  refine ⟨s, r₁, ⟨hbase₁, hadds₁, by rw [hr₁], hquorum, by rw [hr₁], by rw [hr₁],
    by rw [hr₁]⟩, ?_⟩
  have hphase : r₁.consensus.phase = ((r.consensus.withRecords s).acceptVote m).phase := by
    rw [hr₁]
  rw [hphase]
  exact hreceive

/-- **One vote.** A vote for the block that the phase takes is counted, and the runtime goes on to
the phase the votes call for. -/
lemma receiveVote (h : b.Active r) (hb : b.Valid) (hsign : b.Signs env) (hm : b.Counts m)
    (htakes : BftConsensus.takesVote r.consensus.phase m.voteType = true) :
    ∃ own r', r.receiveVote env m = (.ok own, r') ∧ b.Active r' ∧ b.Answers r' own ∧
      r'.deferredVotes = r.deferredVotes ∧ b.Adds m r r' := by
  obtain ⟨s, r₁, hvoted, hreceive⟩ := h.voted hb hm htakes env
  rcases hvoted.stage h.stage hm htakes with hstage | hdue
  · have hactive : b.Active r₁ := ⟨hvoted.base, hstage⟩
    obtain ⟨own, hown, hanswers⟩ := hactive.answers hb hsign
    exact ⟨own, r₁, hreceive.trans hown, hactive, hanswers, hvoted.deferred, hvoted.adds⟩
  · obtain ⟨certificate, hcommit⟩ :=
      finalizePending hvoted.base hb hdue.pending hdue.chain hdue.hash hdue.precommits
    rw [hdue.phase] at hreceive
    refine ⟨none, _, hreceive.trans hcommit, ⟨?_, ?_⟩, .inl ⟨rfl, ?_⟩, hvoted.deferred,
      hvoted.adds⟩
    · have hbase := hvoted.base
      exact ⟨hbase.toInRound.congr rfl rfl rfl rfl rfl rfl hbase.history, hbase.proposal,
        hbase.counted, hbase.kept, hbase.voters⟩
    · exact .finalized hdue.phase rfl rfl hdue.prevotes hdue.precommits
    · show r₁.consensus.phase ≠ .precommit
      rw [hdue.phase]
      decide

end Active

/-! ## Votes that are taken and votes that are not -/

/-- Is the vote for the height and the round? -/
def AtPlace (b : Ballot) (m : ConsensusMessage) : Prop := m.height = b.height ∧ m.round = b.round

instance (b : Ballot) (m : ConsensusMessage) : Decidable (b.AtPlace m) :=
  inferInstanceAs (Decidable (_ ∧ _))

/-- The node takes a vote, with its own precommit if it answers with one. -/
structure Fed (b : Ballot) (P : ConsensusRuntime → Prop) (env env' : Reading)
    (r : ConsensusRuntime) (m : ConsensusMessage) (own : Option ConsensusMessage)
    (r₁ r₂ : ConsensusRuntime) : Prop where
  first : r.receiveVote env m = (.ok own, r₁)
  second : (own = none ∧ r₂ = r₁) ∨
    ∃ precommit answer, own = some precommit ∧ r₁.receiveVote env' precommit = (.ok answer, r₂)
  keeps : P r₂
  deferred : r₂.deferredVotes = r.deferredVotes
  mono : ∀ t, b.counted r t ⊆ b.counted r₂ t
  counted : m.validatorId ∈ b.counted r₂ m.voteType

/-- A property of runtimes in the round that the node keeps while it takes votes. -/
structure Kept (b : Ballot) (P : ConsensusRuntime → Prop) : Prop where
  runs : ∀ {r}, P r → r.consensus.RunsFor b.validators
  place : ∀ {r}, P r → r.consensus.height = b.height ∧ r.consensus.round = b.round
  queue : ∀ {r}, P r → ∀ deferredVotes, P { r with deferredVotes }
  feed : ∀ {r m env env'}, P r → b.Counts m →
    BftConsensus.takesVote r.consensus.phase m.voteType = true → b.Signs env → b.Signs env' →
    ∃ own r₁ r₂, b.Fed P env env' r m own r₁ r₂

/-- The text of the error for a vote that comes too early. -/
def earlyVote : String := "현재 합의 단계와 투표 종류가 일치하지 않습니다."

/-- The text of the error for a vote of another height or round. -/
def otherPlace : String := "현재 높이/라운드와 다른 투표입니다."

namespace Kept
variable {b : Ballot} {P : ConsensusRuntime → Prop} {r : ConsensusRuntime} {m : ConsensusMessage}

/-- A vote that the phase does not take changes nothing. -/
lemma early (h : b.Kept P) (hr : P r) (hm : b.Counts m)
    (htakes : ¬ BftConsensus.takesVote r.consensus.phase m.voteType = true) (env : Reading) :
    r.receiveVote env m = (.error earlyVote, r) := by
  obtain ⟨hheight, hround⟩ := h.place hr
  have hmem := ((h.runs hr).registered.mem m.validatorId).mpr hm.registered
  have hcheck : r.consensus.checkVote m = .error earlyVote := by
    simp only [BftConsensus.checkVote, ensure, hheight, hround, hm.height, hm.round, hm.verify,
      and_self, if_true, if_pos hmem, if_neg htakes]
    rfl
  rw [ConsensusRuntime.receiveVote, BftConsensus.handle, hcheck]

/-- A vote of another height or round changes nothing. -/
lemma foreign (h : b.Kept P) (hr : P r) (hm : ¬ b.AtPlace m) (env : Reading) :
    r.receiveVote env m = (.error otherPlace, r) := by
  obtain ⟨hheight, hround⟩ := h.place hr
  have hcheck : r.consensus.checkVote m = .error otherPlace := by
    unfold AtPlace at hm
    simp only [BftConsensus.checkVote, ensure, hheight, hround, if_neg hm]
    rfl
  rw [ConsensusRuntime.receiveVote, BftConsensus.handle, hcheck]

end Kept

/-- The runtime in the round after the proposal, with the node's own votes counted. -/
structure Settled (b : Ballot) (r : ConsensusRuntime) : Prop extends Active b r where
  prevoted : b.self ∈ b.counted r .prevote
  precommitted : r.consensus.phase ≠ .prevote → b.self ∈ b.counted r .precommit

/-- **One vote with the node's answer.** After it the node's own precommit is counted, if the
phase asks for it. -/
lemma Active.feed {b : Ballot} {r : ConsensusRuntime} {m : ConsensusMessage} {env env' : Reading}
    (h : b.Active r) (hb : b.Valid)
    (hown : r.consensus.phase ≠ .prevote → b.self ∈ b.counted r .precommit) (hm : b.Counts m)
    (htakes : BftConsensus.takesVote r.consensus.phase m.voteType = true) (hsign : b.Signs env)
    (hsign' : b.Signs env') :
    ∃ own r₁ r₂, b.Fed (fun r => b.Active r ∧
      (r.consensus.phase ≠ .prevote → b.self ∈ b.counted r .precommit)) env env' r m own r₁ r₂ := by
  obtain ⟨own, r₁, hreceive, hactive, hanswers, hdeferred, hadds⟩ :=
    h.receiveVote hb hsign hm htakes
  rcases hanswers with ⟨rfl, hphase⟩ | ⟨precommit, rfl, hphase, hcounts, htype, hid⟩
  · refine ⟨none, r₁, r₁, hreceive, .inl ⟨rfl, rfl⟩, ⟨hactive, fun hnot => ?_⟩, hdeferred,
      hadds.mono, hadds.mem⟩
    refine hadds.mono _ (hown fun hprevote => ?_)
    -- one vote does not lead from `Prevote` to `Finalized`: no precommit is counted
    have hnone : b.counted r₁ .precommit = ∅ := by
      have htype := BftConsensus.eq_prevote_of_takesVote (hprevote ▸ htakes)
      rw [hadds.other (by rw [htype]; decide)]
      cases h.stage with
      | prevote _ _ _ _ hnone => exact hnone
      | precommit hother => exact absurd (hprevote.symm.trans hother) (by decide)
      | finalized hother => exact absurd (hprevote.symm.trans hother) (by decide)
    cases hactive.stage with
    | prevote hother => exact hnot hother
    | precommit hother => exact hphase hother
    | finalized _ _ _ _ hfinal => exact b.not_quorum_empty (hnone ▸ hfinal)
  · obtain ⟨answer, r₂, hreceive', hactive', _, hdeferred', hadds'⟩ :=
      hactive.receiveVote hb hsign' hcounts (by rw [hphase, htype]; rfl)
    refine ⟨some precommit, r₁, r₂, hreceive, .inr ⟨precommit, answer, rfl, hreceive'⟩,
      ⟨hactive', fun _ => ?_⟩, hdeferred'.trans hdeferred,
      fun t => (hadds.mono t).trans (hadds'.mono t), hadds'.mono _ hadds.mem⟩
    rw [← hid, ← htype]
    exact hadds'.mem

lemma Base.queue {b : Ballot} {r : ConsensusRuntime} (h : b.Base r)
    (deferredVotes : List ConsensusMessage) : b.Base { r with deferredVotes } :=
  ⟨h.toInRound.congr rfl rfl rfl rfl rfl rfl h.history, h.proposal, h.counted, h.kept, h.voters⟩

lemma Stage.queue {b : Ballot} {r : ConsensusRuntime} (h : b.Stage r)
    (deferredVotes : List ConsensusMessage) : b.Stage { r with deferredVotes } := by
  cases h with
  | prevote hphase hpending hchain hopen hnone =>
    exact .prevote hphase hpending hchain hopen hnone
  | precommit hphase hpending hchain hquorum hopen =>
    exact .precommit hphase hpending hchain hquorum hopen
  | finalized hphase hpending hchain hquorum hfinal =>
    exact .finalized hphase hpending hchain hquorum hfinal

/-- The node stays settled while it takes votes. -/
lemma settled_kept {b : Ballot} (hb : b.Valid) : b.Kept b.Settled where
  runs h := h.runs
  place h := ⟨h.height, h.round⟩
  queue h deferredVotes :=
    ⟨⟨h.toBase.queue deferredVotes, h.stage.queue deferredVotes⟩, h.prevoted, h.precommitted⟩
  feed h hm htakes hsign hsign' := by
    obtain ⟨own, r₁, r₂, hfed⟩ := h.toActive.feed hb h.precommitted hm htakes hsign hsign'
    exact ⟨own, r₁, r₂, hfed.first, hfed.second,
      ⟨hfed.keeps.1, hfed.mono _ h.prevoted, hfed.keeps.2⟩, hfed.deferred, hfed.mono, hfed.counted⟩

/-- The runtime before the proposal, which fits at the given times. -/
structure Waiting (b : Ballot) (p : SignedProposal) (times : Option UInt64 → Prop)
    (r : ConsensusRuntime) : Prop extends InRound b r where
  phase : r.consensus.phase = .propose
  votes : r.consensus.votes = ∅
  precommits : r.precommits = []
  chain : r.chain = b.before
  handles : ∃ consensus, r.consensus.handleProposal p = .ok consensus
  fits : ∀ now, times now → r.Fits now p.block

/-- The node stays waiting while it is given votes. -/
lemma waiting_kept (b : Ballot) (p : SignedProposal) (times : Option UInt64 → Prop) :
    b.Kept (b.Waiting p times) where
  runs h := h.runs
  place h := ⟨h.height, h.round⟩
  queue h deferredVotes :=
    ⟨h.toInRound.congr rfl rfl rfl rfl rfl rfl h.history, h.phase, h.votes, h.precommits, h.chain,
      h.handles, fun now hnow =>
        ⟨(h.fits now hnow).height, (h.fits now hnow).previousHash, (h.fits now hnow).scheduled⟩⟩
  feed h _ htakes := by
    rw [h.phase] at htakes
    cases htakes

end

end Ballot

end IeumChain
