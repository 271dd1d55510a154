import IeumChain.BallotTheorems

/-!
# The candidate block of a runtime

What becomes of the block a node has accepted, whatever messages it is given.

* `Tallied` is the invariant: the candidate is the proposal of the round, and the precommits kept
  are signed, for the proposal, and cover all that were counted. It needs no bound on the powers,
  because a quorum in saturating arithmetic is one in exact arithmetic.
* So a block that reaches its precommits is committed exactly when the chain takes it
  (`commit_iff`).
* `Settles` says what votes do to the candidate: it stays, it is committed, or the chain refused it
  and it is gone. A single vote does one of the three (`receiveVote_settles`), and so does every
  sequence of votes.
-/

namespace IeumChain

open Lib

namespace BftConsensus
variable {c c' : BftConsensus} {m : ConsensusMessage}

/-- A quorum in saturating arithmetic is one in exact arithmetic: the left side would be the largest
value if it saturated. -/
lemma two_thirds_of_hasQuorum {validators : List Validator} {key : VoteType × String}
    (hc : RunsFor validators c) (hvoters : c.voters key ⊆ idsOf validators)
    (h : c.hasQuorum key = true) :
    2 * sumPower validators < 3 * weight (powerIn validators) (c.voters key) := by
  have hweight : weight c.powerOf (c.voters key) = weight (powerIn validators) (c.voters key) :=
    Finset.sum_congr rfl fun id hid => hc.powerOf (hvoters hid)
  have hlt := of_decide_eq_true h
  rw [hweight, hc.total, saturatingMul, saturatingMul] at hlt
  omega

section
variable [Primitives]

/-- Up to the records, an accepted vote is counted. -/
lemma handle_acceptVote (h : c.handle m = (.ok (), c')) :
    ∃ s, c' = (c.withRecords s).acceptVote m := by
  obtain ⟨s, hs⟩ := recordVote_records c m
  unfold handle at h
  cases hcheck : c.checkVote m with
  | error e => simp [hcheck] at h
  | ok u =>
    rcases hrec : c.recordVote m with ⟨_ | _, c₁⟩ <;> rw [hrec] at hs <;>
      simp only [hcheck, hrec] at h hs
    · cases h
    · split at h
      next => exact ⟨s, by rw [← hs]; exact (Prod.mk.inj h).2.symm⟩
      next => cases h

/-- A vote that finalises is the precommit that completes a quorum. -/
lemma handle_finalizes (h : c.handle m = (.ok (), c')) (hbefore : c.phase ≠ .finalized)
    (hafter : c'.phase = .finalized) :
    c'.finalized = some m.blockHash ∧ c'.hasQuorum (.precommit, m.blockHash) = true := by
  obtain ⟨s, rfl⟩ := handle_acceptVote h
  set c₁ := c.withRecords s
  have hopen : c₁.phase ≠ .finalized := hbefore
  by_cases hquorum : (c₁.addVoter m).hasQuorum (m.voteType, m.blockHash) = true
  · cases htype : m.voteType with
    | prevote =>
      -- a quorum of prevotes locks at most
      by_cases hphase : c₁.phase = .prevote
      · rw [acceptVote_locks htype hphase hquorum] at hafter
        cases hafter
      · rw [acceptVote_late_prevote htype hphase] at hafter
        exact absurd hafter hopen
    | precommit =>
      rw [acceptVote_finalizes htype hopen hquorum]
      exact ⟨rfl, htype ▸ hquorum⟩
  · rw [acceptVote_of_not_quorum hquorum] at hafter
    exact absurd hafter hopen

/-- A vote leaves the proposal, the place and the validators of the round alone, counts for its
block and does not go back to the first phase. -/
lemma handle_counts (h : c.handle m = (.ok (), c')) :
    (c'.validators = c.validators ∧ c'.totalPower = c.totalPower ∧ c'.height = c.height ∧
      c'.round = c.round ∧ c'.proposal = c.proposal ∧ c'.phase ≠ .propose ∧
      (c.phase = .finalized → c'.phase = .finalized)) ∧
    ∀ key, c'.voters key
      = if key = (m.voteType, m.blockHash) then insert m.validatorId (c.voters key)
        else c.voters key := by
  obtain ⟨hcheck, _, s, haccepts⟩ := handle_ok h
  obtain ⟨_, _, _, htakes⟩ := checkVote_eq_ok.mp hcheck
  have hphase : c.phase ≠ .propose := by
    intro hpropose
    rw [hpropose] at htakes
    cases htakes
  have hvoters := voters_addVoter (c.withRecords s) m
  cases haccepts with
  | counted => exact ⟨⟨rfl, rfl, rfl, rfl, rfl, hphase, id⟩, hvoters⟩
  | locked htype hprevote =>
    refine ⟨⟨rfl, rfl, rfl, rfl, rfl, by simp, fun hfinal => ?_⟩, hvoters⟩
    rw [show c.phase = .prevote from hprevote] at hfinal
    cases hfinal
  | finalized => exact ⟨⟨rfl, rfl, rfl, rfl, rfl, by simp, fun _ => rfl⟩, hvoters⟩

end

end BftConsensus

namespace ConsensusRuntime
variable [Primitives] {r r' : ConsensusRuntime}

/-! ## The invariant -/

/-- The block is the proposal of the running round. -/
structure Stands (r : ConsensusRuntime) (b : Block) : Prop where
  proposal : r.consensus.proposal = some b.hash
  height : b.height = r.consensus.height
  hash : b.hash = b.calculateHash
  phase : r.consensus.phase ≠ .propose

/-- The precommit is for the proposal of the running round, and signed by a validator. -/
structure Keeps (r : ConsensusRuntime) (m : ConsensusMessage) : Prop where
  height : m.height = r.consensus.height
  round : m.round = r.consensus.round
  voteType : m.voteType = .precommit
  proposal : r.consensus.proposal = some m.blockHash
  verify : m.verify = .ok ()
  registered : m.validatorId ∈ idsOf r.validators

/-- The candidate is the proposal, and the precommits kept are those counted for it. -/
structure Tallied (r : ConsensusRuntime) : Prop where
  runs : r.consensus.RunsFor r.validators
  empty : r.consensus.phase = .propose → r.consensus.votes = ∅ ∧ r.precommits = []
  candidate : ∀ b, r.pending = some b → r.Stands b
  kept : ∀ m ∈ r.precommits, r.Keeps m
  voters : ∀ hash, r.consensus.proposal = some hash →
    r.consensus.voters (.precommit, hash) ⊆ votersOf r.precommits

/-- A runtime that starts a round has nothing to tally. -/
lemma tallied_of_start (hruns : r.consensus.RunsFor r.validators)
    (hvotes : r.consensus.votes = ∅) (hproposal : r.consensus.proposal = none)
    (hpending : r.pending = none) (hprecommits : r.precommits = []) : r.Tallied where
  runs := hruns
  empty _ := ⟨hvotes, hprecommits⟩
  candidate b hb := by
    rw [hpending] at hb
    cases hb
  kept m hm := by
    rw [hprecommits] at hm
    cases hm
  voters hash h := by
    rw [hproposal] at h
    cases h

namespace Tallied

/-- The invariant reads the machine up to its records, the candidate, the precommits and the
validators only. -/
lemma congr (h : r.Tallied) (hconsensus : ∃ s, r'.consensus = r.consensus.withRecords s)
    (hpending : r'.pending = r.pending ∨ r'.pending = none) (hprecommits : r'.precommits = r.precommits)
    (hvalidators : r'.validators = r.validators) : r'.Tallied := by
  obtain ⟨s, hs⟩ := hconsensus
  refine ⟨?_, ?_, ?_, ?_, ?_⟩
  · rw [hs, hvalidators]
    exact ⟨h.runs.registered, h.runs.total⟩
  · rw [hs, hprecommits]
    exact h.empty
  · intro b hb
    have hbefore : r.pending = some b := by
      rcases hpending with heq | hnone
      · rw [← heq, hb]
      · rw [hnone] at hb
        cases hb
    obtain ⟨hproposal, hheight, hhash, hphase⟩ := h.candidate b hbefore
    exact ⟨hs ▸ hproposal, hs ▸ hheight, hhash, hs ▸ hphase⟩
  · intro m hm
    rw [hprecommits] at hm
    obtain ⟨hheight, hround, htype, hproposal, hverify, hregistered⟩ := h.kept m hm
    exact ⟨hs ▸ hheight, hs ▸ hround, htype, hs ▸ hproposal, hverify, hvalidators ▸ hregistered⟩
  · rw [hs, hprecommits]
    exact h.voters

/-- A vote that is counted is kept if it is a precommit. -/
lemma vote (h : r.Tallied) {m : ConsensusMessage} {c : BftConsensus}
    (hhandle : r.consensus.handle m = (.ok (), c)) (hconsensus : r'.consensus = c)
    (hpending : r'.pending = r.pending) (hprecommits : r'.precommits = (r.keepPrecommit m).precommits)
    (hvalidators : r'.validators = r.validators) : r'.Tallied := by
  obtain ⟨hcheck, hfor, _⟩ := BftConsensus.handle_ok hhandle
  obtain ⟨⟨hheight, hround⟩, hregistered, hverify, _⟩ := BftConsensus.checkVote_eq_ok.mp hcheck
  obtain ⟨⟨hmap, htotal, hheight', hround', hproposal, hphase, _⟩, hvoters⟩ :=
    BftConsensus.handle_counts hhandle
  subst hconsensus
  refine ⟨⟨?_, ?_⟩, fun hpropose => absurd hpropose hphase, ?_, ?_, ?_⟩
  · rw [hmap, hvalidators]
    exact h.runs.registered
  · rw [htotal, hvalidators]
    exact h.runs.total
  · intro b hb
    obtain ⟨hb', hbheight, hbhash, _⟩ := h.candidate b (hpending ▸ hb)
    exact ⟨hproposal.trans hb', hbheight.trans hheight'.symm, hbhash, hphase⟩
  · intro known hknown
    rw [hprecommits] at hknown
    rcases Ballot.mem_keepPrecommit hknown with hold | ⟨rfl, htype⟩
    · obtain ⟨kheight, kround, ktype, kproposal, kverify, kregistered⟩ := h.kept known hold
      exact ⟨kheight.trans hheight'.symm, kround.trans hround'.symm, ktype,
        hproposal.trans kproposal, kverify, hvalidators ▸ kregistered⟩
    · exact ⟨hheight.trans hheight'.symm, hround.trans hround'.symm, htype, hproposal.trans hfor,
        hverify, hvalidators ▸ (h.runs.registered.mem _).mp hregistered⟩
  · intro hash hhash
    have hsame : hash = m.blockHash := Option.some.inj ((hproposal ▸ hhash).symm.trans hfor)
    have hbefore := h.voters hash (hproposal ▸ hhash)
    rw [hvoters, hprecommits, Ballot.votersOf_keepPrecommit, hsame]
    rw [hsame] at hbefore
    by_cases htype : m.voteType = .precommit
    · rw [htype, if_pos rfl, if_pos rfl]
      exact Finset.insert_subset_insert _ hbefore
    · rw [if_neg htype, if_neg (fun heq => htype (Prod.mk.inj heq).1.symm)]
      exact hbefore

/-- Every move keeps the tally. -/
lemma move {signed : List ConsensusMessage} (h : r.Tallied)
    (hmove : Move (fun _ => True) r signed r') : r'.Tallied := by
  have hself : ∃ s, r.consensus = r.consensus.withRecords s :=
    ⟨_, (BftConsensus.withRecords_self r.consensus).symm⟩
  cases hmove with
  | timer deadline => exact h.congr hself (.inl rfl) rfl rfl
  | queue votes _ => exact h.congr hself (.inl rfl) rfl rfl
  | records s => exact h.congr ⟨s, rfl⟩ (.inl rfl) rfl rfl
  | handOver => exact h.congr hself (.inl rfl) rfl rfl
  | proposal now p consensus _ hhandle =>
    obtain ⟨hheight, _, hverify, _, hphase, rfl⟩ := BftConsensus.handleProposal_eq_ok hhandle
    obtain ⟨hvotes, hprecommits⟩ := h.empty hphase
    simp only [SignedProposal.verify, bind_eq_ok, ensure_eq_ok] at hverify
    obtain ⟨_, hblock, _, hhash, _⟩ := hverify
    refine ⟨⟨h.runs.registered, h.runs.total⟩, fun hpropose => ?_, ?_, ?_, ?_⟩
    · cases hpropose
    · intro b hb
      obtain rfl := Option.some.inj hb
      exact ⟨rfl, hblock.symm.trans hheight, hhash, by simp⟩
    · intro m hm
      rw [show r.precommits = [] from hprecommits] at hm
      cases hm
    · intro hash _
      -- nothing is counted before the proposal
      show (r.consensus.votes.lookup _).getD ∅ ⊆ _
      rw [hvotes, Finmap.lookup_empty]
      exact Finset.empty_subset _
  | prevote m => exact h
  | vote env m consensus _ hhandle =>
    have hkeep : ({ r with consensus }.keepPrecommit m).precommits
        = (r.keepPrecommit m).precommits := by
      unfold keepPrecommit
      split <;> rfl
    obtain ⟨_, _, hphase⟩ :=
      onPhaseChange_eq ({ r with consensus }.keepPrecommit m) env r.consensus.phase
    obtain ⟨_, hframe⟩ := keepPrecommit_eq { r with consensus } m
    refine h.vote hhandle ?_ ?_ ?_ ?_
    · rw [hphase, hframe]
    · rw [hphase, hframe]
    · rw [hphase]
      exact hkeep
    · rw [hphase, hframe]
  | precommit block m => exact h
  | drop => exact h.congr hself (.inr rfl) rfl rfl
  | commit block chain => exact h.congr hself (.inr rfl) rfl rfl
  | timeout round consensus _ hstart =>
    rcases BftConsensus.startRound_eq_ok hstart with ⟨_, rfl⟩ | ⟨_, _, rfl⟩
    · exact tallied_of_start ⟨h.runs.registered, h.runs.total⟩ rfl rfl rfl rfl
    · exact tallied_of_start ⟨h.runs.registered, h.runs.total⟩ rfl rfl rfl rfl
  | next height consensus _ _ hstart =>
    rcases BftConsensus.startRound_eq_ok hstart with ⟨_, rfl⟩ | ⟨_, _, rfl⟩
    · exact tallied_of_start ⟨h.runs.registered, h.runs.total⟩ rfl rfl rfl rfl
    · exact tallied_of_start ⟨h.runs.registered, h.runs.total⟩ rfl rfl rfl rfl
  | sync now c chain => exact h.congr hself (.inl rfl) rfl rfl

lemma moves {signed : List ConsensusMessage} (h : r.Tallied)
    (hmoves : Moves (fun _ => True) r signed r') : r'.Tallied :=
  Moves.induction (P := fun r _ => r.Tallied) (fun hr hmove => hr.move hmove) [] hmoves h

/-- The precommits of a finalised candidate make a certificate. -/
lemma certificate_verify (h : r.Tallied) {b : Block} (hpending : r.pending = some b)
    (hquorum : r.consensus.hasQuorum (.precommit, b.hash) = true) :
    (r.certificateFor b).verify r.validators = .ok () := by
  obtain ⟨hproposal, hheight, hhash, _⟩ := h.candidate b hpending
  have hregistered : votersOf r.precommits ⊆ idsOf r.validators := by
    intro id hid
    obtain ⟨m, hm, rfl⟩ := mem_votersOf.mp hid
    exact (h.kept m hm).registered
  have hcountable : Countable (r.certificateFor b).expects r.validators r.precommits := by
    refine ⟨fun m hm => ?_, fun m hm => (h.kept m hm).verify, hregistered⟩
    obtain ⟨mheight, mround, mtype, mproposal, _, _⟩ := h.kept m hm
    exact decide_eq_true ⟨mheight.trans hheight.symm, mround, mtype,
      Option.some.inj (mproposal.symm.trans hproposal)⟩
  have hvoters := h.voters b.hash hproposal
  have hpower := BftConsensus.two_thirds_of_hasQuorum h.runs (hvoters.trans hregistered) hquorum
  have hmore := weight_mono (powerIn r.validators) hvoters
  have hrange : sumPower r.validators < 2 ^ 128 := by
    rw [← h.runs.total]
    exact lt_trans r.consensus.totalPower.toNat_lt (by norm_num)
  simp only [FinalityCertificate.verify, bind_eq_ok, ensure_eq_ok]
  refine ⟨(), hhash, (verifyVotes_iff h.runs.registered.nodup hrange hcountable).mpr ?_⟩
  omega

/-- A finalised candidate is committed exactly when the chain takes it. -/
lemma commit_iff (h : r.Tallied) {b : Block} (hpending : r.pending = some b)
    (hfinal : r.consensus.finalized = some b.hash)
    (hquorum : r.consensus.hasQuorum (.precommit, b.hash) = true) (r' : ConsensusRuntime) :
    { r with pending := none }.commit b = .ok r' ↔ ∃ chain, r.chain.applyBlock b = .ok chain ∧
      r' = { r with pending := none, chain, finalized := r.finalized ++ [r.certificateFor b]
                    pendingFinalized := r.pendingFinalized ++ [r.certificateFor b] } := by
  have hverify := h.certificate_verify hpending hquorum
  simp only [ConsensusRuntime.commit, bind_eq_ok, ensure_eq_ok, pure_eq_ok]
  constructor
  · rintro ⟨_, _, _, _, chain, hchain, rfl⟩
    exact ⟨chain, hchain, rfl⟩
  · rintro ⟨chain, hchain, rfl⟩
    exact ⟨(), hfinal, (), hverify, chain, hchain, rfl⟩

end Tallied

/-! ## What votes do to the candidate -/

/-- Between two calls, a finalised round has no candidate any more. -/
def Resting (r : ConsensusRuntime) : Prop := r.consensus.phase = .finalized → r.pending = none

/-- The candidate and the chain after some votes. -/
inductive Settles (r r' : ConsensusRuntime) : Prop where
  | kept (hpending : r'.pending = r.pending) (hchain : r'.chain = r.chain)
      (hphase : r.consensus.phase = .finalized → r'.consensus.phase = .finalized)
  | committed (b : Block) (hpending : r.pending = some b) (hgone : r'.pending = none)
      (hchain : r.chain.applyBlock b = .ok r'.chain)
  | dropped (b : Block) (hpending : r.pending = some b) (hgone : r'.pending = none)
      (hchain : r'.chain = r.chain) (hphase : r'.consensus.phase = .finalized)
      (hrefused : ∀ chain, r.chain.applyBlock b ≠ .ok chain)

lemma Settles.refl (r : ConsensusRuntime) : r.Settles r := .kept rfl rfl id

lemma Settles.trans {r'' : ConsensusRuntime} (h : r.Settles r') (h' : r'.Settles r'') :
    r.Settles r'' := by
  cases h with
  | kept hpending hchain hphase =>
    cases h' with
    | kept hpending' hchain' hphase' =>
      exact .kept (hpending'.trans hpending) (hchain'.trans hchain) fun hf => hphase' (hphase hf)
    | committed b hb hgone happly => exact .committed b (hpending ▸ hb) hgone (hchain ▸ happly)
    | dropped b hb hgone hchain' hphase' hrefused =>
      exact .dropped b (hpending ▸ hb) hgone (hchain'.trans hchain) hphase' (hchain ▸ hrefused)
  | committed b hb hgone happly =>
    -- nothing is left to settle
    cases h' with
    | kept hpending' hchain' _ => exact .committed b hb (hpending'.trans hgone) (hchain' ▸ happly)
    | committed b' hb' => rw [hgone] at hb'; cases hb'
    | dropped b' hb' => rw [hgone] at hb'; cases hb'
  | dropped b hb hgone hchain hphase hrefused =>
    cases h' with
    | kept hpending' hchain' hphase' =>
      exact .dropped b hb (hpending'.trans hgone) (hchain'.trans hchain) (hphase' hphase) hrefused
    | committed b' hb' => rw [hgone] at hb'; cases hb'
    | dropped b' hb' => rw [hgone] at hb'; cases hb'

/-- One vote. The candidate is refused only with an error. -/
lemma receiveVote_settles (h : r.Tallied) (hrest : r.Resting) (env : Reading)
    (m : ConsensusMessage) :
    (r.receiveVote env m).2.Resting ∧ r.Settles (r.receiveVote env m).2 ∧
      ∀ o, (r.receiveVote env m).1 = .ok o →
        (r.receiveVote env m).2.pending = r.pending ∧ (r.receiveVote env m).2.chain = r.chain ∨
        ∃ b, r.pending = some b ∧ (r.receiveVote env m).2.pending = none ∧
          r.chain.applyBlock b = .ok (r.receiveVote env m).2.chain := by
  rcases hhandle : r.consensus.handle m with ⟨e | ⟨⟩, c⟩
  · -- a refused vote changes the records of the machine only
    obtain ⟨s, rfl⟩ := BftConsensus.handle_error hhandle
    have hresult : r.receiveVote env m
        = (.error e, { r with consensus := r.consensus.withRecords s }) := by
      rw [receiveVote, hhandle]
    rw [hresult]
    exact ⟨hrest, .kept rfl rfl id, fun o ho => by cases ho⟩
  · obtain ⟨⟨_, _, _, _, hproposal, _, hstays⟩, _⟩ := BftConsensus.handle_counts hhandle
    obtain ⟨r₁, validBlock, deadline, hr₁, hresult⟩ := Ballot.receiveVote_eq env hhandle
    have htallied : r₁.Tallied := by
      rw [hr₁]
      exact h.vote hhandle rfl rfl rfl rfl
    have hkept : r.Settles r₁ := by
      rw [hr₁]
      exact .kept rfl rfl hstays
    have hpending₁ : r₁.pending = r.pending := by rw [hr₁]
    have hchain₁ : r₁.chain = r.chain := by rw [hr₁]
    have hphase₁ : r₁.consensus.phase = c.phase := by rw [hr₁]
    have hopen : c.phase ≠ .finalized → r₁.Resting := fun hne hf => absurd (hphase₁ ▸ hf) hne
    rw [hresult]
    cases hc : c.phase with
    | precommit => exact ⟨hopen (by simp [hc]), hkept, fun o _ => .inl ⟨hpending₁, hchain₁⟩⟩
    | waiting => exact ⟨hopen (by simp [hc]), hkept, fun o _ => .inl ⟨hpending₁, hchain₁⟩⟩
    | propose => exact ⟨hopen (by simp [hc]), hkept, fun o _ => .inl ⟨hpending₁, hchain₁⟩⟩
    | prevote => exact ⟨hopen (by simp [hc]), hkept, fun o _ => .inl ⟨hpending₁, hchain₁⟩⟩
    | finalized =>
      dsimp only
      rw [finalizePending]
      cases hb : r₁.pending with
      | none => exact ⟨fun _ => hb, hkept, fun o _ => .inl ⟨hpending₁, hchain₁⟩⟩
      | some b =>
        -- the candidate was there before, so the vote is what finalised it
        have hbefore : r.consensus.phase ≠ .finalized := by
          intro hf
          rw [hpending₁, hrest hf] at hb
          cases hb
        obtain ⟨hfinal, hquorum⟩ := BftConsensus.handle_finalizes hhandle hbefore hc
        have hfor : m.blockHash = b.hash := by
          have hstands := (htallied.candidate b hb).proposal
          rw [hr₁, hproposal, (BftConsensus.handle_ok hhandle).2.1] at hstands
          exact Option.some.inj hstands
        have hiff := htallied.commit_iff hb (by rw [hr₁, ← hfor]; exact hfinal)
          (by rw [hr₁, ← hfor]; exact hquorum)
        dsimp only
        cases hcommit : { r₁ with pending := none }.commit b with
        | error e =>
          have hrefused : ∀ chain, r.chain.applyBlock b ≠ .ok chain := by
            intro chain happly
            have hok := (hiff _).mpr ⟨chain, hchain₁ ▸ happly, rfl⟩
            rw [hcommit] at hok
            cases hok
          exact ⟨fun _ => rfl, .dropped b (hpending₁ ▸ hb) rfl hchain₁ (hphase₁.trans hc) hrefused,
            fun o ho => by cases ho⟩
        | ok r₂ =>
          obtain ⟨chain, happly, rfl⟩ := (hiff r₂).mp hcommit
          rw [hchain₁] at happly
          rw [hpending₁] at hb
          exact ⟨fun _ => rfl, .committed b hb rfl happly, fun o _ => .inr ⟨b, hb, rfl, happly⟩⟩

end ConsensusRuntime

end IeumChain
