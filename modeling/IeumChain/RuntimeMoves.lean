import IeumChain.ConsensusTheorems
import IeumChain.ConsensusRuntime
import IeumChain.ChainTheorems

/-!
# What a runtime can do

The public operations of `ConsensusRuntime` take the state apart and put it together in many
ways, but all of them are sequences of a few elementary changes: `Move` lists these with their
guards, and `step_moves` says that every operation, successful or failing, is a sequence of
moves. An invariant of all runs is then proved move by move.

* `Op` are the operations and `step` their effect: the runtime after the call and the votes the
  call returned;
* a move carries the votes the node signed in it. A call may sign a vote and then fail, so the
  votes returned are some of those signed;
* `known` stands for the votes other nodes gave to this one.
-/

namespace IeumChain

open Lib

namespace ConsensusRuntime
variable [Primitives]

/-! ## Operations -/

/-- The operations a node performs on its runtime. -/
inductive Op where
  | receiveProposal (p : SignedProposal)
  | receiveVote (vote : ConsensusMessage)
  | deferVote (vote : ConsensusMessage)
  | replayDeferredVotes
  | timeoutIfDue (now : ℕ)
  | restartPhaseTimeout (now : ℕ)
  | applySyncCertificates (certificates : List FinalityCertificate)
  | advanceAfterFinalization
  | takeEvidence
  | takeFinalized

/-- The votes an operation is given. -/
def Op.votes : Op → List ConsensusMessage
  | .receiveVote vote => [vote]
  | .deferVote vote => [vote]
  | .applySyncCertificates certificates => certificates.flatMap FinalityCertificate.precommits
  | _ => []

/-- The votes a call returned: none when it failed. -/
def returned {α : Type} (votes : α → List ConsensusMessage) : Result α → List ConsensusMessage
  | .ok a => votes a
  | .error _ => []

/-- The effect of an operation: the votes it returned and the runtime it left behind. -/
def step (r : ConsensusRuntime) (env : ℕ → Reading) :
    Op → List ConsensusMessage × ConsensusRuntime
  | .receiveProposal p =>
    let (result, r') := r.receiveProposal (env 0) p
    (returned (fun vote => [vote]) result, r')
  | .receiveVote vote =>
    let (result, r') := r.receiveVote (env 0) vote
    (returned Option.toList result, r')
  | .deferVote vote => ([], r.deferVote vote)
  | .replayDeferredVotes =>
    let (result, r') := r.replayDeferredVotes env
    (returned (fun votes => votes) result, r')
  | .timeoutIfDue now => ([], (r.timeoutIfDue now).2)
  | .restartPhaseTimeout now => ([], r.restartPhaseTimeout now)
  | .applySyncCertificates certificates => ([], (r.applySyncCertificates env certificates).2)
  | .advanceAfterFinalization => ([], getOk (r.advanceAfterFinalization (env 0)) r)
  | .takeEvidence => ([], r.takeEvidence.2)
  | .takeFinalized => ([], r.takeFinalized.2)

/-! ## Moves -/

/-- The vote is the node's own, for the current round. -/
structure Signs (r : ConsensusRuntime) (voteType : VoteType) (m : ConsensusMessage) : Prop where
  height : m.height = r.consensus.height
  round : m.round = r.consensus.round
  validatorId : m.validatorId = r.validator
  voteType : m.voteType = voteType
  verify : m.verify = .ok ()

/-- The block is the next one of the chain and fits the schedule. -/
structure Fits (r : ConsensusRuntime) (now : Option UInt64) (block : Block) : Prop where
  height : block.height.toNat = r.chain.tipHeight.toNat + 1
  previousHash : block.previousHash = r.chain.tipHash
  scheduled : r.validateScheduledBlock now block = .ok ()

/-- The elementary changes of a runtime, with the votes signed in each. -/
inductive Move (known : ConsensusMessage → Prop) :
    ConsensusRuntime → List ConsensusMessage → ConsensusRuntime → Prop where
  | timer (r : ConsensusRuntime) (deadline : ℕ) : Move known r [] { r with deadline }
  | queue (r : ConsensusRuntime) (deferredVotes : List ConsensusMessage)
      (hknown : ∀ vote ∈ deferredVotes, known vote) : Move known r [] { r with deferredVotes }
  | records (r : ConsensusRuntime) (s : BftConsensus.Records) :
      Move known r [] { r with consensus := r.consensus.withRecords s }
  | handOver (r : ConsensusRuntime) : Move known r [] { r with pendingFinalized := [] }
  | proposal (r : ConsensusRuntime) (now : Option UInt64) (p : SignedProposal)
      (consensus : BftConsensus) (hfits : r.Fits now p.block)
      (h : r.consensus.handleProposal p = .ok consensus) :
      Move known r [] { r with consensus, pending := some p.block }
  | prevote (r : ConsensusRuntime) (m : ConsensusMessage) (hsigns : r.Signs .prevote m)
      (hphase : r.consensus.phase = .prevote)
      (hproposal : r.consensus.proposal = some m.blockHash) : Move known r [m] r
  | vote (r : ConsensusRuntime) (env : Reading) (m : ConsensusMessage) (consensus : BftConsensus)
      (hknown : m.voteType = .prevote → known m)
      (h : r.consensus.handle m = (.ok (), consensus)) :
      Move known r []
        (({ r with consensus }.keepPrecommit m).onPhaseChange env r.consensus.phase)
  | precommit (r : ConsensusRuntime) (b : Block) (m : ConsensusMessage)
      (hphase : r.consensus.phase = .precommit) (hpending : r.pending = some b)
      (hheight : m.height = b.height) (hround : m.round = r.consensus.round)
      (hid : m.validatorId = r.validator) (htype : m.voteType = .precommit)
      (hhash : m.blockHash = b.hash) : Move known r [m] r
  | drop (r : ConsensusRuntime) : Move known r [] { r with pending := none }
  | commit (r : ConsensusRuntime) (b : Block) (chain : Blockchain)
      (hpending : r.pending = some b) (hverify : (r.certificateFor b).verify r.validators = .ok ())
      (hchain : r.chain.applyBlock b = .ok chain) :
      Move known r [] { r with
        pending := none, chain, finalized := r.finalized ++ [r.certificateFor b]
        pendingFinalized := r.pendingFinalized ++ [r.certificateFor b] }
  | timeout (r : ConsensusRuntime) (round : UInt32) (consensus : BftConsensus)
      (hround : r.consensus.round < round)
      (h : r.consensus.startRound r.consensus.height round = .ok consensus) :
      Move known r [] { r with consensus, pending := none, precommits := [] }
  | next (r : ConsensusRuntime) (height : UInt64) (consensus : BftConsensus)
      (hheight : height.toNat = r.chain.tipHeight.toNat + 1)
      (hwhy : r.consensus.phase = .finalized ∨ r.consensus.height < height)
      (h : r.consensus.startRound height 0 = .ok consensus) :
      Move known r [] { r with consensus, pending := none, validBlock := none, precommits := [] }
  | sync (r : ConsensusRuntime) (now : Option UInt64) (c : FinalityCertificate)
      (chain : Blockchain) (hverify : c.verify r.validators = .ok ())
      (hfits : r.Fits now c.block) (hchain : r.chain.applyBlock c.block = .ok chain) :
      Move known r [] { r with chain, finalized := r.finalized ++ [c] }

/-- A sequence of moves, with all votes signed. -/
inductive Moves (known : ConsensusMessage → Prop) :
    ConsensusRuntime → List ConsensusMessage → ConsensusRuntime → Prop where
  | refl (r : ConsensusRuntime) : Moves known r [] r
  | tail {r r' r'' : ConsensusRuntime} {signed signed' : List ConsensusMessage}
      (h : Moves known r signed r') (hmove : Move known r' signed' r'') :
      Moves known r (signed ++ signed') r''

section
variable {known : ConsensusMessage → Prop} {r r' r'' : ConsensusRuntime}
  {signed signed' : List ConsensusMessage}

lemma Move.moves (h : Move known r signed r') : Moves known r signed r' :=
  (Moves.refl r).tail h

lemma Moves.trans (h : Moves known r signed r') (h' : Moves known r' signed' r'') :
    Moves known r (signed ++ signed') r'' := by
  induction h' with
  | refl => rwa [List.append_nil]
  | tail _ hmove ih =>
    rw [← List.append_assoc]
    exact ih.tail hmove

/-- One more move that signs nothing. -/
lemma Moves.quiet (h : Moves known r signed r') (hmove : Move known r' [] r'') :
    Moves known r signed r'' := by
  have htail := h.tail hmove
  rwa [List.append_nil] at htail

/-- What every move preserves, a sequence of moves preserves. -/
lemma Moves.induction {P : ConsensusRuntime → List ConsensusMessage → Prop}
    (hstep : ∀ {r r' : ConsensusRuntime} {sent signed : List ConsensusMessage},
      P r sent → Move known r signed r' → P r' (sent ++ signed))
    (sent : List ConsensusMessage) (h : Moves known r signed r') (hr : P r sent) :
    P r' (sent ++ signed) := by
  induction h with
  | refl => rwa [List.append_nil]
  | tail _ hmove ih =>
    rw [← List.append_assoc]
    exact hstep ih hmove

end

/-! ## The bound on the height -/

/-- The consensus is at most one height above the tip, and the deferred votes are known. -/
structure Sound (known : ConsensusMessage → Prop) (r : ConsensusRuntime) : Prop where
  bound : r.consensus.height.toNat ≤ r.chain.tipHeight.toNat + 1
  deferred : ∀ vote ∈ r.deferredVotes, known vote

omit [Primitives] in
lemma nextHeight_eq_ok {chain : Blockchain} {height : UInt64} (h : nextHeight chain = .ok height) :
    height.toNat = chain.tipHeight.toNat + 1 := by
  unfold nextHeight at h
  split at h
  · rename_i block hlast
    obtain ⟨htip, _⟩ := Blockchain.tipHeight_of_getLast hlast
    rw [htip]
    exact addOne_eq_ok.mp h
  · rename_i hnone
    obtain rfl := Except.ok.inj h
    rw [Blockchain.tipHeight, hnone]
    rfl

omit [Primitives] in
/-- There is a next height below the bound. -/
lemma nextHeight_isOk {chain : Blockchain} (h : chain.tipHeight.toNat + 1 < 2 ^ 64) :
    ∃ height, nextHeight chain = .ok height := by
  unfold nextHeight
  cases hlast : chain.blocks.getLast? with
  | none => exact ⟨1, rfl⟩
  | some block =>
    obtain ⟨htip, _⟩ := Blockchain.tipHeight_of_getLast hlast
    rw [htip] at h
    refine ⟨block.height + 1, addOne_eq_ok.mpr ?_⟩
    rw [UInt64.toNat_add]
    exact Nat.mod_eq_of_lt h

/-- A runtime made by `with_signer` is at round 0 above the tip, with empty lists. -/
lemma withSigner_eq_ok {chain : Blockchain} {validators : List Validator} {validator : String}
    {timeouts : ConsensusTimeouts} {instant : ℕ} {r : ConsensusRuntime}
    (h : withSigner chain validators validator timeouts instant = .ok r) :
    ∃ map total height, height.toNat = chain.tipHeight.toNat + 1 ∧
      BftConsensus.RunsFor validators (BftConsensus.opened map total height) ∧
      r = { chain, consensus := BftConsensus.opened map total height, validator, pending := none
            validBlock := none, deadline := instant + timeouts.propose, timeouts, validators
            precommits := [], deferredVotes := [], finalized := [], pendingFinalized := []
            eventSchedule := EventSchedule.empty
            scheduleValid := EventSchedule.validate_empty } := by
  simp only [withSigner, bind_eq_ok, pure_eq_ok] at h
  obtain ⟨height, hheight, c, hnew, c', hstart, rfl⟩ := h
  have hnext := nextHeight_eq_ok hheight
  obtain ⟨map, total, rfl, hruns⟩ := BftConsensus.new_startRound hnew hstart (by omega)
  exact ⟨map, total, height, hnext, hruns, rfl⟩

/-- Setting the schedule changes nothing else. -/
lemma setEventSchedule_eq_ok {r r' : ConsensusRuntime} {schedule : EventSchedule}
    (h : r.setEventSchedule schedule = .ok r') :
    ∃ hvalid, r' = { r with eventSchedule := schedule, scheduleValid := hvalid } := by
  unfold setEventSchedule at h
  split at h
  · rename_i hvalid
    exact ⟨hvalid, (Except.ok.inj h).symm⟩
  · cases h

/-- A valid schedule can be set. -/
lemma setEventSchedule_isOk {r : ConsensusRuntime} {schedule : EventSchedule}
    (h : schedule.validate = .ok ()) : ∃ r', r.setEventSchedule schedule = .ok r' := by
  unfold setEventSchedule
  split
  · exact ⟨_, rfl⟩
  · rename_i hinvalid
    rw [h] at hinvalid
    cases hinvalid

/-- A runtime as a node starts it: made by `with_signer` on a chain, and given its schedule. -/
def Started (chain : Blockchain) (validators : List Validator) (schedule : EventSchedule)
    (validator : String) (r : ConsensusRuntime) : Prop :=
  ∃ timeouts instant r₀, withSigner chain validators validator timeouts instant = .ok r₀ ∧
    r₀.setEventSchedule schedule = .ok r

/-- A node can start on every chain with room above it, for every list of validators the machine
accepts. -/
lemma withSigner_isOk {chain : Blockchain} {validators : List Validator} {c : BftConsensus}
    (hroom : chain.tipHeight.toNat + 1 < 2 ^ 64) (hnew : BftConsensus.new validators = .ok c)
    (validator : String) (timeouts : ConsensusTimeouts) (instant : ℕ) :
    ∃ r, withSigner chain validators validator timeouts instant = .ok r := by
  obtain ⟨height, hnext⟩ := nextHeight_isOk hroom
  have hlt : c.height < height := by
    obtain ⟨_, _, _, rfl⟩ := BftConsensus.new_eq_ok hnew
    rw [UInt64.lt_iff_toNat_lt, nextHeight_eq_ok hnext]
    exact Nat.succ_pos _
  obtain ⟨c', hstart, _⟩ := BftConsensus.startRound_of_lt 0 hlt
  simp only [withSigner, bind_eq_ok, pure_eq_ok]
  exact ⟨_, height, hnext, c, hnew, c', hstart, rfl⟩

/-- A started runtime is at round 0 above the tip of its chain, with empty lists. -/
lemma Started.eq {chain : Blockchain} {validators : List Validator} {schedule : EventSchedule}
    {validator : String} {r : ConsensusRuntime}
    (h : Started chain validators schedule validator r) :
    ∃ map total height timeouts deadline hvalid, height.toNat = chain.tipHeight.toNat + 1 ∧
      BftConsensus.RunsFor validators (BftConsensus.opened map total height) ∧
      r = { chain, consensus := BftConsensus.opened map total height, validator, pending := none
            validBlock := none, deadline, timeouts, validators, precommits := []
            deferredVotes := [], finalized := [], pendingFinalized := []
            eventSchedule := schedule, scheduleValid := hvalid } := by
  obtain ⟨timeouts, instant, r₀, hr₀, hset⟩ := h
  obtain ⟨map, total, height, hheight, hruns, rfl⟩ := withSigner_eq_ok hr₀
  obtain ⟨hvalid, rfl⟩ := setEventSchedule_eq_ok hset
  exact ⟨map, total, height, timeouts, _, hvalid, hheight, hruns, rfl⟩

/-! ## Frames -/

/-- `keep_precommit` changes the precommits only. -/
lemma keepPrecommit_eq (r : ConsensusRuntime) (m : ConsensusMessage) :
    ∃ precommits, r.keepPrecommit m = { r with precommits } := by
  unfold keepPrecommit
  split
  · exact ⟨_, rfl⟩
  · exact ⟨r.precommits, rfl⟩

/-- A change of phase changes the block kept for a later proposal and the deadline only. -/
lemma onPhaseChange_eq (r : ConsensusRuntime) (env : Reading) (phase : ConsensusPhase) :
    ∃ validBlock deadline, r.onPhaseChange env phase = { r with validBlock, deadline } := by
  unfold onPhaseChange
  split
  · exact ⟨r.validBlock, r.deadline, rfl⟩
  · simp only [resetDeadline]
    split
    · exact ⟨_, _, rfl⟩
    · exact ⟨r.validBlock, _, rfl⟩

/-- The runtime after an accepted vote, up to what no transition of the protocol reads. -/
lemma afterVote_eq (r : ConsensusRuntime) (env : Reading) (m : ConsensusMessage)
    (consensus : BftConsensus) :
    ∃ precommits validBlock deadline,
      ({ r with consensus }.keepPrecommit m).onPhaseChange env r.consensus.phase
        = { r with consensus, precommits, validBlock, deadline } := by
  obtain ⟨precommits, hkeep⟩ := keepPrecommit_eq { r with consensus } m
  obtain ⟨validBlock, deadline, hphase⟩ :=
    onPhaseChange_eq { r with consensus, precommits } env r.consensus.phase
  exact ⟨precommits, validBlock, deadline, by rw [hkeep, hphase]⟩

/-- Every move keeps the bound on the height and knows the deferred votes. -/
lemma Sound.move {known : ConsensusMessage → Prop} {r r' : ConsensusRuntime}
    {signed : List ConsensusMessage} (hs : Sound known r) (h : Move known r signed r') :
    Sound known r' := by
  cases h with
  | timer deadline => exact ⟨hs.bound, hs.deferred⟩
  | queue votes hknown => exact ⟨hs.bound, hknown⟩
  | records s => exact ⟨hs.bound, hs.deferred⟩
  | handOver => exact ⟨hs.bound, hs.deferred⟩
  | proposal now p consensus hfits h =>
    obtain ⟨_, _, _, _, _, rfl⟩ := BftConsensus.handleProposal_eq_ok h
    exact ⟨hs.bound, hs.deferred⟩
  | prevote m => exact hs
  | vote env m consensus hknown h =>
    obtain ⟨_, _, _, heq⟩ := afterVote_eq r env m consensus
    obtain ⟨_, _, s, haccepts⟩ := BftConsensus.handle_ok h
    rw [heq]
    cases haccepts <;> exact ⟨hs.bound, hs.deferred⟩
  | precommit b m => exact hs
  | drop => exact ⟨hs.bound, hs.deferred⟩
  | commit b chain hpending hverify hchain =>
    obtain ⟨_, htip⟩ := Blockchain.tipHeight_applyBlock hchain
    refine ⟨?_, hs.deferred⟩
    have hbound := hs.bound
    show r.consensus.height.toNat ≤ chain.tipHeight.toNat + 1
    omega
  | timeout round consensus hround h =>
    rcases BftConsensus.startRound_eq_ok h with ⟨hlt, _⟩ | ⟨_, _, rfl⟩
    · exact absurd hlt (UInt64.lt_irrefl _)
    · exact ⟨hs.bound, hs.deferred⟩
  | next height consensus hheight hwhy h =>
    have hnew : consensus.height = height := by
      rcases BftConsensus.startRound_eq_ok h with ⟨_, rfl⟩ | ⟨heq, _, rfl⟩
      · rfl
      · exact heq.symm
    refine ⟨?_, hs.deferred⟩
    show consensus.height.toNat ≤ r.chain.tipHeight.toNat + 1
    rw [hnew, hheight]
  | sync now c chain hverify hfits hchain =>
    obtain ⟨_, htip⟩ := Blockchain.tipHeight_applyBlock hchain
    refine ⟨?_, hs.deferred⟩
    have hbound := hs.bound
    show r.consensus.height.toNat ≤ chain.tipHeight.toNat + 1
    omega

lemma Sound.moves {known : ConsensusMessage → Prop} {r r' : ConsensusRuntime}
    {signed : List ConsensusMessage} (hs : Sound known r) (h : Moves known r signed r') :
    Sound known r' :=
  Moves.induction (P := fun r _ => Sound known r) (fun hr hmove => hr.move hmove) [] h hs

/-! ## Operations are moves -/

section
variable {known : ConsensusMessage → Prop}

lemma signVote_eq_ok {r : ConsensusRuntime} {env : Reading} {height : UInt64} {round : UInt32}
    {voteType : VoteType} {blockHash : String} {m : ConsensusMessage}
    (h : r.signVote env height round voteType blockHash = .ok m) :
    m.height = height ∧ m.round = round ∧ m.validatorId = r.validator ∧
      m.voteType = voteType ∧ m.blockHash = blockHash ∧ m.verify = .ok () := by
  simp only [signVote, ConsensusMessage.fromSignature, bind_eq_ok, pure_eq_ok] at h
  obtain ⟨signature, _, _, hverify, rfl⟩ := h
  exact ⟨rfl, rfl, rfl, rfl, rfl, hverify⟩

/-- An accepted proposal is the next block, fits the schedule and was taken by the machine. -/
lemma acceptProposal_eq_ok {r r' : ConsensusRuntime} {env : Reading} {p : SignedProposal}
    (h : r.acceptProposal env p = .ok r') :
    r.Fits env.now p.block ∧ ∃ consensus, r.consensus.handleProposal p = .ok consensus ∧
      r' = { r with consensus, pending := some p.block }.resetDeadline env := by
  simp only [acceptProposal, bind_eq_ok, okOr_eq_ok, ensure_eq_ok, addOne_eq_ok, pure_eq_ok] at h
  obtain ⟨previous, hlast, _, hprevious, next, hnext, _, rfl, _, hscheduled, consensus, hc, rfl⟩ := h
  obtain ⟨htip, hhash⟩ := Blockchain.tipHeight_of_getLast hlast
  exact ⟨⟨by rw [htip, hnext], by rw [hhash, hprevious], hscheduled⟩, consensus, hc, rfl⟩

lemma receiveProposal_moves (r : ConsensusRuntime) (env : Reading) (p : SignedProposal) :
    Moves known r (returned (fun vote => [vote]) (r.receiveProposal env p).1)
      (r.receiveProposal env p).2 := by
  unfold receiveProposal
  cases haccept : r.acceptProposal env p with
  | error e => exact Moves.refl r
  | ok r' =>
    obtain ⟨hfits, consensus, hc, hr'⟩ := acceptProposal_eq_ok haccept
    have hmoves : Moves known r [] r' := by
      rw [hr']
      exact (Move.proposal r env.now p consensus hfits hc).moves.quiet (Move.timer _ _)
    simp only
    cases hsign : r'.signVote env p.height p.round .prevote p.block.hash with
    | error e => exact hmoves
    | ok m =>
      obtain ⟨hheight, hround, hid, htype, hhash, hverify⟩ := signVote_eq_ok hsign
      obtain ⟨hpheight, hpround, _, _, _, rfl⟩ := BftConsensus.handleProposal_eq_ok hc
      subst hr'
      exact hmoves.tail (Move.prevote _ m
        ⟨hheight.trans hpheight, hround.trans hpround, hid, htype, hverify⟩ rfl
        (congrArg some hhash.symm))

/-- The end of `receive_vote` once the vote was counted. -/
lemma finalizePending_moves (r : ConsensusRuntime) :
    Moves known r (returned Option.toList r.finalizePending.1) r.finalizePending.2 := by
  unfold finalizePending
  cases hpending : r.pending with
  | none => exact Moves.refl r
  | some b =>
    cases hcommit : { r with pending := none }.commit b with
    | error e =>
      simp only [hcommit]
      exact (Move.drop r).moves
    | ok r' =>
      simp only [hcommit]
      simp only [ConsensusRuntime.commit, bind_eq_ok, ensure_eq_ok, pure_eq_ok] at hcommit
      obtain ⟨_, _, _, hverify, chain, hchain, rfl⟩ := hcommit
      exact (Move.commit r b chain hpending hverify hchain).moves

/-- Finalising returns no vote. -/
lemma finalizePending_returns (r : ConsensusRuntime) (m : ConsensusMessage) :
    r.finalizePending.1 ≠ .ok (some m) := by
  unfold finalizePending
  cases r.pending with
  | none => simp
  | some b =>
    simp only
    split <;> simp

/-- A vote a runtime returns from `receive_vote` is a precommit. -/
lemma receiveVote_returns {r : ConsensusRuntime} {env : Reading} {vote m : ConsensusMessage}
    (h : (r.receiveVote env vote).1 = .ok (some m)) : m.voteType = .precommit := by
  unfold receiveVote at h
  rcases hhandle : r.consensus.handle vote with ⟨e | ⟨⟩, consensus⟩ <;>
    simp only [hhandle, reduceCtorEq] at h
  split at h
  · simp only [precommitPending, bind_eq_ok, pure_eq_ok] at h
    obtain ⟨b, _, m', hsign, hm⟩ := h
    obtain ⟨_, _, _, htype, _⟩ := signVote_eq_ok hsign
    rwa [Option.some.inj hm] at htype
  · exact absurd h (finalizePending_returns _ m)
  · simp at h

lemma receiveVote_moves (r : ConsensusRuntime) (env : Reading) (vote : ConsensusMessage)
    (hknown : vote.voteType = .prevote → known vote) :
    Moves known r (returned Option.toList (r.receiveVote env vote).1)
      (r.receiveVote env vote).2 := by
  unfold receiveVote
  rcases hhandle : r.consensus.handle vote with ⟨e | ⟨⟩, consensus⟩
  · obtain ⟨s, rfl⟩ := BftConsensus.handle_error hhandle
    exact (Move.records r s).moves
  · have hvote := (Move.vote r env vote consensus hknown hhandle).moves
    simp only
    split
    · rename_i hphase
      -- the phase is the one after the vote: the node signs its precommit for the candidate
      set after := ({ r with consensus }.keepPrecommit vote).onPhaseChange env r.consensus.phase
      cases hsign : after.precommitPending env with
      | error e => exact hvote
      | ok o =>
        simp only [precommitPending, bind_eq_ok, okOr_eq_ok, pure_eq_ok] at hsign
        obtain ⟨b, hpending, m, hm, rfl⟩ := hsign
        obtain ⟨hheight, hround, hid, htype, hhash, _⟩ := signVote_eq_ok hm
        exact hvote.tail (Move.precommit after b m hphase hpending hheight hround hid htype hhash)
    · exact hvote.trans (finalizePending_moves _)
    · exact hvote

/-! ### Deferred votes -/

namespace Replay

/-- The replay went on by moves, which signed what was added to `outbound`. -/
def Advances (known : ConsensusMessage → Prop) (s s' : Replay) : Prop :=
  ∃ signed, Moves known s.runtime signed s'.runtime ∧ s'.outbound ⊆ s.outbound ++ signed

/-- Moves that sign nothing for `outbound`. -/
lemma Advances.of_moves {s s' : Replay} {signed : List ConsensusMessage}
    (h : Moves known s.runtime signed s'.runtime) (hout : s'.outbound = s.outbound) :
    Advances known s s' :=
  ⟨signed, h, hout ▸ List.subset_append_left _ _⟩

lemma Advances.trans {s s' s'' : Replay} (h : Advances known s s') (h' : Advances known s' s'') :
    Advances known s s'' := by
  obtain ⟨signed, hmoves, hout⟩ := h
  obtain ⟨signed', hmoves', hout'⟩ := h'
  refine ⟨signed ++ signed', hmoves.trans hmoves', fun m hm => ?_⟩
  rw [← List.append_assoc]
  rcases List.mem_append.mp (hout' hm) with hm | hm
  · exact List.mem_append_left _ (hout hm)
  · exact List.mem_append_right _ hm

/-- One vote advances the replay and is itself the only vote that may remain. -/
lemma vote_advances (env : ℕ → Reading) (s : Replay) (v : ConsensusMessage) (hv : known v) :
    Advances known s (s.vote env v).2 ∧ (s.vote env v).2.remaining ⊆ s.remaining ++ [v] := by
  have hfirst := receiveVote_moves s.runtime (env s.readings) v (fun _ => hv)
  unfold vote receive
  rcases hreceive : s.runtime.receiveVote (env s.readings) v with ⟨e | _ | precommit, r₁⟩ <;>
    rw [hreceive] at hfirst <;> simp only
  · split
    · exact ⟨.of_moves hfirst rfl, List.Subset.refl _⟩
    · exact ⟨.of_moves hfirst rfl, List.subset_append_left _ _⟩
  · exact ⟨.of_moves hfirst rfl, List.subset_append_left _ _⟩
  · -- the precommit is received at once, and is no prevote
    have hreturned : (s.runtime.receiveVote (env s.readings) v).1 = .ok (some precommit) := by
      rw [hreceive]
    have htype := receiveVote_returns hreturned
    have hsecond : Moves known r₁ _ _ := receiveVote_moves r₁ (env (s.readings + 1)) precommit
      fun hprevote => by rw [htype] at hprevote; cases hprevote
    have hout : ∀ signed : List ConsensusMessage,
        s.outbound ++ [precommit] ⊆ s.outbound ++ ([precommit] ++ signed) := by
      intro signed
      rw [← List.append_assoc]
      exact List.subset_append_left _ _
    rcases hreceive' : r₁.receiveVote (env (s.readings + 1)) precommit with ⟨e | o, r₂⟩ <;>
      rw [hreceive'] at hsecond <;> simp only
    · exact ⟨⟨_, hfirst.trans hsecond, hout _⟩, List.subset_append_left _ _⟩
    · exact ⟨⟨_, hfirst.trans hsecond, hout _⟩, List.subset_append_left _ _⟩

lemma votes_advances (env : ℕ → Reading) :
    ∀ (l : List ConsensusMessage) (s : Replay), (∀ v ∈ l, known v) →
      Advances known s (votes env l s).2 ∧ (votes env l s).2.remaining ⊆ s.remaining ++ l := by
  intro l
  induction l with
  | nil => exact fun s _ => ⟨.of_moves (Moves.refl _) rfl, List.subset_append_left _ _⟩
  | cons v l ih =>
    intro s hknown
    obtain ⟨hvote, hremaining⟩ := vote_advances env s v (hknown v List.mem_cons_self)
    unfold votes
    rcases hs : s.vote env v with ⟨e | ⟨⟩, s₁⟩ <;> rw [hs] at hvote hremaining <;> simp only
    · refine ⟨hvote, fun m hm => ?_⟩
      have := hremaining hm
      simp only [List.mem_append, List.mem_cons] at this ⊢
      tauto
    · obtain ⟨hrest, hremaining'⟩ := ih s₁ fun m hm => hknown m (List.mem_cons_of_mem _ hm)
      refine ⟨hvote.trans hrest, fun m hm => ?_⟩
      rcases List.mem_append.mp (hremaining' hm) with hm | hm
      · have := hremaining hm
        simp only [List.mem_append, List.mem_cons] at this ⊢
        tauto
      · exact List.mem_append_right _ (List.mem_cons_of_mem _ hm)

lemma rounds_advances (env : ℕ → Reading) :
    ∀ (fuel : ℕ) (s : Replay), (∀ v ∈ s.runtime.deferredVotes, known v) →
      Advances known s (rounds env fuel s).2 := by
  intro fuel
  induction fuel with
  | zero => exact fun s _ => .of_moves (Moves.refl _) rfl
  | succ fuel ih =>
    intro s hknown
    set taken := s.runtime.deferredVotes with htaken
    set start : Replay := { s with
      runtime := { s.runtime with deferredVotes := [] }, remaining := [], progressed := false }
      with hstart
    have htake : Advances known s start :=
      .of_moves (Move.queue s.runtime [] (fun _ hv => absurd hv List.not_mem_nil)).moves rfl
    obtain ⟨hvotes, hremaining⟩ := votes_advances env taken start hknown
    unfold rounds
    simp only [← htaken, ← hstart]
    rcases hs : votes env taken start with ⟨e | ⟨⟩, s₁⟩ <;> rw [hs] at hvotes hremaining <;>
      simp only
    · exact htake.trans hvotes
    · have hleft : ∀ v ∈ s₁.remaining, known v := fun v hv => hknown v (hremaining hv)
      set back : Replay := { s₁ with runtime := { s₁.runtime with deferredVotes := s₁.remaining } }
      have hback : Advances known s back :=
        (htake.trans hvotes).trans
          (.of_moves (Move.queue s₁.runtime s₁.remaining hleft).moves rfl)
      split
      · exact hback.trans (ih back hleft)
      · exact hback

end Replay

lemma replayDeferredVotes_moves (r : ConsensusRuntime) (env : ℕ → Reading)
    (hknown : ∀ v ∈ r.deferredVotes, known v) :
    ∃ signed, Moves known r signed (r.replayDeferredVotes env).2 ∧
      returned (fun votes => votes) (r.replayDeferredVotes env).1 ⊆ signed := by
  obtain ⟨signed, hmoves, hout⟩ := Replay.rounds_advances env (r.deferredVotes.length + 1)
    ⟨r, [], [], false, 0⟩ hknown
  refine ⟨signed, ?_⟩
  unfold replayDeferredVotes
  simp only
  rcases hs : Replay.rounds env (r.deferredVotes.length + 1) ⟨r, [], [], false, 0⟩ with
    ⟨e | ⟨⟩, s⟩ <;> rw [hs] at hmoves hout
  · exact ⟨hmoves, List.nil_subset _⟩
  · exact ⟨hmoves, hout⟩

namespace Replay
variable {P : ConsensusRuntime → Prop}

lemma vote_induction (hreceive : ∀ r env v, P r → P (r.receiveVote env v).2) (env : ℕ → Reading)
    (s : Replay) (v : ConsensusMessage) (hs : P s.runtime) : P (s.vote env v).2.runtime := by
  have hfirst := hreceive s.runtime (env s.readings) v hs
  unfold vote receive
  rcases hr : s.runtime.receiveVote (env s.readings) v with ⟨e | _ | precommit, r₁⟩ <;>
    rw [hr] at hfirst <;> simp only
  · split <;> exact hfirst
  · exact hfirst
  · have hsecond := hreceive r₁ (env (s.readings + 1)) precommit hfirst
    rcases hr' : r₁.receiveVote (env (s.readings + 1)) precommit with ⟨e | o, r₂⟩ <;>
      rw [hr'] at hsecond <;> exact hsecond

lemma votes_induction (hreceive : ∀ r env v, P r → P (r.receiveVote env v).2) (env : ℕ → Reading) :
    ∀ (l : List ConsensusMessage) (s : Replay), P s.runtime → P (votes env l s).2.runtime := by
  intro l
  induction l with
  | nil => exact fun s hs => hs
  | cons v l ih =>
    intro s hs
    have hvote := vote_induction hreceive env s v hs
    unfold votes
    rcases hsv : s.vote env v with ⟨e | ⟨⟩, s₁⟩ <;> rw [hsv] at hvote
    · exact hvote
    · exact ih s₁ hvote

lemma rounds_induction (hreceive : ∀ r env v, P r → P (r.receiveVote env v).2)
    (hqueue : ∀ r deferredVotes, P r → P { r with deferredVotes }) (env : ℕ → Reading) :
    ∀ (fuel : ℕ) (s : Replay), P s.runtime → P (rounds env fuel s).2.runtime := by
  intro fuel
  induction fuel with
  | zero => exact fun s hs => hs
  | succ fuel ih =>
    intro s hs
    set start : Replay := { s with
      runtime := { s.runtime with deferredVotes := [] }, remaining := [], progressed := false }
      with hstart
    have hvotes := votes_induction hreceive env s.runtime.deferredVotes start (hqueue _ [] hs)
    unfold rounds
    simp only [← hstart]
    rcases hsv : votes env s.runtime.deferredVotes start with ⟨e | ⟨⟩, s₁⟩ <;> rw [hsv] at hvotes <;>
      simp only
    · exact hvotes
    · have hback := hqueue s₁.runtime s₁.remaining hvotes
      split
      · exact ih _ hback
      · exact hback

end Replay

/-- What receiving a vote and changing the queue preserve, a replay preserves. -/
lemma replayDeferredVotes_induction {P : ConsensusRuntime → Prop}
    (hreceive : ∀ r env v, P r → P (r.receiveVote env v).2)
    (hqueue : ∀ r deferredVotes, P r → P { r with deferredVotes }) (r : ConsensusRuntime)
    (env : ℕ → Reading) (hr : P r) : P (r.replayDeferredVotes env).2 := by
  have hrounds := Replay.rounds_induction hreceive hqueue env (r.deferredVotes.length + 1)
    ⟨r, [], [], false, 0⟩ hr
  unfold replayDeferredVotes
  simp only
  rcases hs : Replay.rounds env (r.deferredVotes.length + 1) ⟨r, [], [], false, 0⟩ with
    ⟨e | ⟨⟩, s⟩ <;> rw [hs] at hrounds <;> exact hrounds

/-! ### Time and synchronisation -/

lemma deferVote_moves (r : ConsensusRuntime) (vote : ConsensusMessage)
    (hs : Sound known r) (hvote : known vote) : Moves known r [] (r.deferVote vote) := by
  unfold deferVote
  split
  · exact Moves.refl r
  · refine (Move.queue r _ ?_).moves
    intro v hv
    rcases List.mem_append.mp hv with hv | hv
    · split at hv
      · exact hs.deferred v (List.mem_of_mem_tail hv)
      · exact hs.deferred v hv
    · rwa [List.mem_singleton.mp hv]

lemma timeoutIfDue_moves (r : ConsensusRuntime) (now : ℕ) :
    Moves known r [] (r.timeoutIfDue now).2 := by
  unfold timeoutIfDue
  split
  · exact Moves.refl r
  · cases htimeout : r.consensus.onTimeout with
    | error e => exact Moves.refl r
    | ok consensus =>
      obtain ⟨round, hround, hstart⟩ := BftConsensus.onTimeout_eq_ok htimeout
      exact (Move.timeout r round consensus hround hstart).moves.quiet (Move.timer _ _)

/-- The height after the tip is started when the current one is finalised or passed. -/
lemma startNextHeight_moves {r r' : ConsensusRuntime} {env : Reading}
    (h : r.startNextHeight env = .ok r')
    (hwhy : r.consensus.phase = .finalized ∨
      r.consensus.height.toNat < r.chain.tipHeight.toNat + 1) : Moves known r [] r' := by
  simp only [startNextHeight, bind_eq_ok, okOr_eq_ok, addOne_eq_ok, pure_eq_ok] at h
  obtain ⟨previous, hlast, next, hnext, consensus, hstart, rfl⟩ := h
  obtain ⟨htip, _⟩ := Blockchain.tipHeight_of_getLast hlast
  rw [← htip] at hnext
  rw [← hnext, ← UInt64.lt_iff_toNat_lt] at hwhy
  exact (Move.next r next consensus hnext hwhy hstart).moves.quiet (Move.timer _ _)

lemma advanceAfterFinalization_moves (r : ConsensusRuntime) (env : Reading) :
    Moves known r [] (getOk (r.advanceAfterFinalization env) r) := by
  cases hadvance : r.advanceAfterFinalization env with
  | error e => exact Moves.refl r
  | ok r' =>
    simp only [advanceAfterFinalization, bind_eq_ok, ensure_eq_ok] at hadvance
    obtain ⟨_, hphase, hstart⟩ := hadvance
    exact startNextHeight_moves hstart (.inl hphase)

/-- A certificate is either for a block the chain has, or its block is the next one and is
applied. -/
lemma applySyncCertificate_eq_ok {r r' : ConsensusRuntime} {env : Reading}
    {c : FinalityCertificate} {done : Bool}
    (h : r.applySyncCertificate env c = .ok (done, r')) :
    c.verify r.validators = .ok () ∧
      ((done = false ∧ r' = r) ∨
        (done = true ∧ r.Fits env.now c.block ∧ ∃ chain, r.chain.applyBlock c.block = .ok chain ∧
          r' = { r with chain, finalized := r.finalized ++ [c] })) := by
  simp only [applySyncCertificate, bind_eq_ok, okOr_eq_ok, addOne_eq_ok] at h
  obtain ⟨_, hverify, previous, hlast, next, hnext, h⟩ := h
  refine ⟨hverify, ?_⟩
  split at h
  · simp only [bind_eq_ok, pure_eq_ok, Prod.mk.injEq] at h
    obtain ⟨_, _, _, _, rfl, rfl⟩ := h
    exact .inl ⟨rfl, rfl⟩
  · simp only [bind_eq_ok, ensure_eq_ok, pure_eq_ok, Prod.mk.injEq] at h
    obtain ⟨_, rfl, _, hscheduled, chain, hchain, rfl, rfl⟩ := h
    obtain ⟨htip, hhash⟩ := Blockchain.tipHeight_of_getLast hlast
    obtain ⟨previous', _, hlast', hlinks, _, _⟩ := Blockchain.applyBlock_eq_ok.mp hchain
    obtain rfl : previous = previous' := Option.some.inj (hlast.symm.trans hlast')
    exact .inr ⟨rfl, ⟨by rw [htip, hnext], by rw [hhash, hlinks.previousHash], hscheduled⟩,
      chain, hchain, rfl⟩

/-- The loop over the certificates leaves the consensus alone and raises the tip by the number
of blocks it applied. -/
lemma applySyncLoop_moves (known : ConsensusMessage → Prop) (env : ℕ → Reading) :
    ∀ (l : List FinalityCertificate) (readings : ℕ) (r : ConsensusRuntime) (applied : ℕ),
      Moves known r [] (applySyncLoop env l readings r applied).2 ∧
        (applySyncLoop env l readings r applied).2.consensus = r.consensus ∧
        ∀ total, (applySyncLoop env l readings r applied).1 = .ok total →
          applied ≤ total ∧ (applySyncLoop env l readings r applied).2.chain.tipHeight.toNat
            + applied = r.chain.tipHeight.toNat + total := by
  intro l
  induction l with
  | nil =>
    intro readings r applied
    refine ⟨Moves.refl r, rfl, fun total htotal => ?_⟩
    obtain rfl := Except.ok.inj htotal
    exact ⟨le_refl _, rfl⟩
  | cons c l ih =>
    intro readings r applied
    unfold applySyncLoop
    cases hc : r.applySyncCertificate (env readings) c with
    | error e => exact ⟨Moves.refl r, rfl, fun total htotal => by simp at htotal⟩
    | ok result =>
      obtain ⟨done, r₁⟩ := result
      obtain ⟨hverify, ⟨rfl, rfl⟩ | ⟨rfl, hfits, chain, hchain, rfl⟩⟩ :=
        applySyncCertificate_eq_ok hc
      · exact ih (readings + 1) r₁ applied
      · obtain ⟨hmoves, hconsensus, htotal⟩ := ih (readings + 1)
          { r with chain, finalized := r.finalized ++ [c] } (applied + 1)
        refine ⟨(Move.sync r _ c chain hverify hfits hchain).moves.trans hmoves, hconsensus, ?_⟩
        intro total h
        obtain ⟨hle, hsum⟩ := htotal total h
        obtain ⟨_, htip⟩ := Blockchain.tipHeight_applyBlock hchain
        refine ⟨by omega, ?_⟩
        change _ = chain.tipHeight.toNat + total at hsum
        simp only [if_true]
        omega

lemma applySyncCertificates_moves (r : ConsensusRuntime) (env : ℕ → Reading)
    (certificates : List FinalityCertificate) (hs : Sound known r) :
    Moves known r [] (r.applySyncCertificates env certificates).2 := by
  obtain ⟨hmoves, hconsensus, htotal⟩ := applySyncLoop_moves known env certificates 0 r 0
  unfold applySyncCertificates
  rcases hloop : applySyncLoop env certificates 0 r 0 with ⟨e | applied, r₁⟩ <;>
    rw [hloop] at hmoves hconsensus htotal <;> simp only
  · exact hmoves
  · split
    · rename_i hpos
      cases hstart : r₁.startNextHeight (env certificates.length) with
      | error e => exact hmoves
      | ok r₂ =>
        obtain ⟨_, hsum⟩ := htotal applied rfl
        have hbound := hs.bound
        refine hmoves.trans (startNextHeight_moves hstart (.inr ?_))
        simp only at hconsensus hsum ⊢
        rw [hconsensus]
        omega
    · exact hmoves

/-- **Every operation is a sequence of moves**, and the votes it returns were signed in them. -/
theorem step_moves (r : ConsensusRuntime) (env : ℕ → Reading) (op : Op) (hs : Sound known r)
    (hknown : ∀ v ∈ op.votes, known v) :
    ∃ signed, Moves known r signed (r.step env op).2 ∧ (r.step env op).1 ⊆ signed := by
  cases op with
  | receiveProposal p => exact ⟨_, receiveProposal_moves r (env 0) p, List.Subset.refl _⟩
  | receiveVote vote =>
    exact ⟨_, receiveVote_moves r (env 0) vote fun _ => hknown vote (List.mem_singleton_self _),
      List.Subset.refl _⟩
  | deferVote vote =>
    exact ⟨[], deferVote_moves r vote hs (hknown vote (List.mem_singleton_self _)),
      List.nil_subset _⟩
  | replayDeferredVotes => exact replayDeferredVotes_moves r env hs.deferred
  | timeoutIfDue now => exact ⟨[], timeoutIfDue_moves r now, List.nil_subset _⟩
  | restartPhaseTimeout now => exact ⟨[], (Move.timer r _).moves, List.nil_subset _⟩
  | applySyncCertificates certificates =>
    exact ⟨[], applySyncCertificates_moves r env certificates hs, List.nil_subset _⟩
  | advanceAfterFinalization =>
    exact ⟨[], advanceAfterFinalization_moves r (env 0), List.nil_subset _⟩
  | takeEvidence => exact ⟨[], (Move.records r ⟨_, _, _⟩).moves, List.nil_subset _⟩
  | takeFinalized => exact ⟨[], (Move.handOver r).moves, List.nil_subset _⟩

/-- The runtime after a sequence of operations. -/
def run (r : ConsensusRuntime) (steps : List ((ℕ → Reading) × Op)) : ConsensusRuntime :=
  steps.foldl (fun r e => (r.step e.1 e.2).2) r

/-- **Runs of one node.** What every move preserves holds after every run. -/
theorem run_induction {P : ConsensusRuntime → Prop}
    (hmove : ∀ {r r' : ConsensusRuntime} {signed : List ConsensusMessage},
      P r → Move (fun _ => True) r signed r' → P r')
    (steps : List ((ℕ → Reading) × Op)) :
    ∀ {r : ConsensusRuntime}, Sound (fun _ => True) r → P r →
      Sound (fun _ => True) (r.run steps) ∧ P (r.run steps) := by
  induction steps with
  | nil => exact fun hs hr => ⟨hs, hr⟩
  | cons e rest ih =>
    intro r hs hr
    obtain ⟨signed, hmoves, _⟩ := step_moves r e.1 e.2 hs fun _ _ => trivial
    have hstep : P (r.step e.1 e.2).2 :=
      Moves.induction (P := fun r _ => P r) (fun hr hm => hmove hr hm) [] hmoves hr
    exact ih (hs.moves hmoves) hstep

end

end ConsensusRuntime

end IeumChain
