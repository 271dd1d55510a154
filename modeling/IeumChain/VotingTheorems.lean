import IeumChain.Devnet

/-!
# One vote per step

A validator must not sign two votes of one type for different blocks in one round. While the
runtime lives this follows from its state: what it voted for in the current round is its proposal
or its lock, and both are kept until the round is over (`VoteInv`). A runtime that is rebuilt
starts without either.

* `VoteInv` ties the votes signed so far to the state, and every move keeps it;
* `Life` adds the operations that reset the state machine, the replacement of the bootstrap
  validators and the restart of the process;
* `votes_consistent`: as long as no reset happens at a height the node has voted at, two votes of
  the same height, round and type are for the same block.
-/

namespace IeumChain

open Lib

/-- The part of a runtime that decides how it votes. -/
structure VoteState where
  height : UInt64
  round : UInt32
  phase : ConsensusPhase
  proposal : Option String
  lockedValue : Option String
  validValue : Option String
  pending : Option Block

/-- What the state says about the votes signed so far. -/
structure VoteInv (s : VoteState) (sent : List ConsensusMessage) : Prop where
  validLocked : s.validValue = s.lockedValue
  noProposal : s.phase = .propose → s.proposal = none
  proposalLocked : ∀ v w, s.proposal = some v → s.lockedValue = some w → w = v
  decided : s.phase = .precommit ∨ s.phase = .finalized →
    ∃ v, s.proposal = some v ∧ s.lockedValue = some v
  candidate : ∀ b, s.pending = some b → s.proposal = some b.hash ∧ b.height = s.height
  past : ∀ m ∈ sent, m.height < s.height ∨ (m.height = s.height ∧ m.round ≤ s.round)
  /-- A prevote of this round is for the proposal; when the round was opened again, for the lock. -/
  prevoted : ∀ m ∈ sent, m.voteType = .prevote → m.height = s.height → m.round = s.round →
    s.proposal = some m.blockHash ∨ (s.phase = .propose ∧ s.lockedValue = some m.blockHash)
  precommitted : ∀ m ∈ sent, m.voteType = .precommit → m.height = s.height →
    s.lockedValue = some m.blockHash
  once : ∀ m ∈ sent, ∀ m' ∈ sent, m.height = m'.height → m.round = m'.round →
    m.voteType = m'.voteType → m.blockHash = m'.blockHash
  lock : ∀ m ∈ sent, ∀ m' ∈ sent, m.voteType = .precommit → m'.voteType = .prevote →
    m.height = m'.height → m.round ≤ m'.round → m'.blockHash = m.blockHash

namespace VoteInv
variable {s : VoteState} {sent : List ConsensusMessage}

/-- Fewer votes are as consistent. -/
lemma subset {sent' : List ConsensusMessage} (h : VoteInv s sent) (hsub : sent' ⊆ sent) :
    VoteInv s sent' :=
  ⟨h.validLocked, h.noProposal, h.proposalLocked, h.decided, h.candidate,
    fun m hm => h.past m (hsub hm), fun m hm => h.prevoted m (hsub hm),
    fun m hm => h.precommitted m (hsub hm), fun m hm m' hm' => h.once m (hsub hm) m' (hsub hm'),
    fun m hm m' hm' => h.lock m (hsub hm) m' (hsub hm')⟩

/-- A state without lock and proposal above all votes. -/
lemma reset (hphase : s.phase = .propose) (hproposal : s.proposal = none)
    (hlocked : s.lockedValue = none) (hvalid : s.validValue = none) (hpending : s.pending = none)
    (hpast : ∀ m ∈ sent, m.height < s.height)
    (honce : ∀ m ∈ sent, ∀ m' ∈ sent, m.height = m'.height → m.round = m'.round →
      m.voteType = m'.voteType → m.blockHash = m'.blockHash)
    (hlock : ∀ m ∈ sent, ∀ m' ∈ sent, m.voteType = .precommit → m'.voteType = .prevote →
      m.height = m'.height → m.round ≤ m'.round → m'.blockHash = m.blockHash) :
    VoteInv s sent where
  validLocked := hvalid.trans hlocked.symm
  noProposal := fun _ => hproposal
  proposalLocked := fun v w hv => by simp [hproposal] at hv
  decided := fun h => by simp [hphase] at h
  candidate := fun b hb => by simp [hpending] at hb
  past := fun m hm => .inl (hpast m hm)
  prevoted := fun m hm _ heq => absurd (hpast m hm) (heq ▸ UInt64.lt_irrefl _)
  precommitted := fun m hm _ heq => absurd (hpast m hm) (heq ▸ UInt64.lt_irrefl _)
  once := honce
  lock := hlock

/-- The candidate may be given up. -/
lemma dropPending (h : VoteInv s sent) : VoteInv { s with pending := none } sent :=
  ⟨h.validLocked, h.noProposal, h.proposalLocked, h.decided, fun b hb => by simp at hb, h.past,
    h.prevoted, h.precommitted, h.once, h.lock⟩

/-- Taking a proposal the lock allows. -/
lemma takeProposal (h : VoteInv s sent) {b : Block} (hphase : s.phase = .propose)
    (hheight : b.height = s.height)
    (hlock : s.lockedValue = none ∨ s.lockedValue = some b.hash ∨ s.validValue = some b.hash) :
    VoteInv { s with proposal := some b.hash, phase := .prevote, pending := some b } sent where
  validLocked := h.validLocked
  noProposal := fun hp => by simp at hp
  proposalLocked := by
    intro v w hv hw
    obtain rfl := Option.some.inj hv
    rw [h.validLocked] at hlock
    rcases hlock with hlock | hlock | hlock <;> simp_all
  decided := fun hp => by simp at hp
  candidate := fun b' hb' => by
    obtain rfl := Option.some.inj hb'
    exact ⟨rfl, hheight⟩
  past := h.past
  prevoted := by
    intro m hm htype hmheight hmround
    -- before the proposal the vote can only have been for the lock
    rcases h.prevoted m hm htype hmheight hmround with hproposal | ⟨_, hlocked⟩
    · rw [h.noProposal hphase] at hproposal
      cases hproposal
    · left
      rw [h.validLocked] at hlock
      rcases hlock with hlock | hlock | hlock <;> simp_all
  precommitted := h.precommitted
  once := h.once
  lock := h.lock

/-- A quorum of prevotes locks the proposal. -/
lemma lockProposal (h : VoteInv s sent) {v : String} (hproposal : s.proposal = some v)
    (hphase : s.phase = .prevote) :
    VoteInv { s with validValue := some v, lockedValue := some v, phase := .precommit } sent where
  validLocked := rfl
  noProposal := fun hp => by simp at hp
  proposalLocked := fun v' w hv' hw => by simp_all
  decided := fun _ => ⟨v, hproposal, rfl⟩
  candidate := h.candidate
  past := h.past
  prevoted := by
    intro m hm htype hmheight hmround
    rcases h.prevoted m hm htype hmheight hmround with hm' | ⟨hp, _⟩
    · exact .inl hm'
    · rw [hphase] at hp
      cases hp
  precommitted := by
    intro m hm htype hmheight
    have hlocked := h.precommitted m hm htype hmheight
    rw [h.proposalLocked v m.blockHash hproposal hlocked]
  once := h.once
  lock := h.lock

/-- A quorum of precommits ends the voting on the proposal. -/
lemma finalize (h : VoteInv s sent) (hphase : s.phase = .precommit ∨ s.phase = .finalized) :
    VoteInv { s with phase := .finalized } sent where
  validLocked := h.validLocked
  noProposal := fun hp => by simp at hp
  proposalLocked := h.proposalLocked
  decided := fun _ => h.decided hphase
  candidate := h.candidate
  past := h.past
  prevoted := by
    intro m hm htype hmheight hmround
    rcases h.prevoted m hm htype hmheight hmround with hm' | ⟨hp, _⟩
    · exact .inl hm'
    · rcases hphase with hphase | hphase <;> rw [hphase] at hp <;> cases hp
  precommitted := h.precommitted
  once := h.once
  lock := h.lock

/-- A later round keeps the lock; nothing was signed in it yet. -/
lemma nextRound (h : VoteInv s sent) {round : UInt32} (hround : s.round < round) :
    VoteInv { s with round, phase := .propose, proposal := none, pending := none } sent where
  validLocked := h.validLocked
  noProposal := fun _ => rfl
  proposalLocked := fun v w hv => by simp at hv
  decided := fun hp => by simp at hp
  candidate := fun b hb => by simp at hb
  past := by
    intro m hm
    rcases h.past m hm with hlt | ⟨heq, hle⟩
    · exact .inl hlt
    · exact .inr ⟨heq, UInt32.le_of_lt (UInt32.lt_of_le_of_lt hle hround)⟩
  prevoted := by
    intro m hm _ hmheight hmround
    rcases h.past m hm with hlt | ⟨_, hle⟩
    · rw [hmheight] at hlt
      exact absurd hlt (UInt64.lt_irrefl _)
    · rw [hmround] at hle
      exact absurd (UInt32.lt_of_le_of_lt hle hround) (UInt32.lt_irrefl _)
  precommitted := h.precommitted
  once := h.once
  lock := h.lock

/-- A decided round that is opened again keeps the lock on its proposal. -/
lemma reopen (h : VoteInv s sent) (hphase : s.phase = .finalized) :
    VoteInv { s with phase := .propose, proposal := none, pending := none } sent where
  validLocked := h.validLocked
  noProposal := fun _ => rfl
  proposalLocked := fun v w hv => by simp at hv
  decided := fun hp => by simp at hp
  candidate := fun b hb => by simp at hb
  past := h.past
  prevoted := by
    intro m hm htype hmheight hmround
    obtain ⟨v, hproposal, hlocked⟩ := h.decided (.inr hphase)
    rcases h.prevoted m hm htype hmheight hmround with hm' | ⟨hp, _⟩
    · rw [hproposal] at hm'
      exact .inr ⟨rfl, hlocked.trans hm'⟩
    · rw [hphase] at hp
      cases hp
  precommitted := h.precommitted
  once := h.once
  lock := h.lock

/-- A consistent vote for the current round may be signed. -/
lemma append (h : VoteInv s sent) {m : ConsensusMessage} (hheight : m.height = s.height)
    (hround : m.round = s.round) (hproposal : s.proposal = some m.blockHash)
    (hprecommit : m.voteType = .precommit → s.lockedValue = some m.blockHash)
    (hphase : s.phase ≠ .propose) : VoteInv s (sent ++ [m]) := by
  -- what was signed before in this round, or precommitted at this height, is for the same block
  have hprevotes : ∀ m' ∈ sent, m'.voteType = .prevote → m'.height = s.height →
      m'.round = s.round → m'.blockHash = m.blockHash := by
    intro m' hm' htype hmheight hmround
    rcases h.prevoted m' hm' htype hmheight hmround with hp | ⟨hp, _⟩
    · exact Option.some.inj (hp.symm.trans hproposal)
    · exact absurd hp hphase
  have hprecommits : ∀ m' ∈ sent, m'.voteType = .precommit → m'.height = s.height →
      m'.blockHash = m.blockHash := fun m' hm' htype hmheight =>
    h.proposalLocked m.blockHash m'.blockHash hproposal (h.precommitted m' hm' htype hmheight)
  have hsame : ∀ m' ∈ sent, m'.height = m.height → m'.round = m.round →
      m'.voteType = m.voteType → m'.blockHash = m.blockHash := by
    intro m' hm' hh hr _
    cases htype : m'.voteType with
    | prevote => exact hprevotes m' hm' htype (hh.trans hheight) (hr.trans hround)
    | precommit => exact hprecommits m' hm' htype (hh.trans hheight)
  refine ⟨h.validLocked, h.noProposal, h.proposalLocked, h.decided, h.candidate, ?_, ?_, ?_, ?_, ?_⟩
  · intro m' hm'
    rcases List.mem_append.mp hm' with hm' | hm'
    · exact h.past m' hm'
    · rw [List.mem_singleton.mp hm']
      exact .inr ⟨hheight, hround ▸ UInt32.le_refl _⟩
  · intro m' hm' htype hmheight hmround
    rcases List.mem_append.mp hm' with hm' | hm'
    · exact h.prevoted m' hm' htype hmheight hmround
    · rw [List.mem_singleton.mp hm']
      exact .inl hproposal
  · intro m' hm' htype hmheight
    rcases List.mem_append.mp hm' with hm' | hm'
    · exact h.precommitted m' hm' htype hmheight
    · rw [List.mem_singleton.mp hm'] at htype ⊢
      exact hprecommit htype
  · intro m₁ hm₁ m₂ hm₂ hh hr ht
    rcases List.mem_append.mp hm₁ with hm₁ | hm₁ <;> rcases List.mem_append.mp hm₂ with hm₂ | hm₂
    · exact h.once m₁ hm₁ m₂ hm₂ hh hr ht
    · rw [List.mem_singleton.mp hm₂] at hh hr ht ⊢
      exact hsame m₁ hm₁ hh hr ht
    · rw [List.mem_singleton.mp hm₁] at hh hr ht ⊢
      exact (hsame m₂ hm₂ hh.symm hr.symm ht.symm).symm
    · rw [List.mem_singleton.mp hm₁, List.mem_singleton.mp hm₂]
  · intro m₁ hm₁ m₂ hm₂ ht₁ ht₂ hh hr
    rcases List.mem_append.mp hm₁ with hm₁ | hm₁ <;> rcases List.mem_append.mp hm₂ with hm₂ | hm₂
    · exact h.lock m₁ hm₁ m₂ hm₂ ht₁ ht₂ hh hr
    · rw [List.mem_singleton.mp hm₂] at hh ⊢
      exact (hprecommits m₁ hm₁ ht₁ (hh.trans hheight)).symm
    · -- the new precommit is of the latest round, so that the prevote is of this round
      rw [List.mem_singleton.mp hm₁] at hh hr ⊢
      have hm₂height : m₂.height = s.height := hh.symm.trans hheight
      have hm₂round : m₂.round = s.round := by
        rcases h.past m₂ hm₂ with hlt | ⟨_, hle⟩
        · rw [hm₂height] at hlt
          exact absurd hlt (UInt64.lt_irrefl _)
        · exact UInt32.le_antisymm hle (hround ▸ hr)
      exact hprevotes m₂ hm₂ ht₂ hm₂height hm₂round
    · rw [List.mem_singleton.mp hm₁, List.mem_singleton.mp hm₂]

end VoteInv

namespace ConsensusRuntime
variable [Primitives]

/-- The voting state of a runtime. -/
def voteState (r : ConsensusRuntime) : VoteState :=
  { height := r.consensus.height, round := r.consensus.round, phase := r.consensus.phase
    proposal := r.consensus.proposal, lockedValue := r.consensus.lockedValue
    validValue := r.consensus.validValue, pending := r.pending }

/-- An accepted vote keeps the votes consistent: it counts, locks or finalises. -/
lemma voteInv_vote {r : ConsensusRuntime} {sent : List ConsensusMessage} {m : ConsensusMessage}
    {consensus : BftConsensus} (hinv : VoteInv r.voteState sent)
    (h : r.consensus.handle m = (.ok (), consensus)) :
    VoteInv { r with consensus }.voteState sent := by
  obtain ⟨hcheck, hproposal, s, haccepts⟩ := BftConsensus.handle_ok h
  obtain ⟨_, _, _, htakes⟩ := BftConsensus.checkVote_eq_ok.mp hcheck
  cases haccepts with
  | counted => exact hinv
  | locked htype hphase hquorum => exact hinv.lockProposal hproposal hphase
  | finalized htype hphase =>
    -- a precommit is taken only once the proposal is locked
    refine hinv.finalize ?_
    show r.consensus.phase = .precommit ∨ r.consensus.phase = .finalized
    rw [htype] at htakes
    cases hp : r.consensus.phase <;> simp_all [BftConsensus.takesVote]

/-- Every move keeps the votes consistent. -/
lemma voteInv_move {known : ConsensusMessage → Prop} {r r' : ConsensusRuntime}
    {sent signed : List ConsensusMessage} (hinv : VoteInv r.voteState sent)
    (h : Move known r signed r') : VoteInv r'.voteState (sent ++ signed) := by
  cases h with
  | timer | queue | records | handOver | sync => rwa [List.append_nil]
  -- the prevote for the proposal is a move of its own
  | proposal now p consensus hfits h =>
    obtain ⟨hheight, _, hverify, hlock, hphase, rfl⟩ := BftConsensus.handleProposal_eq_ok h
    simp only [SignedProposal.verify, bind_eq_ok, ensure_eq_ok] at hverify
    obtain ⟨_, hblock, _⟩ := hverify
    rw [List.append_nil]
    exact hinv.takeProposal hphase (hblock.symm.trans hheight) hlock
  | prevote m hsigns hphase hproposal =>
    refine hinv.append hsigns.height hsigns.round hproposal ?_ ?_
    · intro htype
      rw [hsigns.voteType] at htype
      cases htype
    · show r.consensus.phase ≠ .propose
      rw [hphase]
      simp
  | vote env m consensus hknown h =>
    obtain ⟨_, _, _, heq⟩ := afterVote_eq r env m consensus
    rw [heq, List.append_nil]
    exact voteInv_vote hinv h
  -- in the phase of precommits the lock is on the proposal
  | precommit b m hphase hpending hheight hround hid htype hhash =>
    obtain ⟨hproposal, hb⟩ := hinv.candidate b hpending
    obtain ⟨v, hv, hlocked⟩ := hinv.decided (.inl hphase)
    rw [← hhash] at hproposal
    obtain rfl : v = m.blockHash := Option.some.inj (hv.symm.trans hproposal)
    refine hinv.append (hheight.trans hb) hround hproposal (fun _ => hlocked) ?_
    show r.consensus.phase ≠ .propose
    rw [hphase]
    simp
  | drop => rw [List.append_nil]; exact hinv.dropPending
  | commit b chain => rw [List.append_nil]; exact hinv.dropPending
  | timeout round consensus hround h =>
    rw [List.append_nil]
    rcases BftConsensus.startRound_eq_ok h with ⟨hlt, _⟩ | ⟨_, _, rfl⟩
    · exact absurd hlt (UInt64.lt_irrefl _)
    · exact hinv.nextRound hround
  | next height consensus hheight hwhy h =>
    rw [List.append_nil]
    rcases BftConsensus.startRound_eq_ok h with ⟨hlt, rfl⟩ | ⟨heq, hle, rfl⟩
    · refine VoteInv.reset rfl rfl rfl rfl rfl (fun m hm => ?_) hinv.once hinv.lock
      show m.height < height
      rcases hinv.past m hm with hm' | ⟨hm', _⟩
      · exact UInt64.lt_trans hm' hlt
      · exact hm' ▸ hlt
    · -- the same height again: the round was 0 and decided
      have hround : r.consensus.round = 0 := UInt32.le_antisymm hle UInt32.zero_le
      rcases hwhy with hphase | hlt
      · simpa [voteState, hround] using hinv.reopen hphase
      · rw [heq] at hlt
        exact absurd hlt (UInt64.lt_irrefl _)

/-! ## The life of a validator -/

/-- What happens to the runtime of one validator. A restart makes a new runtime from the chain
that was kept. -/
inductive LifeStep where
  | op (op : Op)
  | setEventSchedule (schedule : EventSchedule)
  | replaceBootstrapValidators (validators : List Validator)
  | restart (validators : List Validator) (timeouts : ConsensusTimeouts) (instant : ℕ)

/-- All votes the validator's runtimes returned, and the runtime it has now. -/
structure Life where
  sent : List ConsensusMessage
  runtime : ConsensusRuntime

namespace Life

/-- One step. A replacement or a restart that fails leaves the runtime as it was. -/
def step (s : Life) (env : ℕ → Reading) : LifeStep → Life
  | .op op =>
    let (votes, runtime) := s.runtime.step env op
    ⟨s.sent ++ votes, runtime⟩
  | .setEventSchedule schedule =>
    { s with runtime := getOk (s.runtime.setEventSchedule schedule) s.runtime }
  | .replaceBootstrapValidators validators =>
    let replaced := s.runtime.replaceBootstrapValidators (env 0) validators
    { s with runtime := getOk replaced s.runtime }
  | .restart validators timeouts instant =>
    let rebuilt := withSigner s.runtime.chain validators s.runtime.validator timeouts instant
    { s with runtime := getOk rebuilt s.runtime }

/-- A sequence of steps. -/
def run (s : Life) (steps : List ((ℕ → Reading) × LifeStep)) : Life :=
  steps.foldl (fun s e => s.step e.1 e.2) s

/-- The steps that make a new state machine are taken only while no vote was returned for the
height after the tip, where the new machine starts. -/
def ResetsUnvoted (s : Life) : LifeStep → Prop
  | .replaceBootstrapValidators _ | .restart _ _ _ =>
    ∀ m ∈ s.sent, m.height.toNat ≠ s.runtime.chain.tipHeight.toNat + 1
  | _ => True

/-- Every step of the run meets the condition in the state it is taken in. -/
def Careful : Life → List ((ℕ → Reading) × LifeStep) → Prop
  | _, [] => True
  | s, e :: rest => s.ResetsUnvoted e.2 ∧ (s.step e.1 e.2).Careful rest

/-- The invariant of a careful life. -/
structure Consistent (s : Life) : Prop where
  sound : Sound (fun _ => True) s.runtime
  votes : VoteInv s.runtime.voteState s.sent

/-- A runtime that starts above all votes makes a consistent life. -/
lemma consistent_of_opened {r : ConsensusRuntime} {sent : List ConsensusMessage}
    {map : HashMap String UInt64} {total height : UInt64}
    (hconsensus : r.consensus = BftConsensus.opened map total height)
    (hheight : height.toNat = r.chain.tipHeight.toNat + 1) (hpending : r.pending = none)
    (hpast : ∀ m ∈ sent, m.height.toNat < height.toNat)
    (honce : ∀ m ∈ sent, ∀ m' ∈ sent, m.height = m'.height → m.round = m'.round →
      m.voteType = m'.voteType → m.blockHash = m'.blockHash)
    (hlock : ∀ m ∈ sent, ∀ m' ∈ sent, m.voteType = .precommit → m'.voteType = .prevote →
      m.height = m'.height → m.round ≤ m'.round → m'.blockHash = m.blockHash) :
    Consistent ⟨sent, r⟩ := by
  refine ⟨⟨?_, fun _ _ => trivial⟩, VoteInv.reset ?_ ?_ ?_ ?_ hpending ?_ honce hlock⟩
  · show r.consensus.height.toNat ≤ _
    rw [hconsensus]
    exact hheight.le
  all_goals
    simp only [voteState, hconsensus]
    try rfl
  intro m hm
  rw [UInt64.lt_iff_toNat_lt]
  exact hpast m hm

/-- The votes of a consistent life stay below the height after the tip when none is at it. -/
lemma Consistent.below {s : Life} (hs : s.Consistent)
    (h : ∀ m ∈ s.sent, m.height.toNat ≠ s.runtime.chain.tipHeight.toNat + 1) :
    ∀ m ∈ s.sent, m.height.toNat < s.runtime.chain.tipHeight.toNat + 1 := by
  intro m hm
  have hne := h m hm
  have hbound := hs.sound.bound
  rcases hs.votes.past m hm with hlt | ⟨heq, _⟩
  · rw [UInt64.lt_iff_toNat_lt] at hlt
    change m.height.toNat < s.runtime.consensus.height.toNat at hlt
    omega
  · change m.height = s.runtime.consensus.height at heq
    rw [← heq] at hbound
    omega

lemma Consistent.step {s : Life} (hs : s.Consistent) (env : ℕ → Reading) (e : LifeStep)
    (hreset : s.ResetsUnvoted e) : (s.step env e).Consistent := by
  cases e with
  | op op =>
    obtain ⟨signed, hmoves, hsub⟩ := step_moves s.runtime env op hs.sound fun _ _ => trivial
    have hvotes : VoteInv (s.runtime.step env op).2.voteState (s.sent ++ signed) :=
      Moves.induction (P := fun r sent => VoteInv r.voteState sent)
        (fun hinv hmove => voteInv_move hinv hmove) s.sent hmoves hs.votes
    refine ⟨hs.sound.moves hmoves, hvotes.subset ?_⟩
    exact List.append_subset.mpr ⟨List.subset_append_left _ _,
      List.Subset.trans hsub (List.subset_append_right _ _)⟩
  | setEventSchedule schedule =>
    simp only [Life.step]
    cases hset : s.runtime.setEventSchedule schedule with
    | error e => exact hs
    | ok r =>
      obtain ⟨hvalid, rfl⟩ := setEventSchedule_eq_ok hset
      exact ⟨⟨hs.sound.bound, fun _ _ => trivial⟩, hs.votes⟩
  | replaceBootstrapValidators validators =>
    have hbelow := hs.below hreset
    simp only [Life.step]
    cases hreplace : s.runtime.replaceBootstrapValidators (env 0) validators with
    | error e => exact hs
    | ok r =>
      simp only [replaceBootstrapValidators, bind_eq_ok, ensure_eq_ok, pure_eq_ok] at hreplace
      obtain ⟨_, ⟨htip, hpending⟩, c, hnew, c', hstart, rfl⟩ := hreplace
      obtain ⟨map, total, rfl, _⟩ := BftConsensus.new_startRound hnew hstart (by decide)
      rw [htip] at hbelow
      refine consistent_of_opened rfl ?_ hpending hbelow hs.votes.once hs.votes.lock
      show (1 : UInt64).toNat = s.runtime.chain.tipHeight.toNat + 1
      rw [htip]
      rfl
  | restart validators timeouts instant =>
    -- a restart opens the height behind the tip, at which by `hreset` nothing was signed
    have hbelow := hs.below hreset
    simp only [Life.step]
    cases hrestart : withSigner s.runtime.chain validators s.runtime.validator timeouts instant with
    | error e => exact hs
    | ok r =>
      obtain ⟨map, total, height, hheight, _, rfl⟩ := withSigner_eq_ok hrestart
      rw [← hheight] at hbelow
      exact consistent_of_opened rfl hheight rfl hbelow hs.votes.once hs.votes.lock

lemma Consistent.run {steps : List ((ℕ → Reading) × LifeStep)} :
    ∀ {s : Life}, s.Consistent → s.Careful steps → (s.run steps).Consistent := by
  induction steps with
  | nil => exact fun hs _ => hs
  | cons e rest ih =>
    intro s hs hcareful
    exact ih (hs.step e.1 e.2 hcareful.1) hcareful.2

end Life

/-- **A validator does not sign two conflicting votes** in a run whose resets all happen while
no vote was returned for the height they start: two returned votes of the same height, round and
type are for the same block. -/
theorem votes_consistent (chain : Blockchain) (validators : List Validator) (validator : String)
    (timeouts : ConsensusTimeouts) (instant : ℕ) (r : ConsensusRuntime)
    (hstart : withSigner chain validators validator timeouts instant = .ok r)
    (steps : List ((ℕ → Reading) × LifeStep)) (hcareful : (Life.mk [] r).Careful steps)
    (m m' : ConsensusMessage) (hm : m ∈ ((Life.mk [] r).run steps).sent)
    (hm' : m' ∈ ((Life.mk [] r).run steps).sent) (hheight : m.height = m'.height)
    (hround : m.round = m'.round) (htype : m.voteType = m'.voteType) :
    m.blockHash = m'.blockHash := by
  have hfresh : (Life.mk [] r).Consistent := by
    obtain ⟨map, total, height, hheight, _, rfl⟩ := withSigner_eq_ok hstart
    exact Life.consistent_of_opened rfl hheight rfl (by simp) (by simp) (by simp)
  exact (hfresh.run hcareful).votes.once m hm m' hm' hheight hround htype

end ConsensusRuntime

namespace ConsensusRuntime

section
attribute [local instance] Devnet.primitives

/-- One step that receives a proposal and returns a prevote. -/
lemma Life.step_receiveProposal {r after : ConsensusRuntime} {env : Reading} {p : SignedProposal}
    {m : ConsensusMessage} (h : r.receiveProposal env p = (.ok m, after))
    (sent : List ConsensusMessage) :
    (Life.mk sent r).step (fun _ => env) (.op (.receiveProposal p)) = ⟨sent ++ [m], after⟩ := by
  simp only [Life.step, ConsensusRuntime.step, h]
  rfl

/-- The node receives the first proposal. -/
def receivesFirst : (ℕ → Reading) × LifeStep :=
  (fun _ => Devnet.reading Devnet.firstPrevote.signature,
    .op (.receiveProposal Devnet.firstProposal))

/-- The node receives the proposal of another block. -/
def receivesRival : (ℕ → Reading) × LifeStep :=
  (fun _ => Devnet.reading Devnet.rivalPrevote.signature,
    .op (.receiveProposal Devnet.rivalProposal))

/-- The node restarts. -/
def restarts : (ℕ → Reading) × LifeStep :=
  (fun _ => Devnet.reading "", .restart [Devnet.self] ⟨3000, 2000, 2000⟩ 0)

/-- Whatever it did before, the node restarts on the genesis block as it started there. -/
lemma Life.step_restarts {r : ConsensusRuntime} (hchain : r.chain = Devnet.chain)
    (hown : r.validator = Devnet.validator) (sent : List ConsensusMessage) :
    (Life.mk sent r).step restarts.1 restarts.2 = Life.mk sent Devnet.node := by
  simp only [restarts, Life.step, hchain, hown]
  rfl

/-- The node restarts before it votes. -/
theorem votes_consistent_first :
    ((Life.mk [] Devnet.node).run [restarts, receivesFirst]).sent = [Devnet.firstPrevote] ∧
      ∀ m ∈ ((Life.mk [] Devnet.node).run [restarts, receivesFirst]).sent,
        ∀ m' ∈ ((Life.mk [] Devnet.node).run [restarts, receivesFirst]).sent,
          m.blockHash = m'.blockHash := by
  obtain ⟨after, hfirst, _⟩ := Devnet.node_receives_first
  have hsent : ((Life.mk [] Devnet.node).run [restarts, receivesFirst]).sent
      = [Devnet.firstPrevote] := by
    rw [Life.run, List.foldl_cons, List.foldl_cons, List.foldl_nil, Life.step_restarts rfl rfl,
      receivesFirst, Life.step_receiveProposal hfirst]
    rfl
  refine ⟨hsent, fun m hm m' hm' => ?_⟩
  have hplaces : m = m' := by
    rw [hsent] at hm hm'
    rw [List.mem_singleton.mp hm, List.mem_singleton.mp hm']
  have hcareful : (Life.mk [] Devnet.node).Careful [restarts, receivesFirst] := by
    refine ⟨?_, trivial, trivial⟩
    exact fun m hm => absurd hm List.not_mem_nil
  exact votes_consistent Devnet.chain [Devnet.self] Devnet.validator ⟨3000, 2000, 2000⟩ 0
    Devnet.node Devnet.node_withSigner [restarts, receivesFirst] hcareful m m' hm hm'
    (by rw [hplaces]) (by rw [hplaces]) (by rw [hplaces])

/-- A node that restarts after its prevote forgets it, and prevotes another block in the same
round. -/
theorem votes_conflict_after_restart :
    Devnet.firstPrevote ∈ ((Life.mk [] Devnet.node).run [receivesFirst, restarts, receivesRival]).sent ∧
      Devnet.rivalPrevote ∈ ((Life.mk [] Devnet.node).run
        [receivesFirst, restarts, receivesRival]).sent ∧
      Devnet.firstPrevote.height = Devnet.rivalPrevote.height ∧
      Devnet.firstPrevote.round = Devnet.rivalPrevote.round ∧
      Devnet.firstPrevote.voteType = Devnet.rivalPrevote.voteType ∧
      Devnet.firstPrevote.blockHash ≠ Devnet.rivalPrevote.blockHash := by
  obtain ⟨after, hfirst, hcandidate, hchain⟩ := Devnet.node_receives_first
  obtain ⟨after', hrival, _⟩ := Devnet.node_receives_rival
  have hsent : ((Life.mk [] Devnet.node).run [receivesFirst, restarts, receivesRival]).sent
      = [Devnet.firstPrevote, Devnet.rivalPrevote] := by
    rw [Life.run, List.foldl_cons, List.foldl_cons, List.foldl_cons, List.foldl_nil, receivesFirst,
      Life.step_receiveProposal hfirst, List.nil_append, Life.step_restarts hchain hcandidate.own,
      receivesRival, Life.step_receiveProposal hrival]
    rfl
  rw [hsent]
  refine ⟨by simp, by simp, rfl, rfl, rfl, fun h => ?_⟩
  exact absurd (hexEncode_inj h) (by decide)

end

end ConsensusRuntime

end IeumChain
