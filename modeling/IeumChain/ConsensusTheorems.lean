import IeumChain.CertificateTheorems

/-!
# What the state machine does

One inversion lemma for each transition of `BftConsensus`: everything a successful call can have
done, guards included, so that no later proof unfolds a transition. A new machine knows each
listed validator with its power (`new_eq_ok`), and while the powers fit into 63 bits its quorum
test is the exact one (`isQuorum_of_hasQuorum`).
-/

namespace IeumChain

open Lib

/-- A signed vote of a validator for a block in a step. -/
structure IsVote [Primitives] (id : String) (height : UInt64) (round : UInt32) (voteType : VoteType)
    (blockHash : String) (m : ConsensusMessage) : Prop where
  validatorId : m.validatorId = id
  height : m.height = height
  round : m.round = round
  voteType : m.voteType = voteType
  blockHash : m.blockHash = blockHash
  verify : m.verify = .ok ()

namespace BftConsensus

/-! ## Construction -/

/-- What the loop over the listed validators has established. -/
structure Registered (validators : List Validator) (map : HashMap String UInt64) : Prop where
  nodup : (validators.map Validator.id).Nodup
  lookup : ∀ v ∈ validators, map.lookup v.id = some v.votingPower
  mem : ∀ id, id ∈ map ↔ id ∈ idsOf validators
  total : HashMap.total UInt64.toNat map = sumPower validators

lemma registered_nil : Registered [] ∅ :=
  ⟨List.nodup_nil, fun _ hv => absurd hv List.not_mem_nil,
    fun id => ⟨fun h => absurd h Finmap.notMem_empty, fun h => absurd h (Finset.notMem_empty id)⟩,
    rfl⟩

lemma Registered.addValidator {validators : List Validator} {map map' : HashMap String UInt64}
    {v : Validator} (hr : Registered validators map) (h : addValidator map v = .ok map') :
    Registered (validators ++ [v]) map' := by
  simp only [BftConsensus.addValidator, bind_eq_ok, ensure_eq_ok, pure_eq_ok] at h
  obtain ⟨_, ⟨_, hnew⟩, rfl⟩ := h
  have hid : v.id ∉ validators.map Validator.id := by
    intro hmem
    exact hnew ((hr.mem v.id).mpr (List.mem_toFinset.mpr hmem))
  refine ⟨?_, ?_, ?_, ?_⟩
  · rw [List.map_append, List.map_singleton, List.nodup_append]
    exact ⟨hr.nodup, List.nodup_singleton _, fun a ha b hb => by
      rw [List.mem_singleton.mp hb]
      rintro rfl
      exact hid ha⟩
  · intro w hw
    rw [HashMap.lookup_insert]
    rcases List.mem_append.mp hw with hw | hw
    · have hne : w.id ≠ v.id := by
        intro heq
        exact hid (heq ▸ List.mem_map_of_mem hw)
      rw [if_neg hne]
      exact hr.lookup w hw
    · rw [List.mem_singleton.mp hw, if_pos rfl]
  · intro id
    rw [Finmap.mem_insert, hr.mem]
    simp [idsOf]
  · rw [HashMap.total_insert_of_notMem _ hnew, hr.total, sumPower, sumPower, List.map_append,
      List.sum_append]
    simp [Nat.add_comm]

lemma Registered.foldlM {rest : List Validator} :
    ∀ {validators : List Validator} {map map' : HashMap String UInt64},
      Registered validators map → rest.foldlM BftConsensus.addValidator map = .ok map' →
      Registered (validators ++ rest) map' := by
  induction rest with
  | nil =>
    intro validators map map' hr h
    cases h
    rwa [List.append_nil]
  | cons v rest ih =>
    intro validators map map' hr h
    obtain ⟨mid, hmid, hrest⟩ := foldlM_cons_eq_ok.mp h
    have hall := ih (hr.addValidator hmid) hrest
    rwa [List.append_assoc] at hall

/-- A list accepted by `new` is not empty, has unique ids and a power that fits into 64 bits. -/
lemma new_eq_ok {validators : List Validator} {c : BftConsensus} (h : new validators = .ok c) :
    ∃ map, Registered validators map ∧ sumPower validators < 2 ^ 64 ∧
      c = waiting map (UInt64.ofNat (sumPower validators)) := by
  simp only [new, bind_eq_ok, ensure_eq_ok, pure_eq_ok] at h
  obtain ⟨_, _, map, hmap, _, htotal, rfl⟩ := h
  have hr := registered_nil.foldlM hmap
  rw [List.nil_append] at hr
  rw [hr.total] at htotal ⊢
  exact ⟨map, hr, htotal, rfl⟩

/-- The machine runs for the listed validators. -/
structure RunsFor (validators : List Validator) (c : BftConsensus) : Prop where
  registered : Registered validators c.validators
  total : c.totalPower.toNat = sumPower validators

lemma runsFor_new {validators : List Validator} {c : BftConsensus} (h : new validators = .ok c) :
    RunsFor validators c := by
  obtain ⟨map, hr, htotal, rfl⟩ := new_eq_ok h
  exact ⟨hr, UInt64.toNat_ofNat_of_lt' htotal⟩

lemma RunsFor.powerOf {validators : List Validator} {c : BftConsensus} (hc : RunsFor validators c)
    {id : String} (hid : id ∈ idsOf validators) : c.powerOf id = powerIn validators id := by
  obtain ⟨v, hv, rfl⟩ := List.mem_map.mp (List.mem_toFinset.mp hid)
  rw [BftConsensus.powerOf, hc.registered.lookup v hv, powerIn_of_mem hc.registered.nodup hv]
  rfl

/-- While the powers fit into 63 bits, the quorum test is exact: nothing saturates on the left. -/
lemma hasQuorum_iff {validators : List Validator} {c : BftConsensus} {key : VoteType × String}
    (hc : RunsFor validators c) (hT : sumPower validators < 2 ^ 63)
    (hvoters : c.voters key ⊆ idsOf validators) :
    c.hasQuorum key = true ↔
      2 * sumPower validators < 3 * weight (powerIn validators) (c.voters key) := by
  have hweight : weight c.powerOf (c.voters key) = weight (powerIn validators) (c.voters key) :=
    Finset.sum_congr rfl fun id hid => hc.powerOf (hvoters hid)
  rw [hasQuorum, decide_eq_true_eq, hweight, hc.total, saturatingMul, saturatingMul]
  omega

lemma isQuorum_of_hasQuorum {validators : List Validator} {c : BftConsensus}
    {key : VoteType × String} (hc : RunsFor validators c) (hT : sumPower validators < 2 ^ 63)
    (hvoters : c.voters key ⊆ idsOf validators) (h : c.hasQuorum key = true) :
    IsQuorum (powerIn validators) (idsOf validators) (c.voters key) := by
  refine ⟨hvoters, ?_⟩
  rw [weight_idsOf hc.registered.nodup (List.Sublist.refl validators)]
  exact (hasQuorum_iff hc hT hvoters).mp h

/-! ## Rounds -/

/-- A successful `start_round` does not go back; it empties the round and keeps the lock unless
the height is new. -/
lemma startRound_eq_ok {c c' : BftConsensus} {height : UInt64} {round : UInt32}
    (h : c.startRound height round = .ok c') :
    (c.height < height ∧ c' = { c with
        height, round, phase := .propose, proposal := none, votes := ∅, finalized := none
        lockedValue := none, lockedRound := none, validValue := none, validRound := none }) ∨
    (height = c.height ∧ c.round ≤ round ∧ c' = { c with
        round, phase := .propose, proposal := none, votes := ∅, finalized := none }) := by
  simp only [startRound, bind_eq_ok, ensure_eq_ok, pure_eq_ok] at h
  obtain ⟨_, hguard, rfl⟩ := h
  push Not at hguard
  obtain ⟨hheight, hround⟩ := hguard
  by_cases hlt : c.height < height
  · left
    refine ⟨hlt, ?_⟩
    rw [if_pos hlt]
  · right
    have heq : height = c.height := UInt64.le_antisymm (UInt64.not_lt.mp hlt) (UInt64.not_lt.mp hheight)
    refine ⟨heq, UInt32.not_lt.mp (hround heq), ?_⟩
    rw [if_neg hlt, heq]

/-- A later height can always be started. -/
lemma startRound_of_lt {c : BftConsensus} {height : UInt64} (round : UInt32)
    (h : c.height < height) : ∃ c', c.startRound height round = .ok c' ∧ c'.height = height := by
  have hguard : ¬ (height < c.height ∨ (height = c.height ∧ round < c.round)) := by
    rintro (hlt | ⟨rfl, _⟩)
    · exact UInt64.lt_irrefl _ (UInt64.lt_trans h hlt)
    · exact UInt64.lt_irrefl _ h
  simp only [startRound, bind_eq_ok, ensure_eq_ok, pure_eq_ok]
  exact ⟨_, ⟨(), hguard, rfl⟩, rfl⟩

/-- A new machine in round 0 of a height: nothing proposed, nothing locked. -/
def opened (validators : HashMap String UInt64) (totalPower height : UInt64) : BftConsensus :=
  { waiting validators totalPower with height, phase := .propose }

/-- A machine that is made for a list and started at a height above 0. -/
lemma new_startRound {validators : List Validator} {c c' : BftConsensus} {height : UInt64}
    (hnew : new validators = .ok c) (hstart : c.startRound height 0 = .ok c')
    (hpos : 0 < height.toNat) :
    ∃ map total, c' = opened map total height ∧ RunsFor validators c' := by
  have hruns := runsFor_new hnew
  obtain ⟨map, _, _, rfl⟩ := new_eq_ok hnew
  rcases startRound_eq_ok hstart with ⟨_, rfl⟩ | ⟨hzero, _, _⟩
  · exact ⟨map, _, rfl, ⟨hruns.registered, hruns.total⟩⟩
  · rw [hzero] at hpos
    exact absurd hpos (Nat.lt_irrefl 0)

/-- A timeout moves to the next round of the same height. -/
lemma onTimeout_eq_ok {c c' : BftConsensus} (h : c.onTimeout = .ok c') :
    ∃ round, c.round < round ∧ c.startRound c.height round = .ok c' := by
  simp only [onTimeout, bind_eq_ok, ensure_eq_ok] at h
  obtain ⟨_, hround, hstart⟩ := h
  refine ⟨_, ?_, hstart⟩
  rw [UInt32.lt_iff_toNat_lt, UInt32.toNat_add]
  have hmod : (c.round.toNat + (1 : UInt32).toNat) % 2 ^ 32 = c.round.toNat + 1 :=
    Nat.mod_eq_of_lt hround
  rw [hmod]
  exact Nat.lt_succ_self _

/-! ## Proposals -/

/-- The lock allows a proposal: there is none, it is on the same block, or a newer quorum for the
block is known. -/
def LockAllows (c : BftConsensus) (hash : String) : Prop :=
  c.lockedValue = none ∨ c.lockedValue = some hash ∨ c.validValue = some hash

lemma unlockAllowed_validValue {c : BftConsensus} {p : SignedProposal}
    (h : c.unlockAllowed p = true) : c.validValue = some p.block.hash := by
  unfold unlockAllowed at h
  split at h
  · exact (of_decide_eq_true h).2.2
  · cases h

/-- A proposal is taken in its own round, in the first phase, and within the lock. -/
lemma handleProposal_eq_ok [Primitives] {c c' : BftConsensus} {p : SignedProposal}
    (h : c.handleProposal p = .ok c') :
    p.height = c.height ∧ p.round = c.round ∧ p.verify = .ok () ∧ c.LockAllows p.block.hash ∧
      c.phase = .propose ∧
      c' = { c with proposal := some p.block.hash, phase := .prevote } := by
  simp only [handleProposal, propose, bind_eq_ok, ensure_eq_ok, pure_eq_ok] at h
  obtain ⟨_, ⟨hheight, hround⟩, _, _, _, hverify, _, hlock, _, hphase, _, _, _, _, _, _, rfl⟩ := h
  refine ⟨hheight, hround, hverify, ?_, hphase, rfl⟩
  rcases hlock with hnone | hsame | hunlock
  · exact .inl hnone
  · exact .inr (.inl hsame)
  · exact .inr (.inr (unlockAllowed_validValue hunlock))

/-! ## Votes -/

/-- The records of votes seen, which no transition of the protocol reads. -/
structure Records where
  voteHistory : HashMap VoteKey String
  voteMessages : HashMap VoteKey ConsensusMessage
  evidence : List DoubleVoteEvidence

/-- The machine with other records. -/
def withRecords (c : BftConsensus) (s : Records) : BftConsensus :=
  { c with voteHistory := s.voteHistory, voteMessages := s.voteMessages, evidence := s.evidence }

lemma withRecords_self (c : BftConsensus) :
    c.withRecords ⟨c.voteHistory, c.voteMessages, c.evidence⟩ = c := rfl

section
variable [Primitives]

lemma checkVote_eq_ok {c : BftConsensus} {m : ConsensusMessage} :
    c.checkVote m = .ok () ↔ (m.height = c.height ∧ m.round = c.round) ∧
      m.validatorId ∈ c.validators ∧ m.verify = .ok () ∧ takesVote c.phase m.voteType = true := by
  simp only [checkVote, bind_eq_ok, ensure_eq_ok]
  constructor
  · rintro ⟨_, hplace, _, hmem, _, hverify, htakes⟩
    exact ⟨hplace, hmem, hverify, htakes⟩
  · rintro ⟨hplace, hmem, hverify, htakes⟩
    exact ⟨(), hplace, (), hmem, (), hverify, htakes⟩

lemma addEvidence_records (c : BftConsensus) (m : ConsensusMessage) :
    ∃ s, c.addEvidence m = c.withRecords s := by
  unfold addEvidence
  split
  · exact ⟨_, (withRecords_self c).symm⟩
  · split
    · exact ⟨_, (withRecords_self c).symm⟩
    · split
      · exact ⟨_, (withRecords_self c).symm⟩
      · exact ⟨⟨c.voteHistory, c.voteMessages, _⟩, rfl⟩

lemma recordVote_records (c : BftConsensus) (m : ConsensusMessage) :
    ∃ s, (c.recordVote m).2 = c.withRecords s := by
  unfold recordVote
  split
  · split
    · exact ⟨_, (withRecords_self c).symm⟩
    · exact addEvidence_records c m
  · exact ⟨⟨_, _, c.evidence⟩, rfl⟩

/-- A refused vote changes the records only. -/
lemma handle_error {c c' : BftConsensus} {m : ConsensusMessage} {e : String}
    (h : c.handle m = (.error e, c')) : ∃ s, c' = c.withRecords s := by
  unfold handle at h
  cases hcheck : c.checkVote m with
  | error e' =>
    simp only [hcheck, Prod.mk.injEq] at h
    exact ⟨_, h.2.symm.trans (withRecords_self c).symm⟩
  | ok u =>
    obtain ⟨s, hs⟩ := recordVote_records c m
    rcases hrec : c.recordVote m with ⟨_ | _, c₁⟩ <;> rw [hrec] at hs <;>
      simp only [hcheck, hrec] at h hs
    · exact ⟨s, by rw [← hs]; exact (Prod.mk.inj h).2.symm⟩
    · split at h
      · cases h
      · exact ⟨s, by rw [← hs]; exact (Prod.mk.inj h).2.symm⟩

/-- What an accepted vote does to a machine that holds its records already: it counts, and with a
quorum it may lock the block or finalise it. -/
inductive Accepts (c : BftConsensus) (m : ConsensusMessage) : BftConsensus → Prop where
  | counted : Accepts c m (c.addVoter m)
  | locked (htype : m.voteType = .prevote) (hphase : c.phase = .prevote)
      (hquorum : (c.addVoter m).hasQuorum (.prevote, m.blockHash) = true) :
      Accepts c m { c.addVoter m with
        validValue := some m.blockHash, validRound := some c.round
        lockedValue := some m.blockHash, lockedRound := some c.round, phase := .precommit }
  | finalized (htype : m.voteType = .precommit) (hphase : c.phase ≠ .finalized) :
      Accepts c m { c.addVoter m with phase := .finalized, finalized := some m.blockHash }

omit [Primitives] in
lemma acceptVote_accepts (c : BftConsensus) (m : ConsensusMessage) :
    Accepts c m (c.acceptVote m) := by
  simp only [acceptVote]
  split
  · rename_i h
    obtain ⟨hquorum, hphase⟩ := h
    unfold onQuorum
    cases htype : m.voteType with
    | prevote =>
      rw [htype] at hquorum
      by_cases hprevote : c.phase = .prevote
      · rw [if_pos (show (c.addVoter m).phase = .prevote from hprevote)]
        exact Accepts.locked htype hprevote hquorum
      · rw [if_neg (show ¬ (c.addVoter m).phase = .prevote from hprevote)]
        exact Accepts.counted
    | precommit => exact Accepts.finalized htype hphase
  · exact Accepts.counted

/-- An accepted vote passed the checks and is for the proposal; up to the records, the machine
counts it. -/
lemma handle_ok {c c' : BftConsensus} {m : ConsensusMessage} (h : c.handle m = (.ok (), c')) :
    c.checkVote m = .ok () ∧ c.proposal = some m.blockHash ∧
      ∃ s, Accepts (c.withRecords s) m c' := by
  unfold handle at h
  cases hcheck : c.checkVote m with
  | error e => simp [hcheck] at h
  | ok u =>
    obtain ⟨s, hs⟩ := recordVote_records c m
    rcases hrec : c.recordVote m with ⟨_ | _, c₁⟩ <;> rw [hrec] at hs <;>
      simp only [hcheck, hrec] at h hs
    · cases h
    · split at h
      · rename_i hproposal
        rw [hs] at h hproposal
        obtain rfl := (Prod.mk.inj h).2
        exact ⟨rfl, hproposal, s, acceptVote_accepts _ m⟩
      · cases h

end

/-! ## The voters of a block -/

lemma voters_addVoter (c : BftConsensus) (m : ConsensusMessage) (key : VoteType × String) :
    (c.addVoter m).voters key
      = if key = (m.voteType, m.blockHash) then insert m.validatorId (c.voters key)
        else c.voters key := by
  unfold addVoter
  simp only [voters, HashMap.lookup_insert]
  split
  · rename_i h
    rw [h]
    rfl
  · rfl

/-- A vote never takes voters away. -/
lemma voters_subset_addVoter (c : BftConsensus) (m : ConsensusMessage) (key : VoteType × String) :
    c.voters key ⊆ (c.addVoter m).voters key := by
  rw [voters_addVoter]
  split
  · exact Finset.subset_insert _ _
  · exact Finset.Subset.refl _

/-- More voters keep a quorum. -/
lemma hasQuorum_addVoter {c : BftConsensus} {m : ConsensusMessage} {key : VoteType × String}
    (h : c.hasQuorum key = true) : (c.addVoter m).hasQuorum key = true := by
  have hlt := of_decide_eq_true h
  refine decide_eq_true ?_
  have hmono : weight c.powerOf (c.voters key) ≤ weight c.powerOf ((c.addVoter m).voters key) :=
    weight_mono c.powerOf (voters_subset_addVoter c m key)
  show saturatingMul c.totalPower.toNat 2
    < saturatingMul (weight c.powerOf ((c.addVoter m).voters key)) 3
  unfold saturatingMul at hlt ⊢
  omega

end BftConsensus

end IeumChain
