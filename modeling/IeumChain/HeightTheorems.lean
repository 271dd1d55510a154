import IeumChain.RestartTheorems

/-!
# The height of the consensus and the height of the chain

A runtime drives two machines, the chain and the consensus. Votes finalise a block in both; a
certificate of another node raises the chain, and `start_round` brings the consensus after it. A
batch of certificates does this once at its end, so an error in the batch leaves the consensus
behind the chain if some of the batch was applied before.

* `Level`: the consensus works at the height after the tip, unless that height is finalised;
* `Taken`: what a batch of certificates has to meet;
* `step_level`: a call keeps the two level exactly when it meets this;
* `height_follows_chain`: so do whole runs.
-/

namespace IeumChain

open Lib

section
variable [Primitives]

namespace ConsensusRuntime

/-- The consensus is at the height after the tip, unless it is finalised. -/
def Level (r : ConsensusRuntime) : Prop :=
  r.consensus.phase ≠ .finalized → r.consensus.height.toNat = r.chain.tipHeight.toNat + 1

/-! ## Calls that keep the two level -/

lemma Level.receiveProposal {r : ConsensusRuntime} (h : r.Level) (env : Reading)
    (p : SignedProposal) : (r.receiveProposal env p).2.Level := by
  unfold ConsensusRuntime.receiveProposal
  cases haccept : r.acceptProposal env p with
  | error e => exact h
  | ok r' =>
    obtain ⟨_, consensus, hconsensus, rfl⟩ := acceptProposal_eq_ok haccept
    obtain ⟨_, _, _, _, hphase, rfl⟩ := BftConsensus.handleProposal_eq_ok hconsensus
    intro _
    exact h (by rw [hphase]; simp)

/-- Committing the candidate leaves the consensus alone. -/
lemma finalizePending_consensus (r : ConsensusRuntime) :
    r.finalizePending.2.consensus = r.consensus := by
  unfold finalizePending
  cases r.pending with
  | none => rfl
  | some b =>
    cases hcommit : { r with pending := none }.commit b with
    | error e => simp only [hcommit]
    | ok r' =>
      simp only [hcommit]
      simp only [ConsensusRuntime.commit, bind_eq_ok, ensure_eq_ok, pure_eq_ok] at hcommit
      obtain ⟨_, _, _, _, chain, _, rfl⟩ := hcommit
      rfl

/-- A vote does not leave the last phase, and changes neither the height nor, before that phase,
the chain. -/
lemma Level.receiveVote {r : ConsensusRuntime} (h : r.Level) (env : Reading)
    (vote : ConsensusMessage) : (r.receiveVote env vote).2.Level := by
  unfold ConsensusRuntime.receiveVote
  rcases hhandle : r.consensus.handle vote with ⟨e | ⟨⟩, consensus⟩
  · obtain ⟨s, rfl⟩ := BftConsensus.handle_error hhandle
    exact h
  · obtain ⟨_, _, s, haccepts⟩ := BftConsensus.handle_ok hhandle
    have hsame : consensus.phase ≠ .finalized →
        r.consensus.phase ≠ .finalized ∧ consensus.height = r.consensus.height := by
      intro hphase
      cases haccepts with
      | counted => exact ⟨hphase, rfl⟩
      | locked _ hprevote _ =>
        have hbefore : r.consensus.phase = .prevote := hprevote
        exact ⟨by rw [hbefore]; simp, rfl⟩
      | finalized => exact absurd rfl hphase
    obtain ⟨_, _, _, heq⟩ := afterVote_eq r env vote consensus
    simp only [heq]
    have hafter : consensus.phase ≠ .finalized →
        consensus.height.toNat = r.chain.tipHeight.toNat + 1 := by
      intro hphase
      obtain ⟨hbefore, hheight⟩ := hsame hphase
      rw [hheight]
      exact h hbefore
    split
    · exact hafter
    · rename_i hfinalized
      intro hphase
      rw [finalizePending_consensus] at hphase
      exact absurd hfinalized hphase
    · exact hafter

lemma Level.timeoutIfDue {r : ConsensusRuntime} (h : r.Level) (now : ℕ) :
    (r.timeoutIfDue now).2.Level := by
  unfold ConsensusRuntime.timeoutIfDue
  split
  · exact h
  · rename_i hdue
    cases htimeout : r.consensus.onTimeout with
    | error e => exact h
    | ok consensus =>
      obtain ⟨round, _, hstart⟩ := BftConsensus.onTimeout_eq_ok htimeout
      rcases BftConsensus.startRound_eq_ok hstart with ⟨hlt, _⟩ | ⟨_, _, rfl⟩
      · exact absurd hlt (UInt64.lt_irrefl _)
      · intro _
        exact h fun hphase => hdue (.inr hphase)

/-- A new height is the one after the tip. -/
lemma startNextHeight_height {r r' : ConsensusRuntime} {env : Reading}
    (h : r.startNextHeight env = .ok r') :
    r'.chain = r.chain ∧ r'.consensus.height.toNat = r.chain.tipHeight.toNat + 1 := by
  simp only [startNextHeight, bind_eq_ok, okOr_eq_ok, addOne_eq_ok, pure_eq_ok] at h
  obtain ⟨previous, hlast, next, hnext, consensus, hstart, rfl⟩ := h
  refine ⟨rfl, ?_⟩
  show consensus.height.toNat = r.chain.tipHeight.toNat + 1
  have hheight : consensus.height = next := by
    rcases BftConsensus.startRound_eq_ok hstart with ⟨_, rfl⟩ | ⟨heq, _, rfl⟩
    · rfl
    · exact heq.symm
  rw [hheight, hnext, (Blockchain.tipHeight_of_getLast hlast).1]

lemma startNextHeight_level {r r' : ConsensusRuntime} {env : Reading}
    (h : r.startNextHeight env = .ok r') : r'.Level := by
  obtain ⟨hchain, hheight⟩ := startNextHeight_height h
  intro _
  rw [hheight, hchain]

lemma Level.advanceAfterFinalization {r : ConsensusRuntime} (h : r.Level) (env : Reading) :
    (getOk (r.advanceAfterFinalization env) r).Level := by
  cases hadvance : r.advanceAfterFinalization env with
  | error e => exact h
  | ok r' =>
    simp only [ConsensusRuntime.advanceAfterFinalization, bind_eq_ok] at hadvance
    obtain ⟨_, _, hstart⟩ := hadvance
    exact startNextHeight_level hstart

/-! ## Batches of certificates -/

/-- Once a certificate of the batch was applied, no later one is refused, and there is a height
after the last one. The number of certificates applied is counted in `applied`. -/
def Taken (env : ℕ → Reading) :
    List FinalityCertificate → ℕ → ConsensusRuntime → ℕ → Prop
  | [], _, r, applied => 0 < applied → r.chain.tipHeight.toNat + 1 < 2 ^ 64
  | c :: rest, readings, r, applied =>
    match r.applySyncCertificate (env readings) c with
    | .error _ => applied = 0
    | .ok (done, r') => Taken env rest (readings + 1) r' (if done then applied + 1 else applied)

/-- The loop over a batch that is taken fails only with the tip where it was, and otherwise
leaves room for a next height. -/
lemma taken_iff (env : ℕ → Reading) {tip : ℕ} :
    ∀ (l : List FinalityCertificate) (readings : ℕ) (r : ConsensusRuntime) (applied : ℕ),
      r.chain.tipHeight.toNat = tip + applied →
      (Taken env l readings r applied ↔
        match applySyncLoop env l readings r applied with
        | (.error _, r') => r'.chain.tipHeight.toNat = tip
        | (.ok total, r') => 0 < total → r'.chain.tipHeight.toNat + 1 < 2 ^ 64) := by
  intro l
  induction l with
  | nil => exact fun _ _ _ _ => Iff.rfl
  | cons c rest ih =>
    intro readings r applied htip
    unfold Taken applySyncLoop
    cases hc : r.applySyncCertificate (env readings) c with
    | error e =>
      simp only [htip]
      omega
    | ok result =>
      obtain ⟨done, r'⟩ := result
      obtain ⟨_, ⟨rfl, rfl⟩ | ⟨rfl, _, chain, hchain, rfl⟩⟩ := applySyncCertificate_eq_ok hc
      · exact ih (readings + 1) r' applied htip
      · obtain ⟨_, hnext⟩ := Blockchain.tipHeight_applyBlock hchain
        refine ih (readings + 1) _ (applied + 1) ?_
        show chain.tipHeight.toNat = tip + (applied + 1)
        omega

/-- With the consensus where it was, the two stay level exactly when the tip does. -/
lemma level_iff_of_consensus {r r' : ConsensusRuntime} (h : r.Level)
    (hconsensus : r'.consensus = r.consensus) :
    r'.Level ↔ r.consensus.phase = .finalized ∨
      r'.chain.tipHeight.toNat = r.chain.tipHeight.toNat := by
  unfold Level at h ⊢
  rw [hconsensus]
  by_cases hphase : r.consensus.phase = .finalized
  · exact ⟨fun _ => .inl hphase, fun _ hne => absurd hphase hne⟩
  · have hheight := h hphase
    constructor
    · intro hlevel
      have := hlevel hphase
      exact .inr (by omega)
    · rintro (hfinalized | htip) _
      · exact absurd hfinalized hphase
      · omega

/-- A batch of certificates keeps the two level exactly when it is taken, or the height of the
consensus is finalised. -/
lemma applySyncCertificates_level {r : ConsensusRuntime} (h : r.Level)
    (hs : Sound (fun _ => True) r) (env : ℕ → Reading)
    (certificates : List FinalityCertificate) :
    (r.applySyncCertificates env certificates).2.Level ↔
      r.consensus.phase = .finalized ∨ Taken env certificates 0 r 0 := by
  obtain ⟨_, hconsensus, htotal⟩ :=
    applySyncLoop_moves (fun _ => True) env certificates 0 r 0
  rw [taken_iff env certificates 0 r 0 rfl]
  unfold applySyncCertificates
  rcases hloop : applySyncLoop env certificates 0 r 0 with ⟨e | total, r₁⟩ <;>
    rw [hloop] at hconsensus htotal <;> simp only at hconsensus htotal ⊢
  · exact level_iff_of_consensus h hconsensus
  · obtain ⟨_, hsum⟩ := htotal total rfl
    split
    · rename_i hpos
      cases hstart : r₁.startNextHeight (env certificates.length) with
      | ok r₂ =>
        obtain ⟨_, hheight⟩ := startNextHeight_height hstart
        have hlt := r₂.consensus.height.toNat_lt
        exact ⟨fun _ => .inr fun _ => by omega, fun _ => startNextHeight_level hstart⟩
      | error e =>
        -- the consensus is behind the new tip, so that only the bound on heights can fail
        have hfull : ¬ r₁.chain.tipHeight.toNat + 1 < 2 ^ 64 := by
          intro hroom
          have hne : r₁.chain.blocks ≠ [] := by
            intro hnil
            rw [Blockchain.tipHeight, hnil] at hsum
            change 0 + 0 = _ at hsum
            omega
          have hbound := hs.bound
          obtain ⟨_, _, hok, _⟩ := startNextHeight_isOk (env certificates.length) hne hroom
            (by rw [hconsensus]; omega)
          rw [hstart] at hok
          cases hok
        rw [level_iff_of_consensus h hconsensus]
        refine or_congr_right ⟨fun htip => by omega, fun hroom => absurd (hroom hpos) hfull⟩
    · rename_i hzero
      rw [level_iff_of_consensus h hconsensus]
      exact or_congr_right ⟨fun _ hpos => absurd hpos hzero, fun _ => by omega⟩

/-! ## Runs -/

/-- What a call has to meet: a batch of certificates is taken, or the height of the consensus is
finalised. -/
def Meets (r : ConsensusRuntime) (env : ℕ → Reading) : Op → Prop
  | .applySyncCertificates certificates =>
    r.consensus.phase = .finalized ∨ Taken env certificates 0 r 0
  | _ => True

/-- Every call of a run meets its condition. -/
def AllMeet : ConsensusRuntime → List ((ℕ → Reading) × Op) → Prop
  | _, [] => True
  | r, e :: rest => r.Meets e.1 e.2 ∧ AllMeet (r.step e.1 e.2).2 rest

/-- A call keeps the two level exactly when it meets its condition. -/
lemma step_level {r : ConsensusRuntime} (h : r.Level) (hs : Sound (fun _ => True) r)
    (env : ℕ → Reading) (op : Op) : (r.step env op).2.Level ↔ r.Meets env op := by
  cases op with
  | receiveProposal p => exact iff_of_true (h.receiveProposal (env 0) p) trivial
  | receiveVote vote => exact iff_of_true (h.receiveVote (env 0) vote) trivial
  | deferVote vote =>
    refine iff_of_true ?_ trivial
    simp only [step, deferVote]
    split
    · exact h
    · exact h
  | replayDeferredVotes =>
    refine iff_of_true ?_ trivial
    exact replayDeferredVotes_induction (fun r env v hr => hr.receiveVote env v)
      (fun r _ hr => hr) r env h
  | timeoutIfDue now => exact iff_of_true (h.timeoutIfDue now) trivial
  | applySyncCertificates certificates => exact applySyncCertificates_level h hs env certificates
  | advanceAfterFinalization => exact iff_of_true (h.advanceAfterFinalization (env 0)) trivial
  | restartPhaseTimeout | takeEvidence | takeFinalized => exact iff_of_true h trivial

lemma run_level (steps : List ((ℕ → Reading) × Op)) :
    ∀ {r : ConsensusRuntime}, r.Level → Sound (fun _ => True) r → AllMeet r steps →
      (r.run steps).Level ∧ Sound (fun _ => True) (r.run steps) := by
  induction steps with
  | nil => exact fun h hs _ => ⟨h, hs⟩
  | cons e rest ih =>
    intro r h hs hmeets
    obtain ⟨hstep, hrest⟩ := hmeets
    obtain ⟨_, hmoves, _⟩ := step_moves r e.1 e.2 hs fun _ _ => trivial
    exact ih ((step_level h hs e.1 e.2).mpr hstep) (hs.moves hmoves) hrest

/-- **The consensus height follows the chain.** Let a runtime be made by `with_signer` and make any
calls, failing ones included, of which no batch of certificates is refused in part: once a
certificate of a batch was applied, the later ones of the batch are applied or known, and there is
a height after the last. Then, whenever the phase is not `Finalized`, the consensus is at the height
after the tip. A call that does not meet this breaks it. -/
theorem height_follows_chain (chain : Blockchain) (validators : List Validator)
    (validator : String) (timeouts : ConsensusTimeouts) (instant : ℕ) (r : ConsensusRuntime)
    (h : withSigner chain validators validator timeouts instant = .ok r)
    (steps : List ((ℕ → Reading) × Op)) (hmeets : AllMeet r steps) :
    ((r.run steps).consensus.phase ≠ .finalized →
      (r.run steps).consensus.height.toNat = (r.run steps).chain.tipHeight.toNat + 1) ∧
    ∀ env op, ¬ (r.run steps).Meets env op →
      ((r.run steps).step env op).2.consensus.phase ≠ .finalized ∧
        ((r.run steps).step env op).2.consensus.height.toNat
          ≠ ((r.run steps).step env op).2.chain.tipHeight.toNat + 1 := by
  have hstart : r.Level ∧ Sound (fun _ => True) r := by
    obtain ⟨map, total, height, hheight, _, rfl⟩ := withSigner_eq_ok h
    exact ⟨fun _ => hheight, hheight.le, fun _ _ => trivial⟩
  obtain ⟨hlevel, hsound⟩ := run_level steps hstart.1 hstart.2 hmeets
  refine ⟨hlevel, fun env op hop => ?_⟩
  have hbroken := mt (step_level hlevel hsound env op).mp hop
  unfold Level at hbroken
  exact not_forall.mp hbroken |>.elim fun hphase hheight => ⟨hphase, hheight⟩

/-- A batch of one new certificate is taken. -/
lemma taken_singleton {r r' : ConsensusRuntime} {env : Reading} {c : FinalityCertificate}
    (h : r.applySyncCertificate env c = .ok (true, r'))
    (hroom : r'.chain.tipHeight.toNat + 1 < 2 ^ 64) :
    r.Meets (fun _ => env) (.applySyncCertificates [c]) := by
  refine .inr ?_
  rw [Taken, h]
  exact fun _ => hroom

/-- A certificate that is refused ends the batch where the one before left it. -/
lemma run_refused {r r' : ConsensusRuntime} {env : Reading} {c c' : FinalityCertificate}
    {e : String} (h : r.applySyncCertificate env c = .ok (true, r'))
    (h' : r'.applySyncCertificate env c' = .error e) :
    r.run [(fun _ => env, .applySyncCertificates [c, c'])] = r' := by
  rw [run, List.foldl_cons, List.foldl_nil, step, applySyncCertificates, applySyncLoop, h]
  simp only [applySyncLoop, h']

end ConsensusRuntime

end

namespace ConsensusRuntime

section
attribute [local instance] Devnet.primitives

/-- The node with the first block. -/
def devnetAhead : ConsensusRuntime :=
  { Devnet.node with chain := devnetFirst, finalized := [Devnet.firstCertificate] }

lemma devnet_applies_first :
    Devnet.node.applySyncCertificate (Devnet.reading "") Devnet.firstCertificate
      = .ok (true, devnetAhead) := by
  refine applySyncCertificate_next rfl rfl Devnet.verify_firstCertificate ?_
    (clockAllows_of_le (by decide)) Devnet.first_applies
  exact ⟨⟨Block.genesis, rfl, by decide⟩, rfl, rfl⟩

/-- A batch of certificates from another node. -/
def devnetBatch (l : List FinalityCertificate) : (ℕ → Reading) × Op :=
  (fun _ => Devnet.reading "", .applySyncCertificates l)

/-- After the certificate of the first block, the node is at the second height. -/
theorem height_follows_chain_first :
    AllMeet Devnet.node [devnetBatch [Devnet.firstCertificate]] ∧
      ((Devnet.node.run [devnetBatch [Devnet.firstCertificate]]).consensus.phase ≠ .finalized →
        (Devnet.node.run [devnetBatch [Devnet.firstCertificate]]).consensus.height.toNat
          = (Devnet.node.run [devnetBatch [Devnet.firstCertificate]]).chain.tipHeight.toNat + 1) := by
  have hroom : devnetAhead.chain.tipHeight.toNat + 1 < 2 ^ 64 := by decide
  have hmeets : AllMeet Devnet.node [devnetBatch [Devnet.firstCertificate]] :=
    ⟨taken_singleton devnet_applies_first hroom, trivial⟩
  exact ⟨hmeets, (height_follows_chain Devnet.chain [Devnet.self] Devnet.validator
    ⟨3000, 2000, 2000⟩ 0 Devnet.node Devnet.node_withSigner _ hmeets).1⟩

/-- A certificate whose block has no hash. -/
def hollowCertificate : FinalityCertificate :=
  { Devnet.firstCertificate with block := { Devnet.first with hash := "" } }

lemma hollow_refused (r : ConsensusRuntime) (env : Reading) :
    ∃ e, r.applySyncCertificate env hollowCertificate = .error e := by
  cases h : r.applySyncCertificate env hollowCertificate with
  | error e => exact ⟨e, rfl⟩
  | ok result =>
    obtain ⟨done, r'⟩ := result
    obtain ⟨hverify, _⟩ := applySyncCertificate_eq_ok h
    simp only [FinalityCertificate.verify, bind_eq_ok, ensure_eq_ok] at hverify
    obtain ⟨_, hhash, _⟩ := hverify
    have hlength := congrArg textLen hhash
    rw [Block.textLen_calculateHash] at hlength
    exact absurd hlength (by decide)

/-- A good certificate with a bad one after it leaves the consensus behind the chain: both are at
the height 1, and the height is not finalised. -/
theorem consensus_left_behind :
    (Devnet.node.run [devnetBatch [Devnet.firstCertificate, hollowCertificate]]).consensus.phase
        = .propose ∧
      (Devnet.node.run
        [devnetBatch [Devnet.firstCertificate, hollowCertificate]]).consensus.height = 1 ∧
      (Devnet.node.run
        [devnetBatch [Devnet.firstCertificate, hollowCertificate]]).chain.tipHeight = 1 := by
  obtain ⟨e, he⟩ := hollow_refused devnetAhead (Devnet.reading "")
  have hrun : Devnet.node.run [devnetBatch [Devnet.firstCertificate, hollowCertificate]]
      = devnetAhead := run_refused devnet_applies_first he
  rw [hrun]
  exact ⟨rfl, rfl, rfl⟩

end

end ConsensusRuntime

end IeumChain
