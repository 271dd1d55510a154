import IeumChain.CandidateTheorems

/-!
# Finalisation is consistent

`receive_vote` checks a finalised candidate twice before it applies it: that the state machine
finalised its hash, and that the precommits kept beside the state machine make a certificate. Both
checks always pass.

`Certified` is the invariant of all runs: what `Tallied` says of the candidate, that a candidate of a
finalised round is the block that was finalised, and that the certificates not yet taken verify.
Certificates are for the current validators because these can only be replaced at height 0, before
the first certificate.
-/

namespace IeumChain

open Lib

namespace ConsensusRuntime
variable [Primitives] {r r' : ConsensusRuntime}

/-! ## Calls -/

/-- A call on the runtime. -/
inductive Call where
  | operation (op : Op)
  | replaceBootstrapValidators (validators : List Validator)

/-- The runtime after a call. -/
def call (r : ConsensusRuntime) (env : ℕ → Reading) : Call → ConsensusRuntime
  | .operation op => (r.step env op).2
  | .replaceBootstrapValidators validators =>
    getOk (r.replaceBootstrapValidators (env 0) validators) r

/-- The runtime after a sequence of calls. -/
def calls (r : ConsensusRuntime) (l : List ((ℕ → Reading) × Call)) : ConsensusRuntime :=
  l.foldl (fun r e => r.call e.1 e.2) r

/-! ## The invariant -/

/-- A candidate of a finalised round was finalised. -/
def Sealed (r : ConsensusRuntime) : Prop :=
  r.consensus.phase = .finalized → ∀ b, r.pending = some b →
    r.consensus.finalized = some b.hash ∧ r.consensus.hasQuorum (.precommit, b.hash) = true

/-- The invariant. -/
structure Certified (r : ConsensusRuntime) : Prop where
  tallied : r.Tallied
  sealed : r.Sealed
  certificates : ∀ c ∈ r.pendingFinalized, c.verify r.validators = .ok ()
  /-- A certificate is for a block above height 0. -/
  raised : r.pendingFinalized = [] ∨ 0 < r.chain.tipHeight.toNat

/-- A counted vote finalises the candidate or nothing. -/
lemma Tallied.sealed_vote (h : r.Tallied) (hsealed : r.Sealed) {m : ConsensusMessage}
    {c : BftConsensus} (hhandle : r.consensus.handle m = (.ok (), c)) (hfinal : c.phase = .finalized)
    {b : Block} (hb : r.pending = some b) :
    c.finalized = some b.hash ∧ c.hasQuorum (.precommit, b.hash) = true := by
  by_cases hbefore : r.consensus.phase = .finalized
  · -- a late vote is only counted
    obtain ⟨hhash, hquorum⟩ := hsealed hbefore b hb
    obtain ⟨s, rfl⟩ := BftConsensus.handle_acceptVote hhandle
    have hphase : (r.consensus.withRecords s).phase = .finalized := hbefore
    rw [BftConsensus.acceptVote_of_finalized hphase]
    exact ⟨hhash, BftConsensus.hasQuorum_addVoter (c := r.consensus.withRecords s) hquorum⟩
  · obtain ⟨hhash, hquorum⟩ := BftConsensus.handle_finalizes hhandle hbefore hfinal
    have hfor : m.blockHash = b.hash := by
      have hstands := (h.candidate b hb).proposal
      rw [(BftConsensus.handle_ok hhandle).2.1] at hstands
      exact Option.some.inj hstands
    rw [← hfor]
    exact ⟨hhash, hquorum⟩

namespace Certified

/-- Every move keeps the invariant. -/
lemma move {signed : List ConsensusMessage} (h : r.Certified)
    (hmove : Move (fun _ => True) r signed r') : r'.Certified := by
  have htallied := h.tallied.move hmove
  cases hmove with
  | timer deadline => exact ⟨htallied, h.sealed, h.certificates, h.raised⟩
  | queue votes _ => exact ⟨htallied, h.sealed, h.certificates, h.raised⟩
  | records s => exact ⟨htallied, h.sealed, h.certificates, h.raised⟩
  | handOver => exact ⟨htallied, h.sealed, fun c hc => absurd hc List.not_mem_nil, .inl rfl⟩
  | proposal now p consensus _ hhandle =>
    obtain ⟨_, _, _, _, _, rfl⟩ := BftConsensus.handleProposal_eq_ok hhandle
    exact ⟨htallied, (fun hfinal => by cases hfinal), h.certificates, h.raised⟩
  | prevote m => exact h
  | vote env m consensus _ hhandle =>
    obtain ⟨precommits, validBlock, deadline, heq⟩ := afterVote_eq r env m consensus
    rw [heq] at htallied ⊢
    exact ⟨htallied, fun hfinal b hb => h.tallied.sealed_vote h.sealed hhandle hfinal hb,
      h.certificates, h.raised⟩
  | precommit block m => exact h
  | drop => exact ⟨htallied, (fun _ b hb => by cases hb), h.certificates, h.raised⟩
  | commit block chain _ hverify hchain =>
    obtain ⟨_, htip⟩ := Blockchain.tipHeight_applyBlock hchain
    refine ⟨htallied, (fun _ b hb => by cases hb), fun c hc => ?_, .inr ?_⟩
    · rcases List.mem_append.mp hc with hold | hnew
      · exact h.certificates c hold
      · rw [List.mem_singleton.mp hnew]
        exact hverify
    · show 0 < chain.tipHeight.toNat
      omega
  | timeout round consensus _ hstart =>
    exact ⟨htallied, (fun _ b hb => by cases hb), h.certificates, h.raised⟩
  | next height consensus _ _ hstart =>
    exact ⟨htallied, (fun _ b hb => by cases hb), h.certificates, h.raised⟩
  | sync now c chain _ _ hchain =>
    obtain ⟨_, htip⟩ := Blockchain.tipHeight_applyBlock hchain
    refine ⟨htallied, h.sealed, h.certificates, .inr ?_⟩
    show 0 < chain.tipHeight.toNat
    omega

/-- New validators come before the first certificate. -/
lemma replace (h : r.Certified) {env : Reading} {validators : List Validator}
    (hreplace : r.replaceBootstrapValidators env validators = .ok r') : r'.Certified := by
  simp only [replaceBootstrapValidators, bind_eq_ok, ensure_eq_ok, pure_eq_ok] at hreplace
  obtain ⟨_, ⟨htip, hpending⟩, c, hnew, c', hstart, rfl⟩ := hreplace
  obtain ⟨map, total, rfl, hruns⟩ := BftConsensus.new_startRound hnew hstart (by decide)
  have hnone : r.pendingFinalized = [] := by
    refine h.raised.resolve_right fun hpos => ?_
    rw [htip] at hpos
    exact absurd hpos (by decide)
  refine ⟨tallied_of_start hruns rfl rfl hpending rfl, (fun hfinal => by cases hfinal), ?_, .inl hnone⟩
  intro c hc
  change c ∈ r.pendingFinalized at hc
  rw [hnone] at hc
  exact absurd hc List.not_mem_nil

end Certified

/-- A started runtime keeps the invariant over all calls. -/
lemma certified_calls {chain : Blockchain} {validators : List Validator} {schedule : EventSchedule}
    {validator : String} {start : ConsensusRuntime}
    (hstart : Started chain validators schedule validator start)
    (l : List ((ℕ → Reading) × Call)) :
    Sound (fun _ => True) (start.calls l) ∧ (start.calls l).Certified := by
  have hcalls : ∀ (l : List ((ℕ → Reading) × Call)) {r : ConsensusRuntime},
      Sound (fun _ => True) r ∧ r.Certified →
        Sound (fun _ => True) (r.calls l) ∧ (r.calls l).Certified := by
    intro l
    induction l with
    | nil => exact fun h => h
    | cons e rest ih =>
      rintro r ⟨hsound, hr⟩
      refine ih ?_
      obtain ⟨env, op | replaced⟩ := e
      · exact run_induction (fun hr hmove => hr.move hmove) [(env, op)] hsound hr
      · show Sound _ (getOk _ r) ∧ (getOk _ r).Certified
        cases hreplace : r.replaceBootstrapValidators (env 0) replaced with
        | error e => exact ⟨hsound, hr⟩
        | ok r' =>
          refine ⟨⟨?_, fun _ _ => trivial⟩, hr.replace hreplace⟩
          simp only [replaceBootstrapValidators, bind_eq_ok, ensure_eq_ok, pure_eq_ok] at hreplace
          obtain ⟨_, _, c, hnew, c', hround, rfl⟩ := hreplace
          obtain ⟨map, total, rfl, _⟩ := BftConsensus.new_startRound hnew hround (by decide)
          exact Nat.le_add_left _ _
  refine hcalls l ?_
  obtain ⟨_, _, _, _, _, _, hheight, hruns, rfl⟩ := hstart.eq
  refine ⟨⟨hheight.le, fun _ hvote => absurd hvote List.not_mem_nil⟩,
    tallied_of_start hruns rfl rfl rfl rfl, (fun hfinal => by cases hfinal),
    fun c hc => absurd hc List.not_mem_nil, .inl rfl⟩

/-- A block that passes both checks is refused by the chain only. -/
lemma commit_eq_error {b : Block} {e : String} (hfinal : r.consensus.finalized = some b.hash)
    (hverify : (r.certificateFor b).verify r.validators = .ok ()) (h : r.commit b = .error e) :
    r.chain.applyBlock b = .error e := by
  rw [commit, ensure, if_pos hfinal] at h
  dsimp only at h
  rw [hverify] at h
  cases happly : r.chain.applyBlock b with
  | ok chain =>
    rw [happly] at h
    cases h
  | error e' =>
    rw [happly] at h
    exact congrArg Except.error (Except.error.inj h)

/-- **Finalisation is consistent.** After any calls, when a vote leaves the state machine in the phase
`Finalized` and there is a candidate, its hash is the finalised one and the precommits make a
certificate that the validators verify; `receive_vote` fails only if the chain refuses the block.
Every certificate that `take_finalized` returns verifies too. -/
theorem finalisation_consistent (chain : Blockchain) (validators : List Validator)
    (schedule : EventSchedule) (validator : String) (start : ConsensusRuntime)
    (hstart : Started chain validators schedule validator start)
    (l : List ((ℕ → Reading) × Call)) (r : ConsensusRuntime) (hr : r = start.calls l) :
    (∀ (env : Reading) (vote : ConsensusMessage) (consensus : BftConsensus) (b : Block),
      r.consensus.handle vote = (.ok (), consensus) → consensus.phase = .finalized →
        r.pending = some b →
          consensus.finalized = some b.hash ∧
          ((({ r with consensus }.keepPrecommit vote).onPhaseChange env
            r.consensus.phase).certificateFor b).verify r.validators = .ok () ∧
          ∀ e, (r.receiveVote env vote).1 = .error e → r.chain.applyBlock b = .error e) ∧
    ∀ c ∈ r.takeFinalized.1, c.verify r.validators = .ok () := by
  obtain ⟨_, hcertified⟩ := certified_calls hstart l
  rw [← hr] at hcertified
  refine ⟨fun env vote consensus b hhandle hfinal hb => ?_, hcertified.certificates⟩
  have hvoted := hcertified.move (Move.vote r env vote consensus (fun _ => trivial) hhandle)
  obtain ⟨precommits, validBlock, deadline, heq⟩ := afterVote_eq r env vote consensus
  have hreceive : r.receiveVote env vote
      = finalizePending { r with consensus, precommits, validBlock, deadline } := by
    rw [receiveVote, hhandle]
    dsimp only
    rw [heq]
    dsimp only
    rw [hfinal]
  rw [heq] at hvoted ⊢
  obtain ⟨hhash, hquorum⟩ := hvoted.sealed hfinal b hb
  refine ⟨hhash, hvoted.tallied.certificate_verify hb hquorum, fun e herror => ?_⟩
  rw [hreceive, finalizePending, show ConsensusRuntime.pending _ = some b from hb] at herror
  dsimp only at herror
  cases hcommit : ConsensusRuntime.commit
      { r with consensus, precommits, validBlock, deadline, pending := none } b with
  | ok r' =>
    rw [hcommit] at herror
    cases herror
  | error e' =>
    rw [hcommit] at herror
    obtain rfl := Except.error.inj herror
    have hverify := hvoted.tallied.certificate_verify hb hquorum
    exact commit_eq_error (r := { r with
      consensus, precommits, validBlock, deadline, pending := none }) hhash hverify hcommit

end ConsensusRuntime

section
attribute [local instance] Devnet.primitives

/-- The calls with which the node finalises the first block. -/
def Devnet.firstCalls : List ((ℕ → Reading) × ConsensusRuntime.Call) :=
  [(fun _ => reading firstPrevote.signature, .operation (.receiveProposal firstProposal)),
    (fun _ => reading firstPrecommit.signature, .operation (.receiveVote firstPrevote)),
    (fun _ => reading "", .operation (.receiveVote firstPrecommit))]

/-- The certificate of the first block is taken, and its validators verify it. -/
theorem ConsensusRuntime.finalisation_consistent_first : ∃ r,
    Devnet.node.calls Devnet.firstCalls = r ∧ r.takeFinalized.1 = [Devnet.firstCertificate] ∧
      Devnet.firstCertificate.verify r.validators = .ok () := by
  obtain ⟨r₁, r₂, r₃, hproposal, hprevote, hprecommit, _, _, htaken⟩ := Devnet.node_finalizes_first
  have hcalls : Devnet.node.calls Devnet.firstCalls = r₃ := by
    rw [ConsensusRuntime.calls, Devnet.firstCalls, List.foldl_cons, List.foldl_cons, List.foldl_cons,
      List.foldl_nil, call, call, call, hproposal, hprevote, hprecommit]
  obtain ⟨_, hverify⟩ :=
    finalisation_consistent _ _ _ _ _ Devnet.node_started Devnet.firstCalls r₃ hcalls.symm
  refine ⟨r₃, hcalls, htaken, hverify _ ?_⟩
  rw [takeFinalized, htaken]
  exact List.mem_singleton_self _

end

end IeumChain
