import IeumChain.ProposerTheorems

/-!
# The ledger behind the RPC server

The RPC server answers from a chain of its own, which `install_finalized` replaces. The loop calls it
for a block of its own votes in `finalize_if_ready`, and for a block of another node right after the
certificate is applied. Between two turns the two chains are the same, and every chain that was
installed is the one before it with one more block, for which the node has a certificate
(`ledger_follows_consensus`). This is what `install_finalized` and the archive behind it rely on.

Within a turn the runtime is at most one block ahead: `Ahead` says which, and that no vote can
finalise another before the next height is started.
-/

namespace IeumChain

open Lib

section
variable [Primitives]

namespace ConsensusRuntime
variable {start r r' : ConsensusRuntime}

/-! ## One block ahead -/

/-- The next ledger is this one with the block of a certificate that the node has. -/
def Succeeds (r : ConsensusRuntime) (ledger next : Blockchain) : Prop :=
  ∃ c ∈ r.finalized, c.verify r.validators = .ok () ∧ ledger.applyBlock c.block = .ok next

/-- The certificates are kept, for the same validators. -/
structure KeepsCertificates (r r' : ConsensusRuntime) : Prop where
  finalized : r.finalized ⊆ r'.finalized
  validators : r'.validators = r.validators

/-- The runtime is where it was, or one block ahead with a certificate to be taken. -/
inductive Ahead (start r : ConsensusRuntime) : Prop where
  | level (hkeeps : start.KeepsCertificates r) (htaken : r.pendingFinalized = [])
      (hchain : r.chain = start.chain)
  | ahead (hkeeps : start.KeepsCertificates r) (c : FinalityCertificate)
      (hpending : r.pendingFinalized = [c]) (hnext : r.Succeeds start.chain r.chain)
      (hgone : r.pending = none) (hphase : r.consensus.phase = .finalized)

/-- The chain and the certificates are the same. -/
structure SameLedger (r r' : ConsensusRuntime) : Prop where
  chain : r'.chain = r.chain
  finalized : r'.finalized = r.finalized
  pendingFinalized : r'.pendingFinalized = r.pendingFinalized
  validators : r'.validators = r.validators

lemma SameLedger.refl (r : ConsensusRuntime) : r.SameLedger r := ⟨rfl, rfl, rfl, rfl⟩

lemma SameLedger.keeps (h : r.SameLedger r') : r.KeepsCertificates r' :=
  ⟨h.finalized ▸ List.Subset.refl _, h.validators⟩

lemma KeepsCertificates.trans {r'' : ConsensusRuntime} (h : r.KeepsCertificates r')
    (h' : r'.KeepsCertificates r'') : r.KeepsCertificates r'' :=
  ⟨List.Subset.trans h.finalized h'.finalized, h'.validators.trans h.validators⟩

lemma Succeeds.mono {ledger next : Blockchain} (h : r.Succeeds ledger next)
    (hkeeps : r.KeepsCertificates r') : r'.Succeeds ledger next := by
  obtain ⟨c, hc, hverify, happly⟩ := h
  exact ⟨c, hkeeps.finalized hc, hkeeps.validators ▸ hverify, happly⟩

namespace Ahead

lemma refl (h : r.pendingFinalized = []) : r.Ahead r := .level (SameLedger.refl r).keeps h rfl

lemma keeps (h : start.Ahead r) : start.KeepsCertificates r := by
  cases h with
  | level hkeeps => exact hkeeps
  | ahead hkeeps => exact hkeeps

/-- What keeps the chain, the candidate and the end of a round keeps the distance. -/
lemma congr (h : start.Ahead r) (hsame : r.SameLedger r') (hpending : r'.pending = r.pending)
    (hphase : r.consensus.phase = .finalized → r'.consensus.phase = .finalized) :
    start.Ahead r' := by
  cases h with
  | level hkeeps htaken hchain =>
    exact .level (hkeeps.trans hsame.keeps) (hsame.pendingFinalized.trans htaken)
      (hsame.chain.trans hchain)
  | ahead hkeeps c htaken hnext hgone hfinal =>
    refine .ahead (hkeeps.trans hsame.keeps) c (hsame.pendingFinalized.trans htaken) ?_
      (hpending.trans hgone) (hphase hfinal)
    rw [hsame.chain]
    exact hnext.mono hsame.keeps

/-- The end of a round whose candidate is settled. -/
lemma finalizePending (h : start.Ahead r) (hphase : r.consensus.phase = .finalized) :
    start.Ahead r.finalizePending.2 := by
  unfold ConsensusRuntime.finalizePending
  cases hpending : r.pending with
  | none => exact h
  | some b =>
    cases h with
    | ahead _ _ _ _ hgone _ => cases hgone.symm.trans hpending
    | level hkeeps htaken hchain =>
      dsimp only
      cases hcommit : { r with pending := none }.commit b with
      | error e => exact .level ⟨hkeeps.finalized, hkeeps.validators⟩ htaken hchain
      | ok r' =>
        simp only [commit, bind_eq_ok, pure_eq_ok] at hcommit
        obtain ⟨_, _, ⟨⟩, hverify, chain, happly, rfl⟩ := hcommit
        have hadded : r.certificateFor b ∈ r.finalized ++ [r.certificateFor b] :=
          List.mem_append_right _ (List.mem_singleton_self _)
        have hgrown : start.finalized ⊆ r.finalized ++ [r.certificateFor b] :=
          List.Subset.trans hkeeps.finalized (List.subset_append_left _ _)
        refine .ahead ⟨hgrown, hkeeps.validators⟩ (r.certificateFor b) ?_
          ⟨_, hadded, hverify, ?_⟩ rfl hphase
        · show r.pendingFinalized ++ _ = _
          rw [htaken]
          rfl
        · rw [← hchain]
          exact happly

/-- One vote finalises at most one block. -/
lemma receiveVote (h : start.Ahead r) (env : Reading) (m : ConsensusMessage) :
    start.Ahead (r.receiveVote env m).2 := by
  rcases hhandle : r.consensus.handle m with ⟨e | ⟨⟩, c⟩
  · obtain ⟨s, rfl⟩ := BftConsensus.handle_error hhandle
    have hresult : r.receiveVote env m
        = (.error e, { r with consensus := r.consensus.withRecords s }) := by
      rw [ConsensusRuntime.receiveVote, hhandle]
    rw [hresult]
    exact h.congr ⟨rfl, rfl, rfl, rfl⟩ rfl id
  · obtain ⟨⟨_, _, _, _, _, _, hstays⟩, _⟩ := BftConsensus.handle_counts hhandle
    obtain ⟨r₁, validBlock, deadline, hr₁, hresult⟩ := Ballot.receiveVote_eq env hhandle
    have hkept : start.Ahead r₁ := by
      rw [hr₁]
      exact h.congr ⟨rfl, rfl, rfl, rfl⟩ rfl hstays
    rw [hresult]
    cases hc : c.phase with
    | finalized =>
      refine hkept.finalizePending ?_
      rw [hr₁]
      exact hc
    | precommit => exact hkept
    | waiting => exact hkept
    | propose => exact hkept
    | prevote => exact hkept

lemma queue (h : start.Ahead r) (deferredVotes : List ConsensusMessage) :
    start.Ahead { r with deferredVotes } := h.congr ⟨rfl, rfl, rfl, rfl⟩ rfl id

lemma publishReplayedVotes (h : start.Ahead r) (env : ℕ → Reading) :
    start.Ahead (r.publishReplayedVotes env).2 := by
  have hreplay := replayDeferredVotes_induction (P := fun r => start.Ahead r)
    (fun r env m hr => hr.receiveVote env m) (fun r votes hr => hr.queue votes) r env h
  unfold ConsensusRuntime.publishReplayedVotes
  rcases hresult : r.replayDeferredVotes env with ⟨_ | _, r₁⟩ <;> rw [hresult] at hreplay <;>
    exact hreplay

lemma receiveOwn (h : start.Ahead r) (env : ℕ → Reading) (own : Option ConsensusMessage) :
    start.Ahead (r.receiveOwn env own).2 := by
  unfold ConsensusRuntime.receiveOwn
  cases own with
  | none => exact h.publishReplayedVotes env
  | some precommit =>
    have hvote := h.receiveVote (env 0) precommit
    dsimp only
    rcases hresult : r.receiveVote (env 0) precommit with ⟨_ | _, r₁⟩ <;> rw [hresult] at hvote
    · exact hvote
    · exact hvote.publishReplayedVotes _

lemma onConsensusReceived (h : start.Ahead r) (env : ℕ → Reading) (m : ConsensusMessage) :
    start.Ahead (r.onConsensusReceived env m).2 := by
  have hvote := h.receiveVote (env 0) m
  unfold ConsensusRuntime.onConsensusReceived
  rcases hresult : r.receiveVote (env 0) m with ⟨_ | own, r₁⟩ <;> rw [hresult] at hvote
  · dsimp only
    split
    · refine Ahead.publishReplayedVotes ?_ _
      unfold ConsensusRuntime.deferVote
      split
      · exact hvote
      · exact hvote.queue _
    · exact hvote.publishReplayedVotes _
  · exact hvote.receiveOwn _ own

/-- The own votes of a node. -/
lemma receiveOwnVotes (h : start.Ahead r) {env : ℕ → Reading} {prevote : ConsensusMessage}
    (hok : r.receiveOwnVotes env prevote = .ok r') : start.Ahead r' := by
  unfold ConsensusRuntime.receiveOwnVotes at hok
  have hvote := h.receiveVote (env 0) prevote
  rcases hfirst : r.receiveVote (env 0) prevote with ⟨_ | _ | precommit, r₁⟩ <;>
    rw [hfirst] at hok hvote
  · cases hok
  · obtain rfl := Except.ok.inj hok
    exact hvote
  · have hsecond := hvote.receiveVote (env 1) precommit
    dsimp only at hok
    rcases hresult : r₁.receiveVote (env 1) precommit with ⟨_ | _, r₂⟩ <;>
      rw [hresult] at hok hsecond
    · cases hok
    · obtain rfl := Except.ok.inj hok
      exact hsecond

end Ahead

/-! ## Operations that finalise nothing -/

/-- A proposal changes neither the chain nor the certificates. -/
lemma receiveProposal_sameLedger (r : ConsensusRuntime) (env : Reading) (p : SignedProposal) :
    r.SameLedger (r.receiveProposal env p).2 := by
  unfold ConsensusRuntime.receiveProposal
  cases haccept : r.acceptProposal env p with
  | error e => exact .refl r
  | ok r₁ =>
    obtain ⟨_, consensus, _, rfl⟩ := acceptProposal_eq_ok haccept
    exact ⟨rfl, rfl, rfl, rfl⟩

lemma timeoutIfDue_sameLedger (r : ConsensusRuntime) (now : ℕ) :
    r.SameLedger (r.timeoutIfDue now).2 := by
  unfold ConsensusRuntime.timeoutIfDue
  split
  · exact .refl r
  · split <;> exact ⟨rfl, rfl, rfl, rfl⟩

/-- A certificate whose block is applied verifies. -/
lemma verify_of_applySyncCertificates {env : ℕ → Reading} {c : FinalityCertificate}
    (h : (r.applySyncCertificates env [c]).1 = .ok 1) : c.verify r.validators = .ok () := by
  cases hc : r.applySyncCertificate (env 0) c with
  | error e => simp [applySyncCertificates, applySyncLoop, hc] at h
  | ok result => exact (applySyncCertificate_eq_ok hc).1

lemma startNextHeight_sameLedger {env : Reading} (h : r.startNextHeight env = .ok r') :
    r.SameLedger r' := by
  simp only [startNextHeight, bind_eq_ok, pure_eq_ok] at h
  obtain ⟨_, _, _, _, _, _, rfl⟩ := h
  exact ⟨rfl, rfl, rfl, rfl⟩

end ConsensusRuntime

namespace Proposer
variable {s s' : Proposer} {first : Blockchain}

/-! ## The installed chains -/

/-- The chain that a call installs. -/
def installed : PoolCall → Option Blockchain
  | .install chain => some chain
  | _ => none

/-- The chains of the RPC server, from the first to the one it answers from. -/
def ledgers (first : Blockchain) (s : Proposer) : List Blockchain :=
  first :: s.calls.filterMap installed

lemma ledgers_add (s : Proposer) (tx : Transaction) :
    ledgers first (s.call (.add tx)) = ledgers first s := by
  simp [ledgers, Proposer.call, installed]

lemma ledgers_restore (s : Proposer) (tx : Transaction) :
    ledgers first (s.call (.restore tx)) = ledgers first s := by
  simp [ledgers, Proposer.call, installed]

lemma ledgers_addTransactions (l : List Transaction) : ∀ s : Proposer,
    ledgers first (s.addTransactions l) = ledgers first s := by
  induction l with
  | nil => exact fun _ => rfl
  | cons tx l ih => exact fun s => (ih _).trans (ledgers_add s tx)

lemma ledgers_restoreTransactions (l : List Transaction) : ∀ s : Proposer,
    ledgers first (s.restoreTransactions l) = ledgers first s := by
  induction l with
  | nil => exact fun _ => rfl
  | cons tx l ih => exact fun s => (ih _).trans (ledgers_restore s tx)

lemma ledgers_drainTransactions (s : Proposer) (limit : ℕ) :
    ledgers first (s.drainTransactions limit).2 = ledgers first s := by
  simp [ledgers, Proposer.drainTransactions, Proposer.call, installed]

lemma ledgers_installFinalized (s : Proposer) :
    ledgers first s.installFinalized = ledgers first s ++ [s.runtime.chain] := by
  simp [ledgers, Proposer.installFinalized, Proposer.call, installed]

/-- Between two turns the chains follow each other, and the last one is that of the consensus. -/
structure Mirrors (first : Blockchain) (s : Proposer) : Prop where
  last : (ledgers first s).getLast? = some s.runtime.chain
  steps : (ledgers first s).IsChain s.runtime.Succeeds
  taken : s.runtime.pendingFinalized = []

namespace Mirrors

/-- What changes neither ledger keeps them the same. -/
lemma congr (h : s.Mirrors first) (hledgers : ledgers first s' = ledgers first s)
    (hsame : s.runtime.SameLedger s'.runtime) : s'.Mirrors first := by
  refine ⟨?_, ?_, hsame.pendingFinalized.trans h.taken⟩
  · rw [hledgers, hsame.chain, h.last]
  · rw [hledgers]
    exact h.steps.imp fun _ _ hnext => hnext.mono hsame.keeps

lemma runtime (h : s.Mirrors first) {r : ConsensusRuntime} (hsame : s.runtime.SameLedger r) :
    { s with runtime := r }.Mirrors first := h.congr rfl hsame

lemma addTransactions (h : s.Mirrors first) (l : List Transaction) :
    (s.addTransactions l).Mirrors first := by
  refine h.congr (ledgers_addTransactions l s) ?_
  rw [addTransactions_runtime]
  exact .refl _

lemma restoreTransactions (h : s.Mirrors first) (l : List Transaction) :
    (s.restoreTransactions l).Mirrors first := by
  refine h.congr (ledgers_restoreTransactions l s) ?_
  rw [restoreTransactions_runtime]
  exact .refl _

lemma drainTransactions (h : s.Mirrors first) (limit : ℕ) :
    (s.drainTransactions limit).2.Mirrors first :=
  h.congr (ledgers_drainTransactions s limit) (.refl _)

/-- One more block is installed. -/
lemma installFinalized (h : s.Mirrors first) {r : ConsensusRuntime}
    (hkeeps : s.runtime.KeepsCertificates r) (hnext : r.Succeeds s.runtime.chain r.chain)
    (htaken : r.pendingFinalized = []) : { s with runtime := r }.installFinalized.Mirrors first := by
  have hledgers : ledgers first { s with runtime := r }.installFinalized
      = ledgers first s ++ [r.chain] := ledgers_installFinalized _
  refine ⟨?_, ?_, htaken⟩
  · rw [hledgers, List.getLast?_concat]
    rfl
  · rw [hledgers]
    refine (h.steps.imp fun _ _ hnext => hnext.mono hkeeps).append (.singleton _) ?_
    rintro c hc _ ⟨⟩
    obtain rfl := Option.some.inj (h.last.symm.trans hc)
    exact hnext

/-- The block that is one ahead is installed. -/
lemma finalizeIfReady (h : s.Mirrors first) {r : ConsensusRuntime} (hahead : s.runtime.Ahead r)
    {env : Reading} (hok : { s with runtime := r }.finalizeIfReady env = .ok s') :
    s'.Mirrors first := by
  unfold Proposer.finalizeIfReady ConsensusRuntime.takeFinalized at hok
  dsimp only at hok
  cases hahead with
  | level hkeeps htaken hchain =>
    rw [if_pos htaken] at hok
    obtain rfl := Except.ok.inj hok
    refine ⟨?_, h.steps.imp fun _ _ hnext => hnext.mono ⟨hkeeps.finalized, hkeeps.validators⟩, rfl⟩
    show (ledgers first s).getLast? = some r.chain
    rw [h.last, hchain]
  | ahead hkeeps c htaken hnext hgone hphase =>
    rw [if_neg (by simp [htaken])] at hok
    simp only [htaken, List.foldl_cons, List.foldl_nil, bind_eq_ok, pure_eq_ok] at hok
    obtain ⟨r', hadvance, rfl⟩ := hok
    simp only [ConsensusRuntime.advanceAfterFinalization, bind_eq_ok] at hadvance
    obtain ⟨_, _, hstart⟩ := hadvance
    have hinstalled := h.installFinalized (r := { r with pendingFinalized := [] })
      ⟨hkeeps.finalized, hkeeps.validators⟩ (hnext.mono ⟨List.Subset.refl _, rfl⟩) rfl
    exact hinstalled.congr rfl (ConsensusRuntime.startNextHeight_sameLedger hstart)

/-! ## Turns -/

lemma roundTimeout (h : s.Mirrors first) {instant : ℕ} (hok : s.roundTimeout instant = .ok s') :
    s'.Mirrors first := by
  unfold Proposer.roundTimeout at hok
  extract_lets timedOut active restarted s₁ at hok
  have hrestarted : s.runtime.SameLedger restarted := by
    show s.runtime.SameLedger (if _ then _ else _)
    split <;> exact ⟨rfl, rfl, rfl, rfl⟩
  have hs₁ : s₁.Mirrors first := h.congr rfl hrestarted
  have htimeout := ConsensusRuntime.timeoutIfDue_sameLedger s₁.runtime instant
  split at hok
  · rcases hdue : s₁.runtime.timeoutIfDue instant with ⟨_ | _ | _, r⟩ <;>
      rw [hdue] at hok htimeout
    · cases hok
    · obtain rfl := Except.ok.inj hok
      exact hs₁.runtime htimeout
    · obtain rfl := Except.ok.inj hok
      exact (hs₁.runtime htimeout).restoreTransactions _
  · obtain rfl := Except.ok.inj hok
    exact hs₁

lemma proposeDrained (h : s.Mirrors first) {t : Tick} {pending : List Transaction}
    (hok : s.proposeDrained t pending = .ok s') : s'.Mirrors first := by
  simp only [Proposer.proposeDrained, bind_eq_ok] at hok
  obtain ⟨block, _, hok⟩ := hok
  cases hmake : s.runtime.makeProposal (t.readings 0) block with
  | error e =>
    rw [hmake] at hok
    obtain rfl := Except.ok.inj hok
    exact h.restoreTransactions pending
  | ok proposal =>
    rw [hmake] at hok
    dsimp only at hok
    have hsame := s.runtime.receiveProposal_sameLedger (t.readings 1) proposal
    rcases hreceive : s.runtime.receiveProposal (t.readings 1) proposal with ⟨e | prevote, r⟩ <;>
      rw [hreceive] at hok hsame
    · obtain rfl := Except.ok.inj hok
      exact (h.runtime hsame).restoreTransactions pending
    · dsimp only at hok
      simp only [bind_eq_ok] at hok
      obtain ⟨r₁, hvotes, hfinalize⟩ := hok
      have hproposed := h.runtime hsame
      have hahead := ConsensusRuntime.Ahead.refl hproposed.taken
      exact hproposed.finalizeIfReady (hahead.receiveOwnVotes hvotes) hfinalize

lemma tick (h : s.Mirrors first) {t : Tick} (hok : s.tick t = .ok s') : s'.Mirrors first := by
  simp only [Proposer.tick, bind_eq_ok] at hok
  obtain ⟨s₁, htimeout, hok⟩ := hok
  have hs₁ := h.roundTimeout htimeout
  split at hok
  · obtain rfl := Except.ok.inj hok
    exact hs₁
  · simp only [bind_eq_ok, Proposer.propose] at hok
    obtain ⟨_, _, turn, _, hok⟩ := hok
    cases turn with
    | false =>
      obtain rfl := Except.ok.inj hok
      exact hs₁
    | true =>
      have hdrained := hs₁.drainTransactions drainLimit
      exact (hdrained.addTransactions t.arrivals).proposeDrained hok

lemma onProposalReceived (h : s.Mirrors first) {env : ℕ → Reading} {final : Reading}
    {p : SignedProposal} (hok : s.onProposalReceived env final p = .ok s') : s'.Mirrors first := by
  unfold Proposer.onProposalReceived at hok
  split at hok
  · obtain rfl := Except.ok.inj hok
    exact h
  have hsame := s.runtime.receiveProposal_sameLedger (env 0) p
  rcases hreceive : s.runtime.receiveProposal (env 0) p with ⟨e | prevote, r⟩ <;>
    rw [hreceive] at hok hsame
  · obtain rfl := Except.ok.inj hok
    exact h.runtime hsame
  · dsimp only at hok
    simp only [bind_eq_ok] at hok
    obtain ⟨r₁, hvotes, hok⟩ := hok
    have hproposed := h.runtime hsame
    have hreplay := ((ConsensusRuntime.Ahead.refl hproposed.taken).receiveOwnVotes
      hvotes).publishReplayedVotes fun n => env (n + 3)
    rcases hpublish : r₁.publishReplayedVotes fun n => env (n + 3) with ⟨_ | ⟨⟩, r₂⟩ <;>
      rw [hpublish] at hok hreplay
    · cases hok
    · exact hproposed.finalizeIfReady hreplay hok

lemma onConsensusReceived (h : s.Mirrors first) {env : ℕ → Reading} {final : Reading}
    {m : ConsensusMessage} (hok : s.onConsensusReceived env final m = .ok s') :
    s'.Mirrors first := by
  unfold Proposer.onConsensusReceived at hok
  split at hok
  · obtain rfl := Except.ok.inj hok
    exact h
  have hvotes := (ConsensusRuntime.Ahead.refl h.taken).onConsensusReceived env m
  rcases hreceive : s.runtime.onConsensusReceived env m with ⟨_ | ⟨⟩, r⟩ <;>
    rw [hreceive] at hok hvotes
  · cases hok
  · have hcounted : s.runtime.Ahead r.takeEvidence.2 := hvotes.congr ⟨rfl, rfl, rfl, rfl⟩ rfl id
    exact h.finalizeIfReady hcounted hok

/-- The certificates of another node are applied and installed one at a time. -/
lemma syncLoop {env : ℕ → Reading} : ∀ (certificates : List FinalityCertificate)
    (readings applied : ℕ) {applied' : ℕ} {s s' : Proposer}, s.Mirrors first →
    Proposer.syncLoop env certificates readings applied s = .ok (applied', s') →
    s'.Mirrors first := by
  intro certificates
  induction certificates with
  | nil =>
    intro readings applied applied' s s' h hok
    obtain ⟨rfl, rfl⟩ := Prod.mk.inj (Except.ok.inj hok)
    exact h
  | cons c rest ih =>
    intro readings applied applied' s s' h hok
    rw [Proposer.syncLoop] at hok
    obtain ⟨result, hresult, hsame⟩ | ⟨chain, happly, ⟨r, hstart, hdone⟩ | ⟨e, _, hfail⟩⟩ :=
      ConsensusRuntime.applySyncCertificates_singleton s.runtime (fun i => env (readings + i)) c
    · -- the certificate was not applied: the ledger is the same
      rw [hsame] at hok
      cases result with
      | error e => cases hok
      | ok count =>
        have hcount : count ≠ 1 := fun heq => hresult (heq ▸ rfl)
        dsimp only at hok
        rw [if_neg hcount] at hok
        exact ih _ _ h hok
    · -- it was applied, and the block is installed like an own one
      rw [hdone] at hok
      dsimp only at hok
      rw [if_pos rfl] at hok
      have hverify := ConsensusRuntime.verify_of_applySyncCertificates (congrArg Prod.fst hdone)
      obtain ⟨hchain, hfinalized, htaken, hvalidators⟩ :=
        ConsensusRuntime.startNextHeight_sameLedger hstart
      have hnone : r.pendingFinalized = [] := htaken.trans h.taken
      refine ih _ _ (h.installFinalized ⟨?_, hvalidators⟩ ⟨c, ?_, ?_, ?_⟩ hnone) hok
      · rw [hfinalized]
        exact List.subset_append_left _ _
      · rw [hfinalized]
        exact List.mem_append_right _ (List.mem_singleton_self c)
      · rw [hvalidators]
        exact hverify
      · rw [hchain]
        exact happly
    · rw [hfail] at hok
      cases hok

/-- The first validators are selected before anything is installed. -/
lemma onValidatorsSelected (h : s.Mirrors first) {env : Reading} {selected : List Validator}
    (hok : s.onValidatorsSelected env selected = .ok s') : s'.Mirrors first := by
  simp only [Proposer.onValidatorsSelected, ConsensusRuntime.replaceBootstrapValidators, bind_eq_ok,
    ensure_eq_ok, pure_eq_ok] at hok
  obtain ⟨r, ⟨_, ⟨htip, _⟩, c, _, c', _, rfl⟩, rfl⟩ := hok
  refine ⟨h.last, ?_, h.taken⟩
  have hnone : s.calls.filterMap installed = [] := by
    refine (List.eq_nil_or_concat _).resolve_right ?_
    rintro ⟨before, chain, hcalls⟩
    have hledgers : ledgers first s = (first :: before) ++ [chain] := by
      rw [ledgers, hcalls, List.concat_eq_append, List.cons_append]
    have hchain : chain = s.runtime.chain := by
      have hlast := h.last
      rw [hledgers, List.getLast?_concat] at hlast
      exact Option.some.inj hlast
    -- the last chain has one block more than the one before
    have hsteps := h.steps
    rw [hledgers] at hsteps
    have hne : first :: before ≠ [] := List.cons_ne_nil _ _
    obtain ⟨_, _, _, happly⟩ := hsteps.rel_getLast_head_of_append hne (List.cons_ne_nil _ _)
    obtain ⟨_, hraised⟩ := Blockchain.tipHeight_applyBlock happly
    rw [List.head_singleton, hchain, htip] at hraised
    simp at hraised
  show (first :: s.calls.filterMap installed).IsChain _
  rw [hnone]
  exact .singleton first

/-- Every turn of the loop. -/
lemma step (h : s.Mirrors first) {e : Event} (hok : s.step e = .ok s') : s'.Mirrors first := by
  cases e with
  | tick t => exact h.tick hok
  | transactionReceived tx =>
    obtain rfl := Except.ok.inj hok
    exact h.addTransactions [tx]
  | proposalReceived env final p => exact h.onProposalReceived hok
  | consensusReceived env final m => exact h.onConsensusReceived hok
  | syncReceived env agreedTip certificates =>
    simp only [Proposer.step, Proposer.onSyncReceived, bind_eq_ok, ensure_eq_ok, pure_eq_ok] at hok
    obtain ⟨⟨applied, s₁⟩, hloop, _, _, rfl⟩ := hok
    exact syncLoop certificates 0 0 h hloop
  | validatorsSelected env selected => exact h.onValidatorsSelected hok

/-- And so every run. -/
lemma run (events : List Event) : ∀ {s s' : Proposer}, s.Mirrors first → s.run events = .ok s' →
    s'.Mirrors first := by
  induction events with
  | nil =>
    intro s s' h hok
    obtain rfl := Except.ok.inj hok
    exact h
  | cons e rest ih =>
    intro s s' h hok
    simp only [Proposer.run, List.foldlM_cons, bind_eq_ok] at hok
    obtain ⟨s₁, hstep, hrest⟩ := hok
    exact ih (h.step hstep) hrest

end Mirrors

lemma Begins.mirrors {chain : Blockchain} {validators : List Validator} {schedule : EventSchedule}
    {validator : String} {certificates : List FinalityCertificate}
    (h : Begins chain validators schedule validator certificates s) : s.Mirrors chain := by
  obtain ⟨⟨r, hstarted, hruntime⟩, _, hcalls⟩ := h
  obtain ⟨_, _, _, _, _, _, _, _, rfl⟩ := hstarted.eq
  obtain ⟨finalized, himport⟩ := ConsensusRuntime.importCertificateHistory_eq certificates _
  rw [himport] at hruntime
  have hledgers : ledgers chain s = [chain] := by rw [ledgers, hcalls]; rfl
  refine ⟨?_, ?_, by rw [hruntime]⟩
  · rw [hledgers, hruntime]
    rfl
  · rw [hledgers]
    exact .singleton chain

/-- **The RPC server follows the consensus.** In every run of the loop, the chain the server answers
from between two turns is that of the consensus. It got there block by block: each chain that was
installed is the one before it with the block of a certificate that the node has and that its
validators verify. -/
theorem ledger_follows_consensus (chain : Blockchain) (validators : List Validator)
    (schedule : EventSchedule) (validator : String) (certificates : List FinalityCertificate)
    (start : Proposer) (hstart : Begins chain validators schedule validator certificates start)
    (events : List Event) (s : Proposer) (hrun : start.run events = .ok s) :
    (ledgers chain s).getLast? = some s.runtime.chain ∧
    (ledgers chain s).IsChain fun ledger next => ∃ c ∈ s.runtime.finalized,
      c.verify s.runtime.validators = .ok () ∧ ledger.applyBlock c.block = .ok next := by
  obtain ⟨hlast, hsteps, _⟩ := hstart.mirrors.run events hrun
  exact ⟨hlast, hsteps⟩

end Proposer

end

namespace Proposer
attribute [local instance] Devnet.primitives

/-- The proposal of the first block, and the votes of the only validator for it. -/
def finalizesFirst : List Event :=
  [.proposalReceived (fun n => Devnet.reading
      (if n = 0 then Devnet.firstPrevote.signature else Devnet.firstPrecommit.signature))
    (Devnet.reading "") Devnet.firstProposal]

/-- The first block is finalised and installed. -/
theorem ledger_follows_consensus_first : ∃ s, alone.run finalizesFirst = .ok s ∧
    s.runtime.chain.tipHeight = 1 ∧
    (ledgers Devnet.chain s).getLast? = some s.runtime.chain ∧
    (ledgers Devnet.chain s).IsChain fun ledger next => ∃ c ∈ s.runtime.finalized,
      c.verify s.runtime.validators = .ok () ∧ ledger.applyBlock c.block = .ok next := by
  have hbegins : Begins Devnet.chain [Devnet.self] EventSchedule.empty Devnet.validator [] alone :=
    ⟨⟨Devnet.node, Devnet.node_started, rfl⟩, rfl, rfl⟩
  have hheight : (alone.run finalizesFirst).map (fun s => s.runtime.chain.tipHeight) = .ok 1 := by
    decide +kernel
  cases hrun : alone.run finalizesFirst with
  | error e =>
    rw [hrun] at hheight
    cases hheight
  | ok s =>
    rw [hrun] at hheight
    refine ⟨s, rfl, Except.ok.inj hheight, ?_⟩
    exact ledger_follows_consensus _ _ _ _ _ _ hbegins finalizesFirst s hrun

end Proposer

end IeumChain
