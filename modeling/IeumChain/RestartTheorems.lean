import IeumChain.SnapshotTheorems
import IeumChain.SyncTheorems

/-!
# Restarts

A node persists every certificate, but only the newest state. The chain it rebuilds from that
state holds a single block, the anchor at the tip, and `import_certificate_history` keeps the
certificates of the blocks the chain holds. So of all certificates exactly the last one is served
after a restart: as many as before when at most one block was finalised, and fewer otherwise.

* `Extends`: what an operation other than the two that hand certificates over adds to the lists;
* `Kept`: the invariant of a node with its stores;
* `certificates_survive_restart`: when the restarted node answers as before.
-/

namespace IeumChain

open Lib

section
variable [Primitives]

namespace ConsensusRuntime

/-! ## What the runtime finalises -/

/-- The runtime finalised some blocks, and holds their certificates ready to be taken. -/
def Extends (r r' : ConsensusRuntime) : Prop :=
  ∃ added, r'.finalized = r.finalized ++ added ∧
    r'.pendingFinalized = r.pendingFinalized ++ added ∧ (added = [] → r'.chain = r.chain)

/-- Nothing was finalised. -/
lemma Extends.of_eq {r r' : ConsensusRuntime} (hfinalized : r'.finalized = r.finalized)
    (hpending : r'.pendingFinalized = r.pendingFinalized) (hchain : r'.chain = r.chain) :
    Extends r r' :=
  ⟨[], by rw [hfinalized, List.append_nil], by rw [hpending, List.append_nil], fun _ => hchain⟩

lemma Extends.refl (r : ConsensusRuntime) : Extends r r := .of_eq rfl rfl rfl

lemma Extends.trans {r r' r'' : ConsensusRuntime} (h : Extends r r') (h' : Extends r' r'') :
    Extends r r'' := by
  obtain ⟨added, hfinalized, hpending, hchain⟩ := h
  obtain ⟨added', hfinalized', hpending', hchain'⟩ := h'
  refine ⟨added ++ added', ?_, ?_, fun hnil => ?_⟩
  · rw [hfinalized', hfinalized, List.append_assoc]
  · rw [hpending', hpending, List.append_assoc]
  · obtain ⟨hadded, hadded'⟩ := List.append_eq_nil_iff.mp hnil
    rw [hchain' hadded', hchain hadded]

lemma finalizePending_extends (r : ConsensusRuntime) : Extends r r.finalizePending.2 := by
  unfold finalizePending
  cases hpending : r.pending with
  | none => exact .refl r
  | some b =>
    cases hcommit : { r with pending := none }.commit b with
    | error e =>
      simp only [hcommit]
      exact .of_eq rfl rfl rfl
    | ok r' =>
      simp only [hcommit]
      simp only [ConsensusRuntime.commit, bind_eq_ok, ensure_eq_ok, pure_eq_ok] at hcommit
      obtain ⟨_, _, _, _, chain, _, rfl⟩ := hcommit
      exact ⟨_, rfl, rfl, fun hnil => by simp at hnil⟩

lemma receiveVote_extends (r : ConsensusRuntime) (env : Reading) (vote : ConsensusMessage) :
    Extends r (r.receiveVote env vote).2 := by
  unfold receiveVote
  rcases r.consensus.handle vote with ⟨e | ⟨⟩, consensus⟩
  · exact .of_eq rfl rfl rfl
  · obtain ⟨precommits, validBlock, deadline, heq⟩ := afterVote_eq r env vote consensus
    have hafter : Extends r { r with consensus, precommits, validBlock, deadline } :=
      .of_eq rfl rfl rfl
    simp only [heq]
    split
    · exact hafter
    · exact hafter.trans (finalizePending_extends _)
    · exact hafter

/-- The end of a height finalises nothing. -/
lemma advanceAfterFinalization_frame (r : ConsensusRuntime) (env : Reading) :
    (getOk (r.advanceAfterFinalization env) r).finalized = r.finalized ∧
      (getOk (r.advanceAfterFinalization env) r).pendingFinalized = r.pendingFinalized ∧
      (getOk (r.advanceAfterFinalization env) r).chain = r.chain := by
  cases hadvance : r.advanceAfterFinalization env with
  | error e => exact ⟨rfl, rfl, rfl⟩
  | ok r' =>
    simp only [advanceAfterFinalization, startNextHeight, bind_eq_ok, pure_eq_ok] at hadvance
    obtain ⟨_, _, _, _, _, _, _, _, rfl⟩ := hadvance
    exact ⟨rfl, rfl, rfl⟩

lemma receiveProposal_extends (r : ConsensusRuntime) (env : Reading) (p : SignedProposal) :
    Extends r (r.receiveProposal env p).2 := by
  unfold receiveProposal
  cases haccept : r.acceptProposal env p with
  | error e => exact .refl r
  | ok r' =>
    obtain ⟨_, consensus, _, rfl⟩ := acceptProposal_eq_ok haccept
    exact .of_eq rfl rfl rfl

lemma deferVote_extends (r : ConsensusRuntime) (vote : ConsensusMessage) :
    Extends r (r.deferVote vote) := by
  unfold deferVote
  split
  · exact .refl r
  · exact .of_eq rfl rfl rfl

lemma replayDeferredVotes_extends (r : ConsensusRuntime) (env : ℕ → Reading) :
    Extends r (r.replayDeferredVotes env).2 :=
  replayDeferredVotes_induction (fun _ _ _ h => h.trans (receiveVote_extends _ _ _))
    (fun _ _ h => h.trans (.of_eq rfl rfl rfl)) r env (.refl r)

lemma timeoutIfDue_extends (r : ConsensusRuntime) (now : ℕ) :
    Extends r (r.timeoutIfDue now).2 := by
  unfold timeoutIfDue
  split
  · exact .refl r
  · cases r.consensus.onTimeout with
    | error e => exact .refl r
    | ok consensus => exact .of_eq rfl rfl rfl

/-- The operations that neither hand certificates over nor apply those of others. -/
def Op.isLocal : Op → Bool
  | .applySyncCertificates _ => false
  | .takeFinalized => false
  | _ => true

lemma step_extends (r : ConsensusRuntime) (env : ℕ → Reading) {op : Op}
    (hlocal : op.isLocal = true) : Extends r (r.step env op).2 := by
  cases op with
  | receiveProposal p => exact receiveProposal_extends r (env 0) p
  | receiveVote vote => exact receiveVote_extends r (env 0) vote
  | deferVote vote => exact deferVote_extends r vote
  | replayDeferredVotes => exact replayDeferredVotes_extends r env
  | timeoutIfDue now => exact timeoutIfDue_extends r now
  | restartPhaseTimeout now => exact .of_eq rfl rfl rfl
  | advanceAfterFinalization =>
    obtain ⟨hfinalized, hpending, hchain⟩ := advanceAfterFinalization_frame r (env 0)
    exact .of_eq hfinalized hpending hchain
  | takeEvidence => exact .of_eq rfl rfl rfl
  | applySyncCertificates certificates => cases hlocal
  | takeFinalized => cases hlocal

/-- One certificate alone: refused, known, applied with the next height started, or applied
without room for a next height. -/
lemma applySyncCertificates_cases (r : ConsensusRuntime) (env : ℕ → Reading)
    (c : FinalityCertificate) (hs : Sound (fun _ => True) r) :
    (∃ result, result ≠ .ok 1 ∧ r.applySyncCertificates env [c] = (result, r)) ∨
      (∃ r', r.applySyncCertificates env [c] = (.ok 1, r') ∧
        r'.finalized = r.finalized ++ [c] ∧ r'.pendingFinalized = r.pendingFinalized) ∨
      ∃ e r', r.applySyncCertificates env [c] = (.error e, r') ∧
        r'.finalized = r.finalized ++ [c] ∧ 2 ^ 64 ≤ r'.chain.tipHeight.toNat + 1 := by
  rcases applySyncCertificates_singleton r env c with
    h | ⟨chain, hchain, ⟨r', hstart, heq⟩ | ⟨e, hstart, heq⟩⟩
  · exact .inl h
  · obtain ⟨_, hfinalized, hpending⟩ := startNextHeight_frame hstart
    exact .inr (.inl ⟨r', heq, hfinalized, hpending⟩)
  · refine .inr (.inr ⟨e, _, heq, rfl, ?_⟩)
    by_contra hroom
    -- the consensus is behind the new tip, so that only the bound on heights can fail
    obtain ⟨_, htip⟩ := Blockchain.tipHeight_applyBlock hchain
    obtain ⟨_, _, _, _, _, hblocks⟩ := Blockchain.applyBlock_eq_ok.mp hchain
    have hbound := hs.bound
    obtain ⟨_, _, hr', _⟩ := startNextHeight_isOk
      (r := { r with chain, finalized := r.finalized ++ [c] }) (env 1) (by simp [hblocks])
      (not_le.mp hroom) (by show r.consensus.height.toNat < chain.tipHeight.toNat + 1; omega)
    rw [hstart] at hr'
    cases hr'

/-! ## The runtime of a node -/

/-- What holds of a runtime whose validators may have been replaced before the first block. -/
structure Runs (first : Blockchain) (r : ConsensusRuntime) : Prop where
  sound : Sound (fun _ => True) r
  server : ServerInv r.validators r.eventSchedule first r
  accepted : ∃ c, BftConsensus.new r.validators = .ok c

lemma Runs.moves {first : Blockchain} {r r' : ConsensusRuntime} {signed : List ConsensusMessage}
    (h : Runs first r) (hmoves : Moves (fun _ => True) r signed r') : Runs first r' := by
  have hserver : ServerInv r.validators r.eventSchedule first r' :=
    Moves.induction (P := fun r' _ => ServerInv r.validators r.eventSchedule first r')
      (fun hr hm => hr.move hm) [] hmoves h.server
  have hvalidators := hserver.sameValidators
  have hschedule := hserver.sameSchedule
  refine ⟨h.sound.moves hmoves, ?_, ?_⟩
  · rw [hvalidators, hschedule]
    exact hserver
  · rw [hvalidators]
    exact h.accepted

/-- Before the first block there is no certificate, and the validators may change. -/
lemma Runs.replace {first : Blockchain} {r r' : ConsensusRuntime} {env : Reading}
    {validators : List Validator} (h : Runs first r)
    (hr' : r.replaceBootstrapValidators env validators = .ok r') :
    Runs first r' ∧ r'.finalized = r.finalized ∧ r'.pendingFinalized = r.pendingFinalized ∧
      r'.chain = r.chain := by
  simp only [replaceBootstrapValidators, bind_eq_ok, ensure_eq_ok, pure_eq_ok] at hr'
  obtain ⟨_, ⟨htip, hpending⟩, c, hnew, c', hstart, rfl⟩ := hr'
  obtain ⟨map, total, rfl, _⟩ := BftConsensus.new_startRound hnew hstart (by decide)
  have hnone : r.finalized = [] := by
    have hlength := h.server.finalizes.tipHeight
    rw [htip] at hlength
    change 0 = _ + _ at hlength
    exact List.length_eq_zero_iff.mp (by omega)
  have hway := h.server.finalizes
  rw [hnone] at hway
  refine ⟨⟨⟨?_, fun _ _ => trivial⟩, ⟨rfl, rfl, ?_, fun b hb => ?_⟩, c, hnew⟩, rfl, rfl, rfl⟩
  · show (1 : UInt64).toNat ≤ r.chain.tipHeight.toNat + 1
    exact Nat.le_add_left _ _
  · show Finalizes _ _ first r.finalized r.chain
    rw [hnone, ← hway.eq_of_nil]
    exact .nil first
  · change r.pending = some b at hb
    rw [hpending] at hb
    cases hb

lemma Runs.started {first : Blockchain} {validators : List Validator} {schedule : EventSchedule}
    {validator : String} {r : ConsensusRuntime}
    (h : Started first validators schedule validator r) : Runs first r := by
  obtain ⟨hsound, hserver⟩ := serverInv_run h []
  refine ⟨hsound, ?_, ?_⟩
  · have hvalidators : r.validators = validators := hserver.sameValidators
    have hschedule : r.eventSchedule = schedule := hserver.sameSchedule
    rw [hvalidators, hschedule]
    exact hserver
  · obtain ⟨timeouts, instant, r₀, hr₀, hset⟩ := h
    obtain ⟨_, rfl⟩ := setEventSchedule_eq_ok hset
    simp only [withSigner, bind_eq_ok, pure_eq_ok] at hr₀
    obtain ⟨_, _, c, hnew, _, _, rfl⟩ := hr₀
    exact ⟨c, hnew⟩

end ConsensusRuntime

namespace Node

open ConsensusRuntime

/-! ## The stores -/

/-- The stores hold what was handed over: every certificate but those still to be taken, and when
there are none of these the state of the tip. -/
structure Stored (node : Node) : Prop where
  certificates : (node.finality ++ node.runtime.pendingFinalized).Perm node.runtime.finalized
  state : node.runtime.pendingFinalized = [] →
    node.canonical = if node.runtime.finalized = [] then none
      else some (CanonicalState.fromChain node.runtime.chain)

/-- There is room for one more block above the tip. -/
def Room (first : Blockchain) (node : Node) : Prop :=
  first.tipHeight.toNat + node.runtime.finalized.length + 1 < 2 ^ 64

/-- The invariant of a node: its stores are complete while heights have not run out. -/
structure Kept (first : Blockchain) (node : Node) : Prop where
  runs : Runs first node.runtime
  stored : Room first node → Stored node

/-- An operation that only extends the lists of the runtime leaves the stores complete. -/
lemma Stored.extends {node : Node} {r : ConsensusRuntime} (h : Stored node)
    (hr : Extends node.runtime r) : Stored { node with runtime := r } := by
  obtain ⟨added, hfinalized, hpending, hchain⟩ := hr
  refine ⟨?_, fun hnil => ?_⟩
  · show (node.finality ++ r.pendingFinalized).Perm r.finalized
    rw [hpending, hfinalized, ← List.append_assoc]
    exact h.certificates.append_right added
  · change r.pendingFinalized = [] at hnil
    rw [hpending] at hnil
    obtain ⟨hbefore, hadded⟩ := List.append_eq_nil_iff.mp hnil
    have hstate := h.state hbefore
    rw [hadded, List.append_nil] at hfinalized
    show node.canonical = if r.finalized = [] then none else some (.fromChain r.chain)
    rw [hfinalized, hchain hadded]
    exact hstate

lemma Kept.extends {first : Blockchain} {node : Node} {r : ConsensusRuntime}
    (h : Kept first node) (hruns : Runs first r) (hr : Extends node.runtime r) :
    Kept first { node with runtime := r } := by
  refine ⟨hruns, fun hroom => (h.stored ?_).extends hr⟩
  obtain ⟨added, hfinalized, _⟩ := hr
  change first.tipHeight.toNat + r.finalized.length + 1 < 2 ^ 64 at hroom
  rw [hfinalized, List.length_append] at hroom
  show first.tipHeight.toNat + node.runtime.finalized.length + 1 < 2 ^ 64
  omega

/-- Installing several certificates commits the same state each time. -/
lemma foldl_install (certificates : List FinalityCertificate) :
    ∀ (node : Node), certificates ≠ [] → certificates.foldl install node
      = { node with canonical := some (CanonicalState.fromChain node.runtime.chain)
                    finality := node.finality ++ certificates } := by
  induction certificates with
  | nil => exact fun node hne => absurd rfl hne
  | cons c rest ih =>
    intro node _
    rw [List.foldl_cons]
    by_cases hrest : rest = []
    · rw [hrest]
      rfl
    · rw [ih (node.install c) hrest]
      simp only [install, List.append_assoc, List.singleton_append]

lemma finalizeIfReady_kept {first : Blockchain} {node : Node} (env : Reading)
    (h : Kept first node) : Kept first (node.finalizeIfReady env) := by
  unfold finalizeIfReady takeFinalized
  simp only
  have htaken : Moves (fun _ => True) node.runtime [] { node.runtime with pendingFinalized := [] } :=
    (Move.handOver node.runtime).moves
  split
  · rename_i hempty
    refine ⟨h.runs.moves htaken, fun hroom => ?_⟩
    have hstored := h.stored hroom
    refine ⟨?_, fun _ => hstored.state hempty⟩
    have hperm := hstored.certificates
    rw [hempty] at hperm
    exact hperm
  · rename_i hne
    rw [foldl_install _ _ hne]
    simp only
    obtain ⟨hfinalized, hpending, hchain⟩ :=
      advanceAfterFinalization_frame { node.runtime with pendingFinalized := [] } env
    refine ⟨(h.runs.moves htaken).moves (advanceAfterFinalization_moves _ env), fun hroom => ?_⟩
    have hroom' : Room first node := by
      unfold Room at hroom ⊢
      rwa [hfinalized] at hroom
    have hperm := (h.stored hroom').certificates
    refine ⟨?_, fun _ => ?_⟩
    · simp only [hpending, hfinalized, List.append_nil]
      exact hperm
    · simp only [hfinalized, hchain]
      rw [if_neg]
      intro hnil
      rw [hnil] at hperm
      exact hne (List.append_eq_nil_iff.mp hperm.eq_nil).2

lemma syncReceived_kept {first : Blockchain} (env : ℕ → Reading) :
    ∀ (certificates : List FinalityCertificate) (readings : ℕ) (node : Node), Kept first node →
      Kept first (syncReceived env certificates readings node) := by
  intro certificates
  induction certificates with
  | nil => exact fun _ _ h => h
  | cons c rest ih =>
    intro readings node h
    have hruns := h.runs.moves (applySyncCertificates_moves node.runtime
      (fun i => env (readings + i)) [c] h.runs.sound)
    unfold syncReceived
    rcases applySyncCertificates_cases node.runtime (fun i => env (readings + i)) c h.runs.sound
      with ⟨result, hnew, hsame⟩ | ⟨r', happlied, hfinalized, hpending⟩ | ⟨e, r', hfull, _, hroom⟩
    · -- nothing new
      rw [hsame]
      cases result with
      | error e => exact h
      | ok applied =>
        have hne : applied ≠ 1 := fun heq => hnew (congrArg Except.ok heq)
        simp only [if_neg hne]
        exact ih _ node h
    · rw [happlied] at hruns ⊢
      simp only [if_true]
      refine ih _ _ ⟨hruns, fun hroom => ?_⟩
      have hroom' : Room first node := by
        unfold Room install at hroom
        simp only [hfinalized, List.length_append, List.length_singleton] at hroom
        unfold Room
        omega
      refine ⟨?_, fun _ => ?_⟩
      · simp only [install, hfinalized, hpending, List.append_assoc]
        refine .trans (.append_left _ List.perm_append_comm) ?_
        rw [← List.append_assoc]
        exact (h.stored hroom').certificates.append_right [c]
      · simp only [install, hfinalized]
        rw [if_neg (by simp)]
    · -- heights have run out
      rw [hfull] at hruns ⊢
      refine ⟨hruns, fun hroom' => ?_⟩
      have htip := hruns.server.finalizes.tipHeight
      unfold Room at hroom'
      simp only at hroom' htip
      omega

/-- Every event keeps the invariant. -/
lemma step_kept {first : Blockchain} {node : Node} (env : ℕ → Reading) (event : Event)
    (h : Kept first node) : Kept first (node.step env event) := by
  have hlocal : ∀ op : Op, op.isLocal = true →
      Kept first { node with runtime := (node.runtime.step env op).2 } := by
    intro op hop
    obtain ⟨_, hmoves, _⟩ := step_moves node.runtime env op h.runs.sound fun _ _ => trivial
    exact h.extends (h.runs.moves hmoves) (step_extends node.runtime env hop)
  cases event with
  | op op =>
    cases op with
    | takeFinalized => exact finalizeIfReady_kept (env 0) h
    | applySyncCertificates certificates => exact syncReceived_kept env certificates 0 node h
    | _ => exact hlocal _ rfl
  | replaceBootstrapValidators validators =>
    simp only [step]
    cases hreplace : node.runtime.replaceBootstrapValidators (env 0) validators with
    | error e => exact h
    | ok r =>
      rw [getOk_ok]
      obtain ⟨hruns, hfinalized, hpending, hchain⟩ := h.runs.replace hreplace
      exact h.extends hruns (.of_eq hfinalized hpending hchain)

/-- A node with empty stores. -/
def fresh (r : ConsensusRuntime) : Node := { runtime := r, canonical := none, finality := [] }

/-- The invariant holds after every run. -/
lemma run_kept {first : Blockchain} {validators : List Validator} {schedule : EventSchedule}
    {validator : String} {r : ConsensusRuntime}
    (h : Started first validators schedule validator r)
    (events : List ((ℕ → Reading) × Event)) : Kept first ((fresh r).run events) := by
  have hstart : Kept first (fresh r) := by
    refine ⟨Runs.started h, fun _ => ?_⟩
    obtain ⟨_, _, _, _, _, _, _, _, rfl⟩ := h.eq
    exact ⟨.refl _, fun _ => rfl⟩
  unfold run
  generalize fresh r = node at hstart ⊢
  induction events generalizing node with
  | nil => exact hstart
  | cons e rest ih => exact ih (node.step e.1 e.2) (step_kept e.1 e.2 hstart)

/-! ## The restart -/

omit [Primitives] in
/-- Certificates of ascending heights, written in any order, are read in that order. -/
lemma sortByHeight_of_perm {lines l : List FinalityCertificate} (h : lines.Perm l)
    (hl : l.Pairwise fun a b => a.block.height < b.block.height) : sortByHeight lines = l := by
  have hsorted : l.Pairwise fun a b => a.block.height ≤ b.block.height :=
    hl.imp fun hlt => UInt64.le_of_lt hlt
  have hnodup : (l.map fun c => c.block.height).Nodup :=
    List.pairwise_map.mpr (hl.imp fun hlt => UInt64.ne_of_lt hlt)
  refine List.Perm.eq_of_pairwise (fun a b ha hb hab hba => ?_)
    (List.pairwise_insertionSort _ lines) hsorted ((List.perm_insertionSort _ lines).trans h)
  have ha' : a ∈ l := h.mem_iff.mp ((List.mem_insertionSort _).mp ha)
  exact List.inj_on_of_nodup_map hnodup ha' hb (UInt64.le_antisymm hab hba)

omit [Primitives] in
/-- Ascending heights leave no pair to compare. -/
lemma checkPairs_of_pairwise {l : List FinalityCertificate}
    (h : l.Pairwise fun a b => a.block.height < b.block.height) :
    FinalityStore.checkPairs l = .ok () := by
  induction l with
  | nil => rfl
  | cons c l ih =>
    cases l with
    | nil => rfl
    | cons c' l =>
      rw [List.pairwise_cons] at h
      have hlt := h.1 c' List.mem_cons_self
      simp only [FinalityStore.checkPairs, bind_eq_ok, ensure_eq_ok]
      exact ⟨(), fun hsame => absurd hsame.1 (UInt64.ne_of_lt hlt), ih h.2⟩

end Node

namespace ConsensusRuntime

namespace Finalizes
variable {validators : List Validator} {schedule : EventSchedule} {chain chain' : Blockchain}
  {l : List FinalityCertificate}

lemma pairwise (h : Finalizes validators schedule chain l chain') :
    l.Pairwise fun a b => a.block.height < b.block.height := by
  have hheights : (l.map fun c => c.block.height.toNat).Pairwise (· < ·) := by
    rw [h.heights]
    exact List.pairwise_lt_range' 1
  rw [List.pairwise_map] at hheights
  exact hheights.imp fun hlt => UInt64.lt_iff_toNat_lt.mpr hlt

lemma verify (h : Finalizes validators schedule chain l chain') :
    ∀ c ∈ l, c.verify validators = .ok () := by
  induction h with
  | nil => exact fun c hc => absurd hc List.not_mem_nil
  | cons hverify _ _ _ ih =>
    intro c hc
    rcases List.mem_cons.mp hc with rfl | hc
    · exact hverify
    · exact ih c hc

lemma chainId (h : Finalizes validators schedule chain l chain') :
    chain'.chainId = chain.chainId := by
  induction h with
  | nil => rfl
  | cons _ _ happly _ ih =>
    obtain ⟨_, _, _, _, _, rfl⟩ := Blockchain.applyBlock_eq_ok.mp happly
    exact ih

/-- The last certificate is for the tip. -/
lemma tip {c : FinalityCertificate} (h : Finalizes validators schedule chain (l ++ [c]) chain') :
    chain'.tipHeight = c.block.height ∧ chain'.tipHash = c.block.hash := by
  obtain ⟨mid, _, hlast⟩ := h.split
  cases hlast with
  | cons _ _ happly hnil =>
    obtain rfl := hnil.eq_of_nil
    obtain ⟨_, _, _, hlinks, _, rfl⟩ := Blockchain.applyBlock_eq_ok.mp happly
    refine ⟨(Blockchain.tipHeight_applyBlock happly).1, ?_⟩
    simp [Blockchain.tipHash]

/-- After a certificate, the tip carries its own digest. -/
lemma tipHashed {c : FinalityCertificate}
    (h : Finalizes validators schedule chain (l ++ [c]) chain') : chain'.TipHashed := by
  obtain ⟨mid, _, hlast⟩ := h.split
  cases hlast with
  | cons _ _ happly hnil =>
    obtain rfl := hnil.eq_of_nil
    exact Blockchain.tipHashed_applyBlock happly

end Finalizes

/-- On a chain of one block, the import skips certificates of other heights. -/
lemma importLoop_skip {r : ConsensusRuntime} {anchor : Block} (hblocks : r.chain.blocks = [anchor])
    {rest : List FinalityCertificate} :
    ∀ {l : List FinalityCertificate} {imported : ℕ},
      (∀ c ∈ l, c.verify r.validators = .ok () ∧ c.block.height ≠ anchor.height) →
      importLoop (l ++ rest) r imported = importLoop rest r imported := by
  intro l
  induction l with
  | nil => exact fun _ => rfl
  | cons c l ih =>
    intro imported hl
    obtain ⟨hverify, hheight⟩ := hl c List.mem_cons_self
    have hskip : r.importCertificate c = .ok (false, r) := by
      simp only [importCertificate, bind_eq_ok]
      refine ⟨(), hverify, ?_⟩
      rw [Blockchain.blockByHeight, hblocks, List.find?_singleton,
        if_neg (by simpa using Ne.symm hheight)]
      rfl
    rw [List.cons_append, importLoop, hskip]
    exact ih fun c' hc' => hl c' (List.mem_cons_of_mem _ hc')

/-- The certificate of the anchor is kept. -/
lemma importCertificate_anchor {r : ConsensusRuntime} {anchor : Block} {c : FinalityCertificate}
    (hblocks : r.chain.blocks = [anchor]) (hverify : c.verify r.validators = .ok ())
    (hheight : c.block.height = anchor.height) (hhash : c.block.hash = anchor.hash)
    (hnone : r.finalized = []) :
    r.importCertificate c = .ok (true, { r with finalized := [c] }) := by
  simp only [importCertificate, bind_eq_ok]
  refine ⟨(), hverify, ?_⟩
  have hfind : r.chain.blockByHeight c.block.height = some anchor := by
    rw [Blockchain.blockByHeight, hblocks, List.find?_singleton, if_pos (by simp [hheight])]
  simp only [hfind, bind_eq_ok, ensure_eq_ok]
  refine ⟨(), hhash.symm, ?_⟩
  rw [if_neg (by simp [hnone]), hnone]
  rfl

end ConsensusRuntime

namespace Node

open ConsensusRuntime

/-- The state of a chain whose tip carries its digest is restored to a chain of one block. -/
lemma restoreChain_fromChain {first c : Blockchain} (hc : c.TipHashed)
    (hid : c.chainId = first.chainId) :
    ∃ chain anchor, restoreChain first (some (.fromChain c)) = .ok chain ∧
      chain.blocks = [anchor] ∧ anchor.height = c.tipHeight ∧ anchor.hash = c.tipHash := by
  obtain ⟨htrim, hlength⟩ := hc.tipHash
  obtain ⟨anchor, hheight, hanchor, _, hsnapshot⟩ := Blockchain.fromSnapshotWithEvents_of_hex
    htrim hlength first.chainId first.genesisCommitment c.tipHeight c.balances c.nextNonces
    c.executedEvents
  set chain : Blockchain := ⟨first.chainId, first.genesisCommitment, [anchor], c.balances,
    c.balances, c.nextNonces, c.executedEvents⟩
  refine ⟨chain, anchor, ?_, rfl, hheight, hanchor⟩
  simp only [restoreChain, bind_eq_ok]
  refine ⟨some (.fromChain c), rfl, ?_⟩
  simp only [bind_eq_ok, ensure_eq_ok, pure_eq_ok]
  exact ⟨(), hid, chain, hsnapshot, (), rfl, rfl⟩

/-- The chain a restart rebuilds: the first one while nothing was finalised, then one block that
stands for the tip. -/
lemma restoreChain_eq_ok {first : Blockchain} {node : Node} (h : Kept first node)
    (hroom : Room first node) (hpending : node.runtime.pendingFinalized = []) :
    ∃ chain, restoreChain first node.canonical = .ok chain ∧
      chain.tipHeight = node.runtime.chain.tipHeight ∧
      (node.runtime.finalized = [] ∨
        ∃ anchor, chain.blocks = [anchor] ∧ anchor.height = node.runtime.chain.tipHeight ∧
          anchor.hash = node.runtime.chain.tipHash) := by
  have hway := h.runs.server.finalizes
  have hcanonical := (h.stored hroom).state hpending
  rcases List.eq_nil_or_concat' node.runtime.finalized with hnil | ⟨l, c, hlist⟩
  · rw [if_pos hnil] at hcanonical
    rw [hnil] at hway
    rw [hcanonical, ← hway.eq_of_nil]
    exact ⟨first, rfl, rfl, .inl hnil⟩
  · rw [if_neg (by rw [hlist]; simp)] at hcanonical
    rw [hlist] at hway
    obtain ⟨chain, anchor, hchain, hblocks, hheight, hhash⟩ :=
      restoreChain_fromChain hway.tipHashed hway.chainId
    rw [hcanonical]
    refine ⟨chain, hchain, ?_, .inr ⟨anchor, hblocks, hheight, hhash⟩⟩
    have hlast : chain.blocks.getLast? = some anchor := by rw [hblocks]; rfl
    rw [(Blockchain.tipHeight_of_getLast hlast).1, hheight]

/-- What was written is read again, in the order of heights. -/
lemma load_finality {first : Blockchain} {node : Node} (h : Kept first node)
    (hroom : Room first node) (hpending : node.runtime.pendingFinalized = []) :
    FinalityStore.load node.finality node.runtime.validators = .ok node.runtime.finalized := by
  have hway := h.runs.server.finalizes
  have hlines : node.finality.Perm node.runtime.finalized := by
    have hperm := (h.stored hroom).certificates
    rwa [hpending, List.append_nil] at hperm
  simp only [FinalityStore.load, bind_eq_ok, pure_eq_ok,
    sortByHeight_of_perm hlines hway.pairwise, and_true]
  exact ⟨(), forM_eq_ok.mpr fun c hc => hway.verify c (hlines.mem_iff.mp hc), (),
    checkPairs_of_pairwise hway.pairwise⟩

/-- The runtime of a restart, before it gets the certificates. -/
lemma restart_runtime {first chain : Blockchain} {node : Node} (h : Kept first node)
    (hroom : Room first node) (htip : chain.tipHeight = node.runtime.chain.tipHeight)
    (validator : String) (timeouts : ConsensusTimeouts) (instant : ℕ) :
    ∃ r r', withSigner chain node.runtime.validators validator timeouts instant = .ok r ∧
      r.setEventSchedule node.runtime.eventSchedule = .ok r' ∧ r'.chain = chain ∧
      r'.validators = node.runtime.validators ∧ r'.finalized = [] := by
  have hroom' : chain.tipHeight.toNat + 1 < 2 ^ 64 := by
    have hlength := h.runs.server.finalizes.tipHeight
    unfold Room at hroom
    rw [htip]
    omega
  obtain ⟨c, hnew⟩ := h.runs.accepted
  obtain ⟨r, hr⟩ := withSigner_isOk hroom' hnew validator timeouts instant
  obtain ⟨_, _, _, _, _, hrEq⟩ := withSigner_eq_ok hr
  obtain ⟨r', hset⟩ := setEventSchedule_isOk (r := r) node.runtime.scheduleValid
  obtain ⟨_, rfl⟩ := setEventSchedule_eq_ok hset
  refine ⟨r, _, hr, hset, ?_, ?_, ?_⟩ <;> rw [hrEq]

/-- **A restart succeeds and keeps the certificate of the tip only.** -/
theorem restart_finalized {first : Blockchain} {node : Node} (h : Kept first node)
    (hroom : Room first node) (hpending : node.runtime.pendingFinalized = []) (validator : String)
    (timeouts : ConsensusTimeouts) (instant : ℕ) :
    ∃ r, restart first node validator timeouts instant = .ok r ∧
      r.finalized = node.runtime.finalized.drop (node.runtime.finalized.length - 1) := by
  have hload := load_finality h hroom hpending
  obtain ⟨chain, hchain, htip, hanchor⟩ := restoreChain_eq_ok h hroom hpending
  obtain ⟨r, r', hsigner, hset, hrchain, hvalidators, hnone⟩ :=
    restart_runtime h hroom htip validator timeouts instant
  -- of the certificates that are read back only the anchor's own is taken in again
  have himport : ∃ imported, r'.importCertificateHistory node.runtime.finalized
      = (.ok imported, { r' with
          finalized := node.runtime.finalized.drop (node.runtime.finalized.length - 1) }) := by
    unfold importCertificateHistory
    rcases List.eq_nil_or_concat' node.runtime.finalized with hnil | ⟨l, c, hlist⟩
    · rw [hnil, importLoop]
      simp only [hnone]
      exact ⟨0, rfl⟩
    · rcases hanchor with hnil | ⟨anchor, hblocks, hheight, hhash⟩
      · simp [hlist] at hnil
      have hway := h.runs.server.finalizes
      rw [hlist] at hway
      obtain ⟨htipHeight, htipHash⟩ := hway.tip
      -- the others are valid, but of blocks below the anchor
      have hbelow : ∀ c' ∈ l, c'.verify r'.validators = .ok () ∧
          c'.block.height ≠ anchor.height := by
        intro c' hc'
        rw [hvalidators, hheight, htipHeight]
        refine ⟨hway.verify c' (List.mem_append_left _ hc'), ?_⟩
        have hpairwise := (List.pairwise_append.mp hway.pairwise).2.2
        exact UInt64.ne_of_lt (hpairwise c' hc' c (List.mem_singleton_self c))
      have honly : r'.chain.blocks = [anchor] := by rw [hrchain, hblocks]
      have hverify : c.verify r'.validators = .ok () := by
        rw [hvalidators]
        exact hway.verify c (List.mem_append_right _ (List.mem_singleton_self c))
      have hlast := importCertificate_anchor honly hverify (by rw [hheight, htipHeight])
        (by rw [hhash, htipHash]) hnone
      rw [hlist, importLoop_skip honly hbelow, importLoop, hlast]
      refine ⟨1, ?_⟩
      simp [importLoop, sortByHeight]
  obtain ⟨imported, himport⟩ := himport
  refine ⟨{ r' with
    finalized := node.runtime.finalized.drop (node.runtime.finalized.length - 1) }, ?_, rfl⟩
  simp only [restart, bind_eq_ok]
  refine ⟨chain, hchain, r, hsigner, r', hset, _, hload, ?_⟩
  rw [himport]
  exact ⟨imported, rfl, rfl⟩

/-- Asked for everything, a node answers with its first certificate in front. -/
lemma head_certificatesFrom_zero (size : FinalityCertificate → ℕ) {r : ConsensusRuntime}
    {c : FinalityCertificate} {l : List FinalityCertificate} (h : r.finalized = c :: l) :
    (certificatesFrom size r 0).head? = some c := by
  have hall : r.finalized.filter (fun c => (0 : UInt64) ≤ c.block.height) = r.finalized :=
    List.filter_eq_self.mpr fun c _ => by simp
  unfold certificatesFrom
  rw [hall, h]
  obtain ⟨n, hn, hpos⟩ := selectWithin_eq size ((c :: l).take maxSyncCertificates) 0 []
  have hn' := hpos rfl (by simp [maxSyncCertificates])
  rw [hn, List.nil_append, List.take_take, List.head?_take, if_neg (by unfold maxSyncCertificates; omega)]
  rfl

/-- A node that is sent the certificates of the blocks above its tip applies and persists them. -/
lemma syncReceived_finalizes {validators : List Validator} {schedule : EventSchedule}
    {chain : Blockchain} {env : ℕ → Reading} (hroom : chain.tipHeight.toNat + 1 < 2 ^ 64) :
    ∀ {l : List FinalityCertificate} (node : Node) (readings : ℕ),
      Ready validators schedule node.runtime →
      Finalizes validators schedule node.runtime.chain l chain →
      (∀ c ∈ l, ∀ i, ClockAllows (env i).now c.block) →
      (syncReceived env l readings node).runtime.chain = chain ∧
        (syncReceived env l readings node).runtime.finalized = node.runtime.finalized ++ l ∧
        (syncReceived env l readings node).runtime.pendingFinalized
          = node.runtime.pendingFinalized := by
  intro l
  induction l with
  | nil =>
    intro node readings _ h _
    exact ⟨h.eq_of_nil, (List.append_nil _).symm, rfl⟩
  | cons c l ih =>
    intro node readings hready h hclock
    obtain ⟨mid, hone, hrest⟩ := Finalizes.split (l := [c]) h
    have hbelow := hrest.tipHeight
    obtain ⟨r, happlied, hchain, hfinalized, hpending, hready'⟩ := applySyncCertificates_finalizes
      (fun i => env (readings + i)) hready hone (by omega)
      fun c' hc' i => hclock c' (List.mem_cons.mpr (.inl (List.mem_singleton.mp hc'))) _
    rw [syncReceived, happlied]
    simp only [List.length_singleton, if_true]
    rw [← hchain] at hrest
    have hall := ih (install { node with runtime := r } c) (readings + 2) hready' hrest
      fun c' hc' => hclock c' (List.mem_cons_of_mem _ hc')
    refine ⟨hall.1, ?_, hall.2.2.trans hpending⟩
    rw [hall.2.1]
    show r.finalized ++ l = _
    rw [hfinalized, List.append_assoc, List.singleton_append]

/-- **When finality proofs survive a restart.** A node that started at the genesis block, after
any run, with every certificate persisted: the restart succeeds, and the restarted node answers
every request for certificates as before exactly when at most one block was finalised. The chain
fits into memory. -/
theorem certificates_survive_restart (first : Blockchain)
    (hfirst : first.blocks = [Block.genesis]) (validators : List Validator)
    (schedule : EventSchedule) (validator : String) (r : ConsensusRuntime)
    (hr : Started first validators schedule validator r) (events : List ((ℕ → Reading) × Event))
    (hpersisted : ((fresh r).run events).runtime.pendingFinalized = [])
    (hmemory : ((fresh r).run events).runtime.chain.blocks.length < 2 ^ 63)
    (timeouts : ConsensusTimeouts) (instant : ℕ) (size : FinalityCertificate → ℕ) :
    let node := (fresh r).run events
    ∃ r', restart first node validator timeouts instant = .ok r' ∧
      ((∀ k, certificatesFrom size r' k = certificatesFrom size node.runtime k) ↔
        node.runtime.chain.tipHeight.toNat ≤ 1) := by
  intro node
  have hkept : Kept first node := run_kept hr events
  have hway := hkept.runs.server.finalizes
  have hzero : first.tipHeight.toNat = 0 := by
    rw [Blockchain.tipHeight, hfirst]
    rfl
  have htip : node.runtime.chain.tipHeight.toNat = node.runtime.finalized.length := by
    rw [hway.tipHeight, hzero, Nat.zero_add]
  have hroom : Room first node := by
    have hblocks := hway.blocks_length
    rw [hfirst, List.length_singleton] at hblocks
    change node.runtime.chain.blocks.length < 2 ^ 63 at hmemory
    unfold Room
    omega
  obtain ⟨r', hrestart, hfinalized⟩ :=
    restart_finalized hkept hroom hpersisted validator timeouts instant
  refine ⟨r', hrestart, fun hsame => ?_, fun hle k => ?_⟩
  · -- with two certificates or more, the first answer starts with another certificate
    by_contra hgt
    obtain ⟨c, rest, hlist⟩ : ∃ c rest, node.runtime.finalized = c :: rest :=
      List.exists_cons_of_length_pos (by omega)
    rcases List.eq_nil_or_concat' rest with hnil | ⟨l, d, hrest⟩
    · rw [htip, hlist, hnil, List.length_singleton] at hgt
      exact hgt (le_refl 1)
    have hlast : r'.finalized = d :: [] := by
      rw [hfinalized, hlist, hrest]
      simp
    have hbefore := head_certificatesFrom_zero size hlist
    have hafter := head_certificatesFrom_zero size hlast
    rw [hsame 0, hbefore] at hafter
    have hlt : c.block.height < d.block.height := by
      have hpairwise := hway.pairwise
      rw [hlist, hrest, List.pairwise_cons] at hpairwise
      exact hpairwise.1 d (List.mem_append_right _ (List.mem_singleton_self d))
    rw [Option.some.inj hafter] at hlt
    exact UInt64.lt_irrefl _ hlt
  · -- with one certificate at most none is dropped
    have hkeep : r'.finalized = node.runtime.finalized := by
      rw [hfinalized, show node.runtime.finalized.length - 1 = 0 by omega, List.drop_zero]
    unfold certificatesFrom
    rw [hkeep]

end Node

end

namespace Node

open ConsensusRuntime

section
attribute [local instance] Devnet.primitives

/-- Another node sends certificates. -/
def devnetReceives (l : List FinalityCertificate) : List ((ℕ → Reading) × Event) :=
  [(fun _ => Devnet.reading "", .op (.applySyncCertificates l))]

lemma run_devnetReceives {l : List FinalityCertificate} {chain : Blockchain}
    (h : Finalizes [Devnet.self] EventSchedule.empty Devnet.chain l chain)
    (hroom : chain.tipHeight.toNat + 1 < 2 ^ 64) (hclock : ∀ c ∈ l, c.block.timestamp ≤ 1000) :
    ((fresh Devnet.node).run (devnetReceives l)).runtime.chain = chain ∧
      ((fresh Devnet.node).run (devnetReceives l)).runtime.finalized = l ∧
      ((fresh Devnet.node).run (devnetReceives l)).runtime.pendingFinalized = [] := by
  rw [run, devnetReceives, List.foldl_cons, List.foldl_nil, step]
  exact syncReceived_finalizes hroom (fresh Devnet.node) 0 ⟨rfl, rfl, by decide, by decide⟩ h
    fun c hc i => clockAllows_of_le (hclock c hc)

/-- The certificate of a single block survives. -/
theorem certificates_survive_restart_first :
    ∃ r', restart Devnet.chain ((fresh Devnet.node).run (devnetReceives [Devnet.firstCertificate]))
        Devnet.validator ⟨3000, 2000, 2000⟩ 0 = .ok r' ∧
      ∀ k, certificatesFrom (fun _ => 1000) r' k = certificatesFrom (fun _ => 1000)
        ((fresh Devnet.node).run (devnetReceives [Devnet.firstCertificate])).runtime k := by
  obtain ⟨hchain, _, hpending⟩ := run_devnetReceives finalizes_first (by decide)
    fun c hc => devnet_clock c (List.mem_cons.mpr (.inl (List.mem_singleton.mp hc)))
  obtain ⟨r', hrestart, hsame⟩ := certificates_survive_restart Devnet.chain rfl [Devnet.self]
    EventSchedule.empty Devnet.validator Devnet.node Devnet.node_started
    (devnetReceives [Devnet.firstCertificate]) hpending (by rw [hchain]; decide)
    ⟨3000, 2000, 2000⟩ 0 fun _ => 1000
  exact ⟨r', hrestart, hsame.mpr (by rw [hchain]; decide)⟩

/-- Of two certificates, the first is lost. -/
theorem certificate_lost_at_restart :
    ((fresh Devnet.node).run (devnetReceives
        [Devnet.firstCertificate, Devnet.secondCertificate])).runtime.pendingFinalized = [] ∧
      ∃ r', restart Devnet.chain ((fresh Devnet.node).run (devnetReceives
          [Devnet.firstCertificate, Devnet.secondCertificate]))
          Devnet.validator ⟨3000, 2000, 2000⟩ 0 = .ok r' ∧
        certificatesFrom (fun _ => 1000) r' 0 ≠ certificatesFrom (fun _ => 1000)
          ((fresh Devnet.node).run (devnetReceives
            [Devnet.firstCertificate, Devnet.secondCertificate])).runtime 0 := by
  obtain ⟨hchain, hfinalized, hpending⟩ := run_devnetReceives
    (finalizes_first.append finalizes_second) (by decide) devnet_clock
  rw [List.singleton_append] at hchain hfinalized hpending
  have hroom : Room Devnet.chain ((fresh Devnet.node).run (devnetReceives
      [Devnet.firstCertificate, Devnet.secondCertificate])) := by
    rw [Room, hfinalized]
    decide
  obtain ⟨r', hrestart, hlast⟩ := restart_finalized (run_kept Devnet.node_started _) hroom
    hpending Devnet.validator ⟨3000, 2000, 2000⟩ 0
  refine ⟨hpending, r', hrestart, fun hsame => ?_⟩
  rw [hfinalized] at hlast
  have hafter := head_certificatesFrom_zero (fun _ => 1000) (l := []) hlast
  rw [hsame, head_certificatesFrom_zero _ hfinalized] at hafter
  have hheight := congrArg (fun c => c.block.height) (Option.some.inj hafter)
  exact absurd hheight (by decide)

end

end Node

end IeumChain
