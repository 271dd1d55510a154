import IeumChain.Devnet

/-!
# Locks

A quorum of prevotes sets the locked value together with the valid one, and a later height clears
both, so the two are always equal. The branch of `handle_proposal` that may leave the lock asks
for a proposal of the valid value, which is then the locked one: within a height the lock never
moves to another block, whatever `valid_round` a proposal claims.

* `Paired`: the invariant of one machine;
* `call_keepsLock`: what one call can do to the height and the lock;
* `lock_permanent`: what a whole run can do.
-/

namespace IeumChain

open Lib

namespace BftConsensus

section
variable [Primitives]

/-- The calls that change a state machine. -/
inductive Call where
  | startRound (height : UInt64) (round : UInt32)
  | handleProposal (p : SignedProposal)
  | handle (m : ConsensusMessage)
  | onTimeout

/-- The machine after a call. Only `handle` may change it before it fails. -/
def call (c : BftConsensus) : Call → BftConsensus
  | .startRound height round => getOk (c.startRound height round) c
  | .handleProposal p => getOk (c.handleProposal p) c
  | .handle m => (c.handle m).2
  | .onTimeout => getOk c.onTimeout c

/-- The machine after a sequence of calls. -/
def runCalls (c : BftConsensus) (calls : List Call) : BftConsensus := calls.foldl call c

/-! ## The invariant -/

omit [Primitives] in
/-- The lock and the valid value are one, the proposal under a lock is the locked block, and what
is finalised was proposed. -/
structure Paired (c : BftConsensus) : Prop where
  value : c.lockedValue = c.validValue
  round : c.lockedRound = c.validRound
  proposal : ∀ v w, c.lockedValue = some v → c.proposal = some w → w = v
  finalized : ∀ w, c.finalized = some w → c.phase = .finalized ∧ c.proposal = some w

omit [Primitives] in
/-- Without a proposal and a finalised block there is nothing more to show. -/
lemma Paired.of_none {c : BftConsensus} (hvalue : c.lockedValue = c.validValue)
    (hround : c.lockedRound = c.validRound) (hproposal : c.proposal = none)
    (hfinalized : c.finalized = none) : Paired c := by
  refine ⟨hvalue, hround, fun v w _ hw => ?_, fun w hw => ?_⟩
  · rw [hproposal] at hw
    cases hw
  · rw [hfinalized] at hw
    cases hw

omit [Primitives] in
lemma Paired.startRound {c c' : BftConsensus} {height : UInt64} {round : UInt32} (h : Paired c)
    (hc' : c.startRound height round = .ok c') : Paired c' := by
  rcases startRound_eq_ok hc' with ⟨_, rfl⟩ | ⟨_, _, rfl⟩
  · exact .of_none rfl rfl rfl rfl
  · exact .of_none h.value h.round rfl rfl

/-- Under a lock only the locked block is taken: the valid value that would open the lock is the
locked one. -/
lemma Paired.handleProposal_hash {c c' : BftConsensus} {p : SignedProposal} {v : String}
    (h : Paired c) (hc' : c.handleProposal p = .ok c') (hlocked : c.lockedValue = some v) :
    p.block.hash = v := by
  obtain ⟨_, _, _, hallows, _⟩ := handleProposal_eq_ok hc'
  rcases hallows with hnone | hsame | hvalid
  · rw [hlocked] at hnone
    cases hnone
  · rw [hlocked] at hsame
    exact (Option.some.inj hsame).symm
  · rw [← h.value, hlocked] at hvalid
    exact (Option.some.inj hvalid).symm

lemma Paired.handleProposal {c c' : BftConsensus} {p : SignedProposal} (h : Paired c)
    (hc' : c.handleProposal p = .ok c') : Paired c' := by
  have hhash : ∀ v, c.lockedValue = some v → p.block.hash = v :=
    fun v => h.handleProposal_hash hc'
  obtain ⟨_, _, _, _, hphase, rfl⟩ := handleProposal_eq_ok hc'
  refine ⟨h.value, h.round, fun v w hlocked hproposal => ?_, fun w hfinal => ?_⟩
  · rw [← hhash v hlocked]
    exact (Option.some.inj hproposal).symm
  · -- nothing is finalised while proposals are taken
    obtain ⟨hphase', _⟩ := h.finalized w hfinal
    rw [hphase] at hphase'
    cases hphase'

/-- An accepted vote is for the proposal, so that a lock and a finalised block are for it too. -/
lemma Paired.handle {c : BftConsensus} (h : Paired c) (m : ConsensusMessage) :
    Paired (c.handle m).2 := by
  rcases hhandle : c.handle m with ⟨e | ⟨⟩, c'⟩
  · obtain ⟨s, rfl⟩ := handle_error hhandle
    exact ⟨h.value, h.round, h.proposal, h.finalized⟩
  · obtain ⟨_, hproposal, s, haccepts⟩ := handle_ok hhandle
    cases haccepts with
    | counted => exact ⟨h.value, h.round, h.proposal, h.finalized⟩
    | locked htype hphase hquorum =>
      refine ⟨rfl, rfl, fun v w hlocked hw => ?_, fun w hfinal => ?_⟩
      · have hsame : some w = some v := hw.symm.trans (hproposal.trans hlocked)
        exact Option.some.inj hsame
      · obtain ⟨hfinalized, _⟩ := h.finalized w hfinal
        exact absurd (hphase.symm.trans hfinalized) (by decide)
    | finalized htype hphase =>
      exact ⟨h.value, h.round, h.proposal, fun w hfinal => ⟨rfl, hproposal.trans hfinal⟩⟩

/-! ## One call -/

lemma Paired.call {c : BftConsensus} (h : Paired c) (x : Call) : Paired (c.call x) := by
  cases x with
  | startRound height round =>
    simp only [BftConsensus.call]
    cases hc' : c.startRound height round with
    | error e => exact h
    | ok c' => exact h.startRound hc'
  | handleProposal p =>
    simp only [BftConsensus.call]
    cases hc' : c.handleProposal p with
    | error e => exact h
    | ok c' => exact h.handleProposal hc'
  | handle m => exact h.handle m
  | onTimeout =>
    simp only [BftConsensus.call]
    cases hc' : c.onTimeout with
    | error e => exact h
    | ok c' =>
      obtain ⟨round, _, hstart⟩ := onTimeout_eq_ok hc'
      exact h.startRound hstart

/-- The machine is at a later height, or at the same one with the lock it had. -/
def KeepsLock (c c' : BftConsensus) : Prop :=
  c.height < c'.height ∨
    c'.height = c.height ∧ ∀ v, c.lockedValue = some v → c'.lockedValue = some v

omit [Primitives] in
lemma KeepsLock.refl (c : BftConsensus) : KeepsLock c c := .inr ⟨rfl, fun _ h => h⟩

omit [Primitives] in
lemma KeepsLock.trans {c c' c'' : BftConsensus} (h : KeepsLock c c') (h' : KeepsLock c' c'') :
    KeepsLock c c'' := by
  rcases h with hlt | ⟨heq, hlock⟩
  · rcases h' with hlt' | ⟨heq', _⟩
    · exact .inl (UInt64.lt_trans hlt hlt')
    · exact .inl (heq' ▸ hlt)
  · rcases h' with hlt' | ⟨heq', hlock'⟩
    · exact .inl (heq ▸ hlt')
    · exact .inr ⟨heq'.trans heq, fun v hv => hlock' v (hlock v hv)⟩

omit [Primitives] in
lemma startRound_keepsLock {c c' : BftConsensus} {height : UInt64} {round : UInt32}
    (h : c.startRound height round = .ok c') : KeepsLock c c' := by
  rcases startRound_eq_ok h with ⟨hlt, rfl⟩ | ⟨_, _, rfl⟩
  · exact .inl hlt
  · exact .inr ⟨rfl, fun _ hv => hv⟩

/-- No call goes back in height, and at one height the lock stays. -/
lemma Paired.call_keepsLock {c : BftConsensus} (h : Paired c) (x : Call) :
    KeepsLock c (c.call x) := by
  cases x with
  | startRound height round =>
    simp only [BftConsensus.call]
    cases hc' : c.startRound height round with
    | error e => exact .refl c
    | ok c' => exact startRound_keepsLock hc'
  | handleProposal p =>
    simp only [BftConsensus.call]
    cases hc' : c.handleProposal p with
    | error e => exact .refl c
    | ok c' =>
      obtain ⟨_, _, _, _, _, rfl⟩ := handleProposal_eq_ok hc'
      exact .inr ⟨rfl, fun _ hv => hv⟩
  | handle m =>
    simp only [BftConsensus.call]
    rcases hhandle : c.handle m with ⟨e | ⟨⟩, c'⟩
    · obtain ⟨s, rfl⟩ := handle_error hhandle
      exact .inr ⟨rfl, fun _ hv => hv⟩
    · obtain ⟨_, hproposal, s, haccepts⟩ := handle_ok hhandle
      cases haccepts with
      | counted => exact .inr ⟨rfl, fun _ hv => hv⟩
      | locked htype hphase hquorum =>
        -- a new lock is on the proposal, which an old lock fixes
        refine .inr ⟨rfl, fun v hv => ?_⟩
        exact congrArg some (h.proposal v m.blockHash hv hproposal)
      | finalized htype hphase => exact .inr ⟨rfl, fun _ hv => hv⟩
  | onTimeout =>
    simp only [BftConsensus.call]
    cases hc' : c.onTimeout with
    | error e => exact .refl c
    | ok c' =>
      obtain ⟨round, _, hstart⟩ := onTimeout_eq_ok hc'
      exact startRound_keepsLock hstart

omit [Primitives] in
/-- A timeout stays at its height. -/
lemma onTimeout_height {c c' : BftConsensus} (h : c.onTimeout = .ok c') :
    c'.height = c.height := by
  obtain ⟨round, _, hstart⟩ := onTimeout_eq_ok h
  rcases startRound_eq_ok hstart with ⟨hlt, _⟩ | ⟨_, _, rfl⟩
  · exact absurd hlt (UInt64.lt_irrefl _)
  · rfl

/-! ## Runs -/

lemma Paired.runCalls {c : BftConsensus} (h : Paired c) (calls : List Call) :
    Paired (c.runCalls calls) ∧ KeepsLock c (c.runCalls calls) := by
  unfold BftConsensus.runCalls
  induction calls generalizing c with
  | nil => exact ⟨h, .refl c⟩
  | cons x rest ih =>
    obtain ⟨hpaired, hkeeps⟩ := ih (h.call x)
    exact ⟨hpaired, (h.call_keepsLock x).trans hkeeps⟩

/-- **Locks are permanent within a height.** In every run of a new machine the lock is the valid
value. Once locked on a block, and as long as the height is the same, the machine stays locked on
it, takes no proposal of another block and finalises no other. -/
theorem lock_permanent (validators : List Validator) (c₀ : BftConsensus)
    (hnew : new validators = .ok c₀) (calls later : List Call) :
    let c := c₀.runCalls calls
    let c' := c.runCalls later
    (c.lockedValue = c.validValue ∧ c.lockedRound = c.validRound) ∧
      ∀ v, c.lockedValue = some v → c'.height = c.height →
        c'.lockedValue = some v ∧
        (∀ p c'', c'.handleProposal p = .ok c'' → p.block.hash = v) ∧
        ∀ w, c'.finalized = some w → w = v := by
  intro c c'
  have hstart : Paired c₀ := by
    obtain ⟨map, _, _, rfl⟩ := new_eq_ok hnew
    exact .of_none rfl rfl rfl rfl
  have hc : Paired c := (hstart.runCalls calls).1
  obtain ⟨hc', hkeeps⟩ : Paired c' ∧ KeepsLock c c' := hc.runCalls later
  refine ⟨⟨hc.value, hc.round⟩, fun v hv hheight => ?_⟩
  rcases hkeeps with hlt | ⟨_, hlock⟩
  · rw [hheight] at hlt
    exact absurd hlt (UInt64.lt_irrefl _)
  · have hlocked := hlock v hv
    refine ⟨hlocked, fun p c'' hp => hc'.handleProposal_hash hp hlocked, fun w hw => ?_⟩
    exact hc'.proposal v w hlocked (hc'.finalized w hw).2

/-- A lone validator's prevote for the proposal locks it. -/
lemma Solo.handle_locks {v : Validator} {c : BftConsensus} (h : Solo v c) {m : ConsensusMessage}
    (hcheck : c.checkVote m = .ok ()) (hnew : c.voteHistory.lookup (historyKey m) = none)
    (hproposal : c.proposal = some m.blockHash) (hphase : c.phase = .prevote)
    (htype : m.voteType = .prevote) : (c.handle m).2.lockedValue = some m.blockHash := by
  have hopen : c.phase ≠ .finalized := by
    rw [hphase]
    decide
  rw [h.handle hcheck hnew hproposal hopen]
  simp only [onQuorum, htype]
  rw [if_pos (show ((recorded c m).addVoter m).phase = .prevote from hphase)]

end

section
attribute [local instance] Devnet.primitives

/-- The calls with which the validator locks the first block. -/
def devnetLock : List Call :=
  [.startRound 1 0, .handleProposal Devnet.firstProposal, .handle Devnet.firstPrevote]

lemma devnetLock_run : ∃ c₀, new [Devnet.self] = .ok c₀ ∧
    (c₀.runCalls devnetLock).lockedValue = some Devnet.first.hash := by
  have hsigner := Devnet.node_withSigner
  simp only [ConsensusRuntime.withSigner, bind_eq_ok, pure_eq_ok] at hsigner
  obtain ⟨height, hheight, c₀, hnew, c, hstart, hnode⟩ := hsigner
  obtain rfl : 1 = height := Except.ok.inj hheight
  obtain ⟨map, total, rfl, hruns⟩ := new_startRound hnew hstart (by decide)
  have hverify := Devnet.verify_proposal (p := Devnet.firstProposal) (by simp [Devnet.proposals])
    Devnet.first_hash
  have hproposal := Devnet.node_fresh.handleProposal
    (Devnet.node_started.place hverify (Devnet.node_fits (by decide))) rfl rfl hverify
  rw [show Devnet.node.consensus = opened map total 1 by rw [← hnode]] at hproposal
  have hprevote := Devnet.isVote (m := Devnet.firstPrevote) (by simp [Devnet.votes])
  set c := { opened map total 1 with
    proposal := some Devnet.firstProposal.block.hash, phase := .prevote } with hc
  have hsolo : Solo Devnet.self c :=
    ⟨⟨hruns.registered, hruns.total⟩, by decide, by decide⟩
  have hcheck : c.checkVote Devnet.firstPrevote = .ok () :=
    checkVote_eq_ok.mpr ⟨⟨rfl, rfl⟩, (hsolo.mem_iff _).mpr rfl, hprevote.verify, rfl⟩
  refine ⟨c₀, hnew, ?_⟩
  rw [runCalls, devnetLock, List.foldl_cons, List.foldl_cons, List.foldl_cons, List.foldl_nil,
    call, call, call, hstart, getOk_ok, hproposal, getOk_ok]
  exact hsolo.handle_locks hcheck (Finmap.lookup_empty _) rfl rfl rfl

/-- The validator keeps its lock after a timeout. -/
theorem lock_permanent_first : ∃ c₀, new [Devnet.self] = .ok c₀ ∧
    ((c₀.runCalls devnetLock).runCalls [.onTimeout]).lockedValue = some Devnet.first.hash := by
  obtain ⟨c₀, hnew, hlocked⟩ := devnetLock_run
  have hlater := (lock_permanent [Devnet.self] c₀ hnew devnetLock [.onTimeout]).2 _ hlocked
  have hsame : ((c₀.runCalls devnetLock).runCalls [.onTimeout]).height
      = (c₀.runCalls devnetLock).height := by
    rw [runCalls, List.foldl_cons, List.foldl_nil, call]
    cases htimeout : (c₀.runCalls devnetLock).onTimeout with
    | error e => rfl
    | ok c' => exact onTimeout_height htimeout
  exact ⟨c₀, hnew, (hlater hsame).1⟩

end

end BftConsensus

end IeumChain
