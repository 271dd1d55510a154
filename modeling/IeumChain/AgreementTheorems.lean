import IeumChain.Quartet
import IeumChain.VotingTheorems

/-!
# Agreement

Nodes with one validator list exchange messages over a network that loses, delays, repeats,
reorders and invents them. Two finality certificates for one height are for one block as long as
less than a third of the voting power is faulty:

* `PolkaInv` keeps, next to `VoteInv`, the quorum of prevotes each precommit rests on;
* `Network` is the state of all nodes and the votes each returned, `Network.run` any sequence of
  operations of any of them;
* `agreement` instantiates the voting pattern of `Lib.LockedVoting` with the votes returned in a
  run.
-/

namespace IeumChain

open Lib

section
variable [Primitives]

/-- A quorum of validators of whom signed prevotes for a block are known. -/
def Polka (known : ConsensusMessage → Prop) (validators : List Validator) (height : UInt64)
    (round : UInt32) (blockHash : String) : Prop :=
  ∃ q, IsQuorum (powerIn validators) (idsOf validators) q ∧
    ∀ id ∈ q, ∃ m, known m ∧ IsVote id height round .prevote blockHash m

/-- The prevotes behind the phase of a machine. -/
structure PolkaState (known : ConsensusMessage → Prop) (validators : List Validator)
    (c : BftConsensus) : Prop where
  runs : BftConsensus.RunsFor validators c
  voters : ∀ v, ∀ id ∈ c.voters (.prevote, v), id ∈ idsOf validators ∧
    ∃ m, known m ∧ IsVote id c.height c.round .prevote v m
  quorum : c.phase = .precommit ∨ c.phase = .finalized →
    ∀ v, c.proposal = some v → c.hasQuorum (.prevote, v) = true

namespace PolkaState
variable {known : ConsensusMessage → Prop} {validators : List Validator} {c : BftConsensus}

/-- A counted vote is one of the prevotes known, or none at all. -/
lemma voters_addVoter (h : PolkaState known validators c) {m : ConsensusMessage}
    (hcheck : c.checkVote m = .ok ()) (hknown : m.voteType = .prevote → known m) :
    ∀ v, ∀ id ∈ (c.addVoter m).voters (.prevote, v), id ∈ idsOf validators ∧
      ∃ m', known m' ∧ IsVote id c.height c.round .prevote v m' := by
  intro v id hid
  rw [BftConsensus.voters_addVoter] at hid
  split at hid
  · rename_i hkey
    obtain ⟨htype, rfl⟩ := Prod.mk.inj hkey
    obtain ⟨⟨hheight, hround⟩, hmem, hverify, _⟩ := BftConsensus.checkVote_eq_ok.mp hcheck
    rcases Finset.mem_insert.mp hid with rfl | hid
    · exact ⟨(h.runs.registered.mem _).mp hmem, m, hknown htype.symm,
        ⟨rfl, hheight, hround, htype.symm, rfl, hverify⟩⟩
    · exact h.voters _ id hid
  · exact h.voters v id hid

/-- The records of votes do not matter. -/
lemma withRecords (h : PolkaState known validators c) (s : BftConsensus.Records) :
    PolkaState known validators (c.withRecords s) :=
  ⟨⟨h.runs.registered, h.runs.total⟩, h.voters, h.quorum⟩

/-- An accepted vote keeps the prevotes behind the phase. -/
lemma vote (h : PolkaState known validators c) {m : ConsensusMessage} {c' : BftConsensus}
    (hknown : m.voteType = .prevote → known m) (hhandle : c.handle m = (.ok (), c')) :
    PolkaState known validators c' := by
  obtain ⟨hcheck, hproposal, s, haccepts⟩ := BftConsensus.handle_ok hhandle
  obtain ⟨_, _, _, htakes⟩ := BftConsensus.checkVote_eq_ok.mp hcheck
  have hvoters := (h.withRecords s).voters_addVoter hcheck hknown
  cases haccepts with
  | counted =>
    refine ⟨⟨h.runs.registered, h.runs.total⟩, hvoters, fun hphase v hv => ?_⟩
    exact BftConsensus.hasQuorum_addVoter ((h.withRecords s).quorum hphase v hv)
  | locked htype hphase hquorum =>
    refine ⟨⟨h.runs.registered, h.runs.total⟩, hvoters, fun _ v hv => ?_⟩
    obtain rfl : v = m.blockHash := Option.some.inj (hv.symm.trans hproposal)
    exact hquorum
  | finalized htype hphase =>
    refine ⟨⟨h.runs.registered, h.runs.total⟩, hvoters, fun _ v hv => ?_⟩
    have hbefore : c.phase = .precommit ∨ c.phase = .finalized := by
      rw [htype] at htakes
      cases hp : c.phase <;> simp_all [BftConsensus.takesVote]
    have hquorum : ((c.withRecords s).addVoter m).hasQuorum (.prevote, v) = true :=
      BftConsensus.hasQuorum_addVoter ((h.withRecords s).quorum hbefore v hv)
    exact hquorum

/-- A round starts without votes. -/
lemma startRound (h : PolkaState known validators c) {height : UInt64} {round : UInt32}
    {c' : BftConsensus} (hstart : c.startRound height round = .ok c') :
    PolkaState known validators c' := by
  have hempty : ∀ key, BftConsensus.voters { c with votes := ∅ } key = ∅ := fun key => by
    simp [BftConsensus.voters]
  rcases BftConsensus.startRound_eq_ok hstart with ⟨_, rfl⟩ | ⟨_, _, rfl⟩
  all_goals
    refine ⟨⟨h.runs.registered, h.runs.total⟩, fun v id hid => ?_, fun hphase => by simp at hphase⟩
    exact absurd hid ((hempty (.prevote, v)).symm ▸ Finset.notMem_empty id)

/-- The quorum behind a decided phase. -/
lemma polka (h : PolkaState known validators c) (hT : sumPower validators < 2 ^ 63)
    (hphase : c.phase = .precommit) {v : String} (hproposal : c.proposal = some v) :
    Polka known validators c.height c.round v := by
  have hvoters : c.voters (.prevote, v) ⊆ idsOf validators := fun id hid => (h.voters v id hid).1
  refine ⟨c.voters (.prevote, v), ?_, fun id hid => (h.voters v id hid).2⟩
  exact BftConsensus.isQuorum_of_hasQuorum h.runs hT hvoters (h.quorum (.inl hphase) v hproposal)

end PolkaState

/-! ## One node -/

namespace ConsensusRuntime

/-- The invariant of a node that was never reset: its votes are consistent, and each precommit
rests on a quorum of prevotes. -/
structure NodeInv (known : ConsensusMessage → Prop) (validators : List Validator)
    (r : ConsensusRuntime) (sent : List ConsensusMessage) : Prop where
  votes : VoteInv r.voteState sent
  state : PolkaState known validators r.consensus
  polka : ∀ m ∈ sent, m.voteType = .precommit →
    Polka known validators m.height m.round m.blockHash

section
variable {known : ConsensusMessage → Prop} {validators : List Validator}
  {r r' : ConsensusRuntime} {sent signed : List ConsensusMessage}

lemma NodeInv.subset {sent' : List ConsensusMessage} (h : NodeInv known validators r sent)
    (hsub : sent' ⊆ sent) : NodeInv known validators r sent' :=
  ⟨h.votes.subset hsub, h.state, fun m hm => h.polka m (hsub hm)⟩

/-- Every move keeps the prevotes behind the phase. -/
lemma polkaState_move (h : PolkaState known validators r.consensus)
    (hmove : Move known r signed r') : PolkaState known validators r'.consensus := by
  cases hmove with
  | timer | queue | handOver | sync | drop | commit | prevote | precommit => exact h
  | records s => exact h.withRecords s
  | proposal now p consensus hfits hc =>
    obtain ⟨_, _, _, _, hphase, rfl⟩ := BftConsensus.handleProposal_eq_ok hc
    exact ⟨⟨h.runs.registered, h.runs.total⟩, h.voters, fun hp => by simp at hp⟩
  | vote env m consensus hknown hhandle =>
    obtain ⟨_, _, _, heq⟩ := afterVote_eq r env m consensus
    rw [heq]
    exact h.vote hknown hhandle
  | timeout round consensus hround hstart => exact h.startRound hstart
  | next height consensus hheight hwhy hstart => exact h.startRound hstart

/-- What a move signs is a precommit only when a quorum of prevotes is behind it. -/
lemma polka_move (h : NodeInv known validators r sent) (hT : sumPower validators < 2 ^ 63)
    (hmove : Move known r signed r') :
    ∀ m ∈ signed, m.voteType = .precommit →
      Polka known validators m.height m.round m.blockHash := by
  intro m hm htype
  cases hmove with
  | prevote m' hsigns hphase hproposal =>
    rw [List.mem_singleton.mp hm, hsigns.voteType] at htype
    cases htype
  | precommit b m' hphase hpending hheight hround hid htype' hhash =>
    rw [List.mem_singleton.mp hm, hheight, hround, hhash]
    obtain ⟨hproposal, hb⟩ := h.votes.candidate b hpending
    rw [hb]
    exact h.state.polka hT hphase hproposal
  | _ => cases hm

lemma NodeInv.move (hT : sumPower validators < 2 ^ 63) (h : NodeInv known validators r sent)
    (hmove : Move known r signed r') : NodeInv known validators r' (sent ++ signed) := by
  refine ⟨voteInv_move h.votes hmove, polkaState_move h.state hmove, fun m hm htype => ?_⟩
  rcases List.mem_append.mp hm with hm | hm
  · exact h.polka m hm htype
  · exact polka_move h hT hmove m hm htype

/-- One operation keeps the invariant of the node. -/
lemma NodeInv.step (hT : sumPower validators < 2 ^ 63) (hs : Sound known r)
    (h : NodeInv known validators r sent) (env : ℕ → Reading) (op : Op)
    (hknown : ∀ v ∈ op.votes, known v) :
    Sound known (r.step env op).2 ∧
      NodeInv known validators (r.step env op).2 (sent ++ (r.step env op).1) := by
  obtain ⟨signed, hmoves, hsub⟩ := step_moves r env op hs hknown
  have hinv := Moves.induction (P := NodeInv known validators)
    (fun hinv hmove => hinv.move hT hmove) sent hmoves h
  refine ⟨hs.moves hmoves, hinv.subset ?_⟩
  exact List.append_subset.mpr ⟨List.subset_append_left _ _,
    List.Subset.trans hsub (List.subset_append_right _ _)⟩

end

lemma nodeInv_started {known : ConsensusMessage → Prop} {chain : Blockchain}
    {validators : List Validator} {schedule : EventSchedule} {validator : String}
    {r : ConsensusRuntime} (h : Started chain validators schedule validator r) :
    Sound known r ∧ NodeInv known validators r [] := by
  obtain ⟨map, total, height, timeouts, deadline, hvalid, hheight, hruns, rfl⟩ := h.eq
  refine ⟨⟨hheight.le, fun v hv => absurd hv List.not_mem_nil⟩, ?_, ⟨hruns, ?_, ?_⟩, by simp⟩
  · exact VoteInv.reset rfl rfl rfl rfl rfl (by simp) (by simp) (by simp)
  · intro v id hid
    exact absurd hid (Finset.notMem_empty id)
  · intro hphase
    simp [BftConsensus.opened] at hphase

end ConsensusRuntime

/-! ## The network -/

open ConsensusRuntime

/-- The runtime of every node and the votes it returned. -/
structure Network where
  nodes : String → ConsensusRuntime
  sent : String → List ConsensusMessage

/-- One operation at one node, on whatever messages the network delivered. -/
structure NetworkStep where
  node : String
  env : ℕ → Reading
  op : Op

namespace Network

/-- The nodes before anything was sent. -/
def start (nodes : String → ConsensusRuntime) : Network := ⟨nodes, fun _ => []⟩

/-- The network after one operation. -/
def step (n : Network) (e : NetworkStep) : Network :=
  let (votes, runtime) := (n.nodes e.node).step e.env e.op
  { nodes := Function.update n.nodes e.node runtime
    sent := Function.update n.sent e.node (n.sent e.node ++ votes) }

/-- What an operation leaves at its own node. -/
lemma step_self {n : Network} {id : String} {env : ℕ → Reading} {op : Op}
    {votes : List ConsensusMessage} {runtime : ConsensusRuntime}
    (h : (n.nodes id).step env op = (votes, runtime)) :
    (n.step ⟨id, env, op⟩).nodes id = runtime ∧
      (n.step ⟨id, env, op⟩).sent id = n.sent id ++ votes := by
  rw [step, h]
  exact ⟨Function.update_self _ _ _, Function.update_self _ _ _⟩

/-- A vote that is kept for later is answered with nothing. -/
lemma sent_deferVote (n : Network) (id : String) (env : ℕ → Reading) (m : ConsensusMessage) :
    (n.step ⟨id, env, .deferVote m⟩).sent id = n.sent id := by
  obtain ⟨_, hsent⟩ := @step_self _ n id env (.deferVote m) _ _ rfl
  rw [hsent, List.append_nil]

lemma step_of_ne (n : Network) {e : NetworkStep} {id : String} (hne : id ≠ e.node) :
    (n.step e).nodes id = n.nodes id ∧ (n.step e).sent id = n.sent id :=
  ⟨Function.update_of_ne hne _ _, Function.update_of_ne hne _ _⟩

/-- The network after a sequence of operations. -/
def run (n : Network) (steps : List NetworkStep) : Network := steps.foldl step n

lemma run_concat (n : Network) (steps : List NetworkStep) (e : NetworkStep) :
    n.run (steps ++ [e]) = (n.run steps).step e :=
  List.foldl_append

/-- What a node sends depends on its own operations only. -/
lemma sent_run (id : String) (steps : List NetworkStep) : ∀ n n' : Network,
    n.nodes id = n'.nodes id → n.sent id = n'.sent id →
      (n.run steps).sent id = (n'.run (steps.filter fun e => e.node = id)).sent id := by
  induction steps with
  | nil => exact fun _ _ _ hsent => hsent
  | cons e rest ih =>
    intro n n' hnodes hsent
    by_cases hid : e.node = id
    · rw [List.filter_cons_of_pos (by simpa using hid)]
      obtain ⟨node, env, op⟩ := e
      obtain rfl : node = id := hid
      obtain ⟨hnode, hvotes⟩ := @step_self _ n node env op _ _ rfl
      obtain ⟨hnode', hvotes'⟩ := @step_self _ n' node env op _ _ rfl
      refine ih _ _ ?_ ?_
      · rw [hnode, hnode', hnodes]
      · rw [hvotes, hvotes', hnodes, hsent]
    · rw [List.filter_cons_of_neg (by simpa using hid)]
      obtain ⟨hnode, hvotes⟩ := step_of_ne n (Ne.symm hid)
      exact ih _ _ (hnode.trans hnodes) (hvotes.trans hsent)

/-- A vote some node was given in a run. -/
def Delivered (steps : List NetworkStep) (m : ConsensusMessage) : Prop :=
  ∃ e ∈ steps, m ∈ e.op.votes

/-- The invariant of one node along a run of the network. -/
lemma nodeInv_run {known : ConsensusMessage → Prop} {validators : List Validator}
    (hT : sumPower validators < 2 ^ 63) (id : String) (steps : List NetworkStep) :
    ∀ n : Network, (∀ m, Delivered steps m → known m) →
      Sound known (n.nodes id) ∧ NodeInv known validators (n.nodes id) (n.sent id) →
      NodeInv known validators ((n.run steps).nodes id) ((n.run steps).sent id) := by
  induction steps with
  | nil => exact fun n _ hinv => hinv.2
  | cons e rest ih =>
    intro n hknown hinv
    refine ih (n.step e) (fun m ⟨e', he', hm⟩ => hknown m ⟨e', List.mem_cons_of_mem _ he', hm⟩) ?_
    by_cases hid : id = e.node
    · subst hid
      have hstep := hinv.2.step hT hinv.1 e.env e.op
        fun v hv => hknown v ⟨e, List.mem_cons_self, hv⟩
      simpa [step] using hstep
    · simpa [step, Function.update_of_ne hid] using hinv

end Network

/-- The votes of a network in one step of one height. -/
def Voted (n : Network) (height : UInt64) (voteType : VoteType) (id : String) (round : ℕ)
    (blockHash : String) : Prop :=
  ∃ m ∈ n.sent id, m.height = height ∧ m.round.toNat = round ∧ m.voteType = voteType ∧
    m.blockHash = blockHash

/-- A signed vote in a correct validator's name is one its own runtime returned. -/
def Authentic (validators : List Validator) (faulty : Finset String) (n : Network)
    (known : ConsensusMessage → Prop) : Prop :=
  ∀ m, known m → m.verify = .ok () → m.validatorId ∈ idsOf validators →
    m.validatorId ∉ faulty → ∃ m' ∈ n.sent m.validatorId, m'.height = m.height ∧
      m'.round = m.round ∧ m'.voteType = m.voteType ∧ m'.blockHash = m.blockHash

/-- An authentic signed vote of a correct validator was returned by its runtime. -/
lemma Authentic.voted {validators : List Validator} {faulty : Finset String} {n : Network}
    {known : ConsensusMessage → Prop} (h : Authentic validators faulty n known)
    {m : ConsensusMessage} {id : String} {height : UInt64} {round : UInt32} {voteType : VoteType}
    {blockHash : String} (hm : known m) (hvote : IsVote id height round voteType blockHash m)
    (hid : id ∈ idsOf validators) (hcorrect : id ∉ faulty) :
    Voted n height voteType id round.toNat blockHash := by
  obtain ⟨hmid, hheight, hround, htype, hhash, hverify⟩ := hvote
  obtain ⟨m', hm', hh, hr, ht, hb⟩ := h m hm hverify (hmid ▸ hid) (hmid ▸ hcorrect)
  rw [hmid] at hm'
  exact ⟨m', hm', hh.trans hheight, by rw [hr, hround], ht.trans htype, hb.trans hhash⟩

/-- The votes of correct nodes at one height follow the pattern of two-phase voting with permanent
locks. -/
lemma lockedVoting {known : ConsensusMessage → Prop} {validators : List Validator}
    {faulty : Finset String} {n : Network}
    (hinv : ∀ id ∈ idsOf validators, id ∉ faulty →
      NodeInv known validators (n.nodes id) (n.sent id))
    (hauth : Authentic validators faulty n known) (height : UInt64) :
    LockedVoting (powerIn validators) (idsOf validators) faulty (Voted n height .prevote)
      (Voted n height .precommit) where
  polka := by
    rintro id hid hcorrect _ _ ⟨m, hm, hheight, rfl, htype, rfl⟩
    obtain ⟨q, hq, hprevotes⟩ := (hinv id hid hcorrect).polka m hm htype
    refine ⟨q, hq, fun j hj hjcorrect => ?_⟩
    obtain ⟨m', hknown, hvote⟩ := hprevotes j hj
    rw [hheight] at hvote
    exact hauth.voted hknown hvote (hq.subset hj) hjcorrect
  lock := by
    rintro id hid hcorrect _ _ _ _ ⟨m, hm, hheight, rfl, htype, rfl⟩
      ⟨m', hm', hheight', rfl, htype', rfl⟩ hle
    exact (hinv id hid hcorrect).votes.lock m hm m' hm' htype htype' (hheight.trans hheight'.symm)
      (UInt32.le_iff_toNat_le.mpr hle)
  once := by
    rintro id hid hcorrect _ _ _ ⟨m, hm, hheight, rfl, htype, rfl⟩
      ⟨m', hm', hheight', hround, htype', rfl⟩
    exact (hinv id hid hcorrect).votes.once m' hm' m hm (hheight'.trans hheight.symm)
      (UInt32.toNat_inj.mp hround) (htype'.trans htype.symm)

/-- A valid certificate of authentic votes is a decision of the network. -/
lemma decided_of_certificate {known : ConsensusMessage → Prop} {validators : List Validator}
    {faulty : Finset String} {n : Network} (hids : (validators.map Validator.id).Nodup)
    (hauth : Authentic validators faulty n known) {c : FinalityCertificate}
    (hknown : ∀ m ∈ c.precommits, known m) (h : c.verify validators = .ok ()) :
    Decided (powerIn validators) (idsOf validators) faulty (Voted n c.block.height .precommit)
      c.round.toNat c.block.hash := by
  obtain ⟨_, q, hq, hsigned⟩ := FinalityCertificate.verify_eq_ok hids h
  refine ⟨q, hq, fun id hid hcorrect => ?_⟩
  obtain ⟨m, hm, hmid, hexpects, hverify⟩ := hsigned id hid
  obtain ⟨hheight, hround, htype, hhash⟩ := of_decide_eq_true hexpects
  exact hauth.voted (hknown m hm) ⟨hmid, hheight, hround, htype, hhash, hverify⟩ (hq.subset hid)
    hcorrect

/-- **Agreement.** Less than a third of the power is faulty, every correct node runs its own
runtime for the same validators, and signatures in the names of correct nodes stand only on votes
their runtimes returned. Then, after any operations on any messages, two valid certificates for
one height have the same block hash. -/
theorem agreement (validators : List Validator) (c₀ : BftConsensus)
    (hnew : BftConsensus.new validators = .ok c₀) (hT : sumPower validators < 2 ^ 63)
    (faulty : Finset String)
    (hfaulty : 3 * weight (powerIn validators) faulty < sumPower validators)
    (nodes : String → ConsensusRuntime)
    (hnodes : ∀ id ∈ idsOf validators, id ∉ faulty →
      ∃ chain schedule, Started chain validators schedule id (nodes id))
    (steps : List NetworkStep) (c c' : FinalityCertificate)
    (hauth : Authentic validators faulty ((Network.start nodes).run steps) fun m =>
      Network.Delivered steps m ∨ m ∈ c.precommits ∨ m ∈ c'.precommits)
    (hheight : c.block.height = c'.block.height) (hc : c.verify validators = .ok ())
    (hc' : c'.verify validators = .ok ()) : c.block.hash = c'.block.hash := by
  set n := (Network.start nodes).run steps
  set known : ConsensusMessage → Prop := fun m =>
    Network.Delivered steps m ∨ m ∈ c.precommits ∨ m ∈ c'.precommits
  have hids : (validators.map Validator.id).Nodup :=
    (BftConsensus.runsFor_new hnew).registered.nodup
  have hinv : ∀ id ∈ idsOf validators, id ∉ faulty →
      NodeInv known validators (n.nodes id) (n.sent id) := by
    intro id hid hcorrect
    obtain ⟨chain, schedule, hstarted⟩ := hnodes id hid hcorrect
    exact Network.nodeInv_run hT id steps (Network.start nodes) (fun m hm => .inl hm)
      (nodeInv_started hstarted)
  have hdecided := decided_of_certificate hids hauth (fun m hm => .inr (.inl hm)) hc
  have hdecided' := decided_of_certificate hids hauth (fun m hm => .inr (.inr hm)) hc'
  rw [← hheight] at hdecided'
  rw [← weight_idsOf hids (List.Sublist.refl validators)] at hfaulty
  exact (lockedVoting hinv hauth c.block.height).decided_unique hfaulty hdecided hdecided'

end

namespace Quartet

attribute [local instance] primitives

/-- A node receives the proposal. -/
def proposed (v : Voter) : NetworkStep :=
  ⟨v.id, fun _ => Devnet.reading v.prevote.signature, .receiveProposal Devnet.firstProposal⟩

/-- A node receives three prevotes. -/
def heard (v a b c : Voter) : List NetworkStep :=
  [⟨v.id, fun _ => Devnet.reading "", .receiveVote a.prevote⟩,
    ⟨v.id, fun _ => Devnet.reading "", .receiveVote b.prevote⟩,
    ⟨v.id, fun _ => Devnet.reading v.precommit.signature, .receiveVote c.prevote⟩]

/-- The proposal reaches three nodes, and each of them three of the four prevotes in an order of its
own. The key of the fourth votes for two blocks. -/
def round : List NetworkStep :=
  [proposed second, proposed first, proposed third] ++ heard first second fourth first ++
    heard third first third second ++ heard second fourth second first ++
    [⟨third.id, fun _ => Devnet.reading "", .deferVote fourthRival⟩]

lemma sent_of_heard {v a b c : Voter} (hv : v ∈ voters) (ha : a ∈ voters) (hb : b ∈ voters)
    (hc : c ∈ voters) (hdistinct : [a.key, b.key, c.key].Nodup) :
    ((Network.start node).run (proposed v :: heard v a b c)).sent v.id =
      [v.prevote, v.precommit] := by
  obtain ⟨r₁, r₂, r₃, r₄, hproposal, hfirst, hsecond, hthird⟩ := node_signs hv ha hb hc hdistinct
  obtain ⟨hnode₁, hsent₁⟩ := Network.step_self (n := Network.start node) hproposal
  obtain ⟨hnode₂, hsent₂⟩ := Network.step_self (hnode₁.symm ▸ hfirst)
  obtain ⟨hnode₃, hsent₃⟩ := Network.step_self (hnode₂.symm ▸ hsecond)
  obtain ⟨_, hsent₄⟩ := Network.step_self (hnode₃.symm ▸ hthird)
  rw [heard, Network.run, List.foldl_cons, List.foldl_cons, List.foldl_cons, List.foldl_cons,
    List.foldl_nil, proposed, hsent₄, hsent₃, hsent₂, hsent₁]
  rfl

lemma id_ne {v w : Voter} (h : v.key ≠ w.key) : v.id ≠ w.id := hexEncode_injective.ne h

/-- Three nodes sign a prevote and a precommit each. -/
lemma sent_round : ∀ v ∈ [first, second, third],
    ((Network.start node).run round).sent v.id = [v.prevote, v.precommit] := by
  have hfirst : second.id ≠ first.id := id_ne (by decide)
  have hsecond : third.id ≠ second.id := id_ne (by decide)
  have hthird : third.id ≠ first.id := id_ne (by decide)
  have hown : ∀ v : Voter, ((Network.start node).run round).sent v.id =
      ((Network.start node).run (round.filter fun e => e.node = v.id)).sent v.id := fun v =>
    Network.sent_run v.id round _ _ rfl rfl
  intro v hv
  simp only [List.mem_cons, List.not_mem_nil, or_false] at hv
  rcases hv with rfl | rfl | rfl
  · have hfilter : (round.filter fun e => e.node = first.id) =
        proposed first :: heard first second fourth first := by
      simp [round, proposed, heard, hfirst, hthird]
    rw [hown, hfilter]
    exact sent_of_heard (by simp [voters]) (by simp [voters]) (by simp [voters]) (by simp [voters])
      (by decide)
  · have hfilter : (round.filter fun e => e.node = second.id) =
        proposed second :: heard second fourth second first := by
      simp [round, proposed, heard, hfirst.symm, hsecond]
    rw [hown, hfilter]
    exact sent_of_heard (by simp [voters]) (by simp [voters]) (by simp [voters]) (by simp [voters])
      (by decide)
  · have hfilter : (round.filter fun e => e.node = third.id) =
        (proposed third :: heard third first third second) ++
          [⟨third.id, fun _ => Devnet.reading "", .deferVote fourthRival⟩] := by
      simp [round, proposed, heard, hthird.symm, hsecond.symm]
    have hheard := sent_of_heard (v := third) (a := first) (b := third) (c := second)
      (by simp [voters]) (by simp [voters]) (by simp [voters]) (by simp [voters]) (by decide)
    rw [hown, hfilter, Network.run_concat, Network.sent_deferVote, hheard]

/-- Three of the four finalise the first block. -/
def certificateOf (signers : List Voter) : FinalityCertificate :=
  ⟨Devnet.first, 0, signers.map Voter.precommit⟩

lemma verify_certificateOf {signers : List Voter} (hvoters : signers ⊆ voters)
    (hnodup : (signers.map Voter.key).Nodup) (hthree : 3 ≤ signers.length) :
    (certificateOf signers).verify validators = .ok () := by
  have hvote : ∀ v ∈ signers, v.precommit ∈ votes ∧ IsVote v.id 1 0 .precommit Devnet.first.hash
      v.precommit := fun v hv =>
    ⟨mem_votes (hvoters hv) (by simp), (isVote_voter (hvoters hv)).2⟩
  simp only [FinalityCertificate.verify, bind_eq_ok, ensure_eq_ok]
  refine ⟨(), first_hash, verifyVotes_three (signers.map Voter.key) ?_ (fun m hm => ?_)
    (fun key hkey => ?_) hnodup (by rw [List.length_map]; exact hthree)⟩
  · rw [certificateOf, List.map_map, List.map_map]
    exact List.map_congr_left fun v hv => (hvote v hv).2.validatorId
  · obtain ⟨v, hv, rfl⟩ := List.mem_map.mp hm
    obtain ⟨hmem, _, hheight, hround, htype, hhash, _⟩ := hvote v hv
    exact ⟨hmem, decide_eq_true ⟨hheight, hround, htype, hhash⟩⟩
  · obtain ⟨v, hv, rfl⟩ := List.mem_map.mp hkey
    exact List.mem_map_of_mem (hvoters hv)

/-- After one round of four validators, one of them faulty, two certificates of different signers. -/
theorem agreement_round : (certificateOf [first, second, fourth]).block.hash =
    (certificateOf [third, fourth, first]).block.hash := by
  have hsigners : [first, second, fourth] ⊆ voters := by simp [voters]
  have hsigners' : [third, fourth, first] ⊆ voters := by simp [voters]
  have hknown : ∀ m, Network.Delivered round m ∨
      m ∈ (certificateOf [first, second, fourth]).precommits ∨
      m ∈ (certificateOf [third, fourth, first]).precommits →
      (∃ v ∈ voters, m ∈ [v.prevote, v.precommit]) ∨ m = fourthRival := by
    rintro m (⟨e, he, hm⟩ | hm | hm)
    · simp only [round, proposed, heard, List.cons_append, List.nil_append, List.mem_cons,
        List.not_mem_nil, or_false] at he
      rcases he with rfl | rfl | rfl | rfl | rfl | rfl | rfl | rfl | rfl | rfl | rfl | rfl | rfl
      all_goals simp [ConsensusRuntime.Op.votes] at hm
      all_goals simp [hm, voters]
    · obtain ⟨v, hv, rfl⟩ := List.mem_map.mp hm
      exact .inl ⟨v, hsigners hv, by simp⟩
    · obtain ⟨v, hv, rfl⟩ := List.mem_map.mp hm
      exact .inl ⟨v, hsigners' hv, by simp⟩
  have hfaulty : 3 * weight (powerIn validators) {fourth.id} < sumPower validators := by
    rw [weight_validators (Finset.singleton_subset_iff.mpr (mem_idsOf (by simp [voters]))),
      sumPower_validators, Finset.card_singleton]
    decide
  refine agreement validators _ new_validators (by rw [sumPower_validators]; decide) {fourth.id}
    hfaulty node (fun id _ _ => ⟨Devnet.chain, EventSchedule.empty, node_started id⟩) round
    (certificateOf [first, second, fourth]) (certificateOf [third, fourth, first])
    (fun m hm _ _ hcorrect => ?_) rfl
    (verify_certificateOf hsigners (by decide) (by decide))
    (verify_certificateOf hsigners' (by decide) (by decide))
  rcases hknown m hm with ⟨v, hv, hmem⟩ | rfl
  · obtain ⟨hprevote, hprecommit⟩ := isVote_voter hv
    have hid : m.validatorId = v.id := by
      rcases List.mem_pair.mp hmem with rfl | rfl
      · exact hprevote.validatorId
      · exact hprecommit.validatorId
    rw [hid, Finset.mem_singleton] at hcorrect
    have hthree : v ∈ [first, second, third] := by
      simp only [voters, List.mem_cons, List.not_mem_nil, or_false] at hv ⊢
      rcases hv with rfl | rfl | rfl | rfl
      · exact .inl rfl
      · exact .inr (.inl rfl)
      · exact .inr (.inr rfl)
      · exact absurd rfl hcorrect
    rw [hid, sent_round v hthree]
    exact ⟨m, hmem, rfl, rfl, rfl, rfl⟩
  · exact absurd (Finset.mem_singleton_self fourth.id) hcorrect

end Quartet

end IeumChain
