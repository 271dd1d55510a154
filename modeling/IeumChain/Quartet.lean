import IeumChain.Devnet

/-!
# A network with four validators

A node that answered a proposal counts the prevotes it receives, and with a quorum of them it signs
the precommit (`Collecting`). `Quartet` is a network in which this happens: four Ed25519 keys of the
same voting power, so that three of them are a quorum and one may be faulty.
-/

namespace IeumChain

open Lib

/-! ## Prevotes -/

namespace ConsensusRuntime
variable [Primitives] {validators : List Validator} {own : String} {b : Block}
  {q : Finset String} {r : ConsensusRuntime}

/-- A node that answered the proposal of a block in round 0 and has counted the prevotes of `q`. -/
structure Collecting (validators : List Validator) (own : String) (b : Block) (q : Finset String)
    (r : ConsensusRuntime) : Prop where
  runs : BftConsensus.RunsFor validators r.consensus
  bounded : sumPower validators < 2 ^ 63
  own : r.validator = own
  round : r.consensus.round = 0
  height : r.consensus.height = b.height
  phase : r.consensus.phase = .prevote
  proposal : r.consensus.proposal = some b.hash
  pending : r.pending = some b
  voters : r.consensus.voters (.prevote, b.hash) = q
  registered : q ⊆ idsOf validators
  unseen : ∀ id ∉ q, r.consensus.voteHistory.lookup (b.height, 0, .prevote, id) = none

/-- A started node answers the proposal of a block that fits with its prevote. -/
lemma Started.receiveProposal {chain : Blockchain} {schedule : EventSchedule}
    (h : Started chain validators schedule own r) (hbounded : sumPower validators < 2 ^ 63)
    (env : Reading) {p : SignedProposal} (hround : p.round = 0)
    (hproposer : p.proposerId ∈ idsOf validators)
    (hexpected : r.consensus.expectedProposer = .ok p.proposerId) (hverify : p.verify = .ok ())
    (hfits : r.Fits env.now p.block) {m : ConsensusMessage}
    (hm : IsVote own p.block.height 0 .prevote p.block.hash m)
    (hsign : env.sign
      (ConsensusMessage.unsignedBytes p.block.height 0 own .prevote p.block.hash)
        = .ok m.signature) :
    ∃ r', r.receiveProposal env p = (.ok m, r') ∧ Collecting validators own p.block ∅ r' := by
  have hplace := h.place hverify hfits
  have hblock := hverify
  simp only [SignedProposal.verify, bind_eq_ok, ensure_eq_ok] at hblock
  obtain ⟨_, hsame, _, hhash, _⟩ := hblock
  have hne : p.block.hash ≠ "" := by
    intro hempty
    have hlength := p.block.textLen_calculateHash
    rw [← hhash, hempty] at hlength
    revert hlength
    decide
  obtain ⟨map, total, height, timeouts, deadline, _, _, hruns, rfl⟩ := h.eq
  set c := BftConsensus.opened map total height
  have hc : c.handleProposal p
      = .ok { c with proposal := some p.block.hash, phase := .prevote } := by
    simp only [BftConsensus.handleProposal, BftConsensus.propose, bind_eq_ok, ensure_eq_ok,
      pure_eq_ok]
    exact ⟨(), ⟨hplace, hround⟩, (), (hruns.registered.mem _).mpr hproposer, (), hverify, (),
      .inl rfl, (), rfl, p.proposerId, hexpected, (), rfl, (), hne, trivial⟩
  have haccept := acceptProposal_of_fits hfits hc
  set r' := ConsensusRuntime.resetDeadline _ env with hr'
  have hvote : r'.signVote env p.height p.round .prevote p.block.hash = .ok m := by
    rw [hsame, hround]
    exact signVote_of_isVote hm hsign
  refine ⟨r', ?_, ⟨hruns.registered, hruns.total⟩, hbounded, rfl, rfl, hplace.symm.trans hsame, rfl,
    rfl, rfl, rfl, Finset.empty_subset _, fun _ _ => Finmap.lookup_empty _⟩
  rw [ConsensusRuntime.receiveProposal, haccept]
  simp only [hvote]

namespace Collecting
variable {id : String} {m : ConsensusMessage}

/-- The machine after another prevote, before it acts on a quorum. -/
def counted (r : ConsensusRuntime) (m : ConsensusMessage) : BftConsensus :=
  (BftConsensus.Solo.recorded r.consensus m).addVoter m

lemma voters_counted (h : Collecting validators own b q r)
    (hm : IsVote id b.height 0 .prevote b.hash m) :
    (counted r m).voters (.prevote, b.hash) = insert id q := by
  rw [counted, BftConsensus.voters_addVoter, hm.voteType, hm.blockHash, if_pos rfl, hm.validatorId]
  exact congrArg (insert id) h.voters

/-- The first prevote of a validator is counted. -/
lemma handle (h : Collecting validators own b q r) (hm : IsVote id b.height 0 .prevote b.hash m)
    (hid : id ∈ idsOf validators) (hnew : id ∉ q) :
    r.consensus.handle m = (.ok (), if 2 * sumPower validators <
      3 * weight (powerIn validators) (insert id q) then (counted r m).onQuorum m
      else counted r m) := by
  have hcheck : r.consensus.checkVote m = .ok () := by
    rw [BftConsensus.checkVote_eq_ok, h.height, h.round, h.phase, hm.validatorId, hm.voteType]
    exact ⟨⟨hm.height, hm.round⟩, (h.runs.registered.mem _).mpr hid, hm.verify, rfl⟩
  have hhistory : r.consensus.voteHistory.lookup (BftConsensus.historyKey m) = none := by
    rw [BftConsensus.historyKey, hm.height, hm.round, hm.voteType, hm.validatorId]
    exact h.unseen id hnew
  have hquorum : (counted r m).hasQuorum (m.voteType, m.blockHash) = true ↔
      2 * sumPower validators < 3 * weight (powerIn validators) (insert id q) := by
    rw [hm.voteType, hm.blockHash]
    have hruns : BftConsensus.RunsFor validators (counted r m) :=
      ⟨h.runs.registered, h.runs.total⟩
    have hvoters := voters_counted h hm
    rw [BftConsensus.hasQuorum_iff hruns h.bounded, hvoters]
    rw [hvoters]
    exact Finset.insert_subset hid h.registered
  have hphase : (counted r m).phase ≠ .finalized := by
    show r.consensus.phase ≠ _
    rw [h.phase]
    decide
  simp only [BftConsensus.handle, hcheck, BftConsensus.recordVote, hhistory]
  rw [if_pos (by rw [h.proposal, hm.blockHash])]
  simp only [BftConsensus.acceptVote]
  show (_, if (counted r m).hasQuorum (m.voteType, m.blockHash) = true ∧
    (counted r m).phase ≠ .finalized then (counted r m).onQuorum m else counted r m) = _
  simp only [hquorum, hphase, ne_eq, not_false_eq_true, and_true]

/-- A prevote that makes no quorum is counted, and nothing is signed. -/
lemma receiveVote (h : Collecting validators own b q r) (env : Reading)
    (hm : IsVote id b.height 0 .prevote b.hash m) (hid : id ∈ idsOf validators) (hnew : id ∉ q)
    (hshort : 3 * weight (powerIn validators) (insert id q) ≤ 2 * sumPower validators) :
    ∃ r', r.receiveVote env m = (.ok none, r') ∧
      Collecting validators own b (insert id q) r' := by
  have hhandle := h.handle hm hid hnew
  rw [if_neg (not_lt.mpr hshort)] at hhandle
  set r' : ConsensusRuntime := { r with consensus := counted r m } with hr'
  have hafter : (r'.keepPrecommit m).onPhaseChange env r.consensus.phase = r' := by
    have hsame : r.consensus.phase = r'.consensus.phase := rfl
    rw [keepPrecommit, if_neg (by rw [hm.voteType]; simp), onPhaseChange, if_pos hsame]
  refine ⟨r', ?_, ⟨h.runs.registered, h.runs.total⟩, h.bounded,
    h.own, h.round, h.height, h.phase, h.proposal, h.pending, voters_counted h hm,
    Finset.insert_subset hid h.registered, fun other hother => ?_⟩
  · rw [ConsensusRuntime.receiveVote, hhandle]
    simp only [← hr', hafter, show r'.consensus.phase = .prevote from h.phase]
  · obtain ⟨hne, hother⟩ := not_or.mp (mt Finset.mem_insert.mpr hother)
    show (r.consensus.voteHistory.insert _ _).lookup _ = none
    rw [HashMap.lookup_insert, if_neg, h.unseen other hother]
    rw [BftConsensus.historyKey, hm.validatorId]
    intro heq
    exact hne (congrArg (fun key => key.2.2.2) heq)

/-- The prevote that makes a quorum is answered with the precommit. -/
lemma receiveVote_quorum (h : Collecting validators own b q r) (env : Reading)
    (hm : IsVote id b.height 0 .prevote b.hash m) (hid : id ∈ idsOf validators) (hnew : id ∉ q)
    (hquorum : 2 * sumPower validators < 3 * weight (powerIn validators) (insert id q))
    {m' : ConsensusMessage} (hm' : IsVote own b.height 0 .precommit b.hash m')
    (hsign : env.sign (ConsensusMessage.unsignedBytes b.height 0 own .precommit b.hash)
      = .ok m'.signature) :
    ∃ r', r.receiveVote env m = (.ok (some m'), r') := by
  have hhandle := h.handle hm hid hnew
  rw [if_pos hquorum] at hhandle
  set c := (counted r m).onQuorum m with hc
  have hlocked : c.phase = .precommit ∧ c.round = 0 := by
    rw [hc, BftConsensus.onQuorum, hm.voteType]
    dsimp only
    rw [if_pos (show (counted r m).phase = .prevote from h.phase)]
    exact ⟨rfl, h.round⟩
  obtain ⟨validBlock, deadline, hphase⟩ :=
    onPhaseChange_eq { r with consensus := c } env r.consensus.phase
  have hafter : ({ r with consensus := c }.keepPrecommit m).onPhaseChange env r.consensus.phase
      = { r with consensus := c, validBlock, deadline } := by
    rw [keepPrecommit, if_neg (by rw [hm.voteType]; simp), hphase]
  set r' : ConsensusRuntime := { r with consensus := c, validBlock, deadline } with hr'
  have hvote : r'.precommitPending env = .ok (some m') := by
    simp only [precommitPending, bind_eq_ok, okOr_eq_ok, pure_eq_ok]
    refine ⟨b, h.pending, m', ?_, rfl⟩
    rw [show r'.consensus.round = 0 from hlocked.2]
    refine signVote_of_isVote ?_ ?_ <;> rw [show r'.validator = own from h.own]
    · exact hm'
    · exact hsign
  refine ⟨r', ?_⟩
  rw [ConsensusRuntime.receiveVote, hhandle]
  simp only [hafter, show r'.consensus.phase = .precommit from hlocked.1, hvote]

end Collecting

end ConsensusRuntime

/-! ## Four keys -/

/-- A validator with its votes for the first block. -/
structure Voter where
  key : Bytes
  prevote : ConsensusMessage
  precommit : ConsensusMessage

namespace Voter

def id (v : Voter) : String := hexEncode v.key

/-- The vote of the validator with the address in round 0. -/
def vote (key : Bytes) (voteType : VoteType) (blockHash : String) (r s : ℕ) : ConsensusMessage :=
  { height := 1
    round := 0
    validatorId := hexEncode key
    voteType
    blockHash
    signature := Devnet.signature r s }

end Voter

namespace Quartet

/-- The keys of the seeds `[4; 32]`, `[7; 32]` and `[3; 32]`. -/
def secondKey : Bytes :=
  beBytes 32 0xca93ac1705187071d67b83c7ff0efe8108e8ec4530575d7726879333dbdabe7c

def thirdKey : Bytes :=
  beBytes 32 0xea4a6c63e29c520abef5507b132ec5f9954776aebebe7b92421eea691446d22c

def fourthKey : Bytes :=
  beBytes 32 0xed4928c628d1c2c6eae90338905995612959273a5c63f93636c14614ac8737d1

/-- The validator of the network with one validator. -/
def first : Voter := ⟨Devnet.validatorKey, Devnet.firstPrevote, Devnet.firstPrecommit⟩

def second : Voter where
  key := secondKey
  prevote := Voter.vote secondKey .prevote Devnet.first.hash
    0x2f1190586e2c9743f7ce0f68b30a841a9b7353d997e64d7fe56aee2893cc3780
    0x443298f49312a450c83015525431315d462612590b093eb91a46a237d67d3b06
  precommit := Voter.vote secondKey .precommit Devnet.first.hash
    0x10d316e0bb3a740650f3e9de2791904f5f3f25e37aa95188705b2c1dbe376b5f
    0x48582be45b1b9419d6573ac765cbc7f30d098a9ef6a431931265654888764002

def third : Voter where
  key := thirdKey
  prevote := Voter.vote thirdKey .prevote Devnet.first.hash
    0x304f59ba5ba69822e91dfc3d968f8e6774e11586ed6d68f22752527f6f702547
    0x105884c6fabae5400cad7e1bf37f3a59a732ee5b95aedd35e95fe1e651933804
  precommit := Voter.vote thirdKey .precommit Devnet.first.hash
    0x1e618d6d17fb1d3b60d6b2f19c25eafcf23d5f0904d1b84c410cebc4a3572e40
    0xcf4180f21ff8f94ae4eb1cd3534402c05cc28b395774e00f8e850ebe6878640d

def fourth : Voter where
  key := fourthKey
  prevote := Voter.vote fourthKey .prevote Devnet.first.hash
    0x272d476047bc886fdc338480360869fd1d736f1da2ff67129b71c6a26cbacc97
    0x9b53b553123b1bb161135af8b3a8cc5ec5d2524fd75d9e8604bc4a93d3ea410e
  precommit := Voter.vote fourthKey .precommit Devnet.first.hash
    0x0fc1718d2b9717ae0f1ae66573d824a1a42a70fac6c7c18ebd150391c9d007cf
    0x69bcb79a1d30821340df33e8ae29f26324d20aaaaa74af73bcbc0dbc452b2f05

def voters : List Voter := [first, second, third, fourth]

/-- The fourth votes for the other block on the genesis block as well. -/
def fourthRival : ConsensusMessage :=
  Voter.vote fourthKey .precommit Devnet.rival.hash
    0x6e2a3598f849e7fd15bde557f0eeac556e6c0bcf30342508abc7bedac49ac7ea
    0x77d43e550b365f1c81fa4b8b59927311b22b27f090c43de9233cc4ef712c7408

/-- The precommits of the last three for that block. -/
def rivals : List ConsensusMessage :=
  [Voter.vote secondKey .precommit Devnet.rival.hash
      0x4bae1dff19169467f1e670caa814f56fe4c84910c8e1cb5e84e22a73f6b97f09
      0xb0a1f8cd78f0d59cf0989dde7026e60b55416d9198bc463aef747c3e61f66f0b,
    Voter.vote thirdKey .precommit Devnet.rival.hash
      0xbc2c82a1d54c905aa93e49b84790213d9fc63ec9d78ad7ae71f97f7847a5cbc8
      0xef4e2c19caa8fbfa4fcae7d38112e3dbe4bd63ce47e79533107391a64e286206,
    fourthRival]

/-- Their precommits for nothing. -/
def nils : List ConsensusMessage :=
  [Voter.vote secondKey .precommit nilBlockHash
      0xf7a5c2592dc0b305c534f8134466c84e47b300240d9b6ad57010d36d5bdff02f
      0x48b778740a6f6c8b5c0b47912685cbbe8984fc24e369d5a1b90b67613702c40e,
    Voter.vote thirdKey .precommit nilBlockHash
      0x8522c69e162eb05d5b767b7e6fa623797aeed1a1de2369afdf0675724a2bd303
      0x112ecd9eb3d8eb955eb42fcc3aef1b9be50fde5160d4c6f165f546707989ee08,
    Voter.vote fourthKey .precommit nilBlockHash
      0x0b0647502398353ed4fe5ca85ed4d10595c0bf229d823c5e859e7e3a0dac2cc4
      0x1baf461fab004e7e9fec754ca7dd560a562eaadbeac74d5bff9eb037e70a7a09]

/-- Every vote that was signed. -/
def votes : List ConsensusMessage :=
  voters.flatMap (fun v => [v.prevote, v.precommit]) ++ rivals ++ nils

def keys : List Bytes := voters.map Voter.key

/-- The signatures of the votes and of the proposal of the first block. -/
def signatures : List (String × Bytes × String) :=
  (Devnet.firstProposal.proposerId, SignedProposal.unsignedBytes Devnet.firstProposal.height
    Devnet.firstProposal.round Devnet.firstProposal.proposerId Devnet.firstProposal.block.hash
    Devnet.firstProposal.validRound, Devnet.firstProposal.signature) ::
  votes.map fun m => (m.validatorId, ConsensusMessage.unsignedBytes m.height m.round
    m.validatorId m.voteType m.blockHash, m.signature)

/-- SHA-256 and the signatures of the four keys. -/
@[reducible] def primitives : Primitives :=
  { Devnet.primitives with
    ed25519Key := fun key => keys.contains key
    ed25519Verify := Devnet.signedIn signatures }

/-- Four validators of the same voting power. -/
def validators : List Validator := voters.map fun v => ⟨v.id, 100⟩

attribute [local instance] primitives

lemma nodup_keys : keys.Nodup := by decide

lemma hexEncode_injective : Function.Injective hexEncode := fun _ _ h => hexEncode_inj h

lemma nodup_ids : (validators.map Validator.id).Nodup :=
  show (keys.map hexEncode).Nodup from nodup_keys.map hexEncode_injective

lemma verifySignature_of_mem {key message : Bytes} {r s : ℕ} (hkey : key ∈ keys)
    (h : (hexEncode key, message, Devnet.signature r s) ∈ signatures) :
    verifySignature (hexEncode key) message (Devnet.signature r s) = .ok () := by
  have hlength : ∀ key ∈ keys, key.length = 32 := by decide
  exact verifySignature_hexEncode.mpr ⟨hlength key hkey, by simp, List.contains_iff_mem.mpr hkey,
    List.contains_iff_mem.mpr h⟩

/-- A signed vote is one of its validator in round 0. -/
lemma isVote {m : ConsensusMessage} (h : m ∈ votes) :
    IsVote m.validatorId 1 0 m.voteType m.blockHash m := by
  have hshape : m.height = 1 ∧ m.round = 0 ∧ ∃ key ∈ keys, m.validatorId = hexEncode key ∧
      ∃ r s, m.signature = Devnet.signature r s := by
    simp only [votes, voters, rivals, nils, List.flatMap_cons, List.flatMap_nil, List.cons_append,
      List.nil_append, List.append_nil, List.mem_cons, List.not_mem_nil, or_false] at h
    rcases h with rfl | rfl | rfl | rfl | rfl | rfl | rfl | rfl | rfl | rfl | rfl | rfl | rfl | rfl
    all_goals exact ⟨rfl, rfl, _, by decide, rfl, _, _, rfl⟩
  obtain ⟨hheight, hround, key, hkey, hid, r, s, hsignature⟩ := hshape
  refine ⟨rfl, hheight, hround, rfl, rfl, ?_⟩
  rw [ConsensusMessage.verify, hid, hsignature]
  refine verifySignature_of_mem hkey (List.mem_cons_of_mem _ ?_)
  rw [← hid, ← hsignature]
  exact List.mem_map_of_mem h

lemma sumPower_validators : sumPower validators = 400 := rfl

lemma mem_idsOf {v : Voter} (hv : v ∈ voters) : v.id ∈ idsOf validators :=
  List.mem_toFinset.mpr (List.mem_map.mpr ⟨⟨v.id, 100⟩, List.mem_map_of_mem hv, rfl⟩)

lemma weight_validators {q : Finset String} (hq : q ⊆ idsOf validators) :
    weight (powerIn validators) q = 100 * q.card := by
  have hpower : ∀ id ∈ q, powerIn validators id = 100 := by
    intro id hid
    obtain ⟨v, hv, rfl⟩ := List.mem_map.mp (List.mem_toFinset.mp (hq hid))
    rw [powerIn_of_mem nodup_ids hv]
    obtain ⟨voter, _, rfl⟩ := List.mem_map.mp hv
    rfl
  rw [weight, Finset.sum_congr rfl hpower, Finset.sum_const, smul_eq_mul, Nat.mul_comm]

/-- Three of the four are a quorum. -/
lemma quorum_iff {q : Finset String} (hq : q ⊆ idsOf validators) :
    2 * sumPower validators < 3 * weight (powerIn validators) q ↔ 3 ≤ q.card := by
  rw [weight_validators hq, sumPower_validators]
  omega

/-- Votes of three of the four are enough for a certificate. -/
lemma verifyVotes_three {errors : CertificateErrors} {expected : ConsensusMessage → Bool}
    {signed : List ConsensusMessage} (signers : List Bytes)
    (hsigners : signed.map ConsensusMessage.validatorId = signers.map hexEncode)
    (hsigned : ∀ m ∈ signed, m ∈ votes ∧ expected m = true) (hkeys : signers ⊆ keys)
    (hnodup : signers.Nodup) (hthree : 3 ≤ signers.length) : verifyVotes errors validators expected signed = .ok () := by
  have hvoters : votersOf signed = (signers.map hexEncode).toFinset := by
    rw [votersOf, hsigners]
  have hregistered : votersOf signed ⊆ idsOf validators := by
    rw [hvoters]
    intro id hid
    obtain ⟨key, hkey, rfl⟩ := List.mem_map.mp (List.mem_toFinset.mp hid)
    obtain ⟨v, hv, rfl⟩ := List.mem_map.mp (hkeys hkey)
    exact mem_idsOf hv
  have hcard : (votersOf signed).card = signers.length := by
    rw [hvoters, List.toFinset_card_of_nodup (hnodup.map hexEncode_injective), List.length_map]
  rw [verifyVotes_iff nodup_ids (by rw [sumPower_validators]; decide)
    ⟨fun m hm => (hsigned m hm).2, fun m hm => (isVote (hsigned m hm).1).verify, hregistered⟩,
    quorum_iff hregistered, hcard]
  exact hthree

/-! ### The nodes -/

/-- The node of a validator right after its start. -/
def node (id : String) : ConsensusRuntime :=
  { chain := Devnet.chain
    consensus := BftConsensus.opened
      (HashMap.ofList (validators.map fun v => (v.id, v.votingPower))) 400 1
    validator := id
    pending := none
    validBlock := none
    deadline := 3000
    timeouts := ⟨3000, 2000, 2000⟩
    validators
    precommits := []
    deferredVotes := []
    finalized := []
    pendingFinalized := []
    eventSchedule := EventSchedule.empty
    scheduleValid := EventSchedule.validate_empty }

lemma new_validators : BftConsensus.new validators = .ok (BftConsensus.waiting
    (HashMap.ofList (validators.map fun v => (v.id, v.votingPower))) 400) := by
  decide +kernel

lemma node_started (id : String) : ConsensusRuntime.Started Devnet.chain validators
    EventSchedule.empty id (node id) := by
  refine ⟨⟨3000, 2000, 2000⟩, 0, node id, ?_, rfl⟩
  simp only [ConsensusRuntime.withSigner, bind_eq_ok]
  exact ⟨1, rfl, _, new_validators, _, rfl, rfl⟩

/-- The first key proposes the first block. -/
lemma expectedProposer_node (id : String) :
    (node id).consensus.expectedProposer = .ok Devnet.validator := by
  have hkeys : sortedList (node "").consensus.validators.keys =
      [Devnet.validator, second.id, third.id, fourth.id] := by
    decide +kernel
  simp only [BftConsensus.expectedProposer, bind_eq_ok, ensure_eq_ok, okOr_eq_ok]
  have hturn : (node "").consensus.height.toNat - 1 + (node "").consensus.round.toNat < 2 ^ 64 := by
    decide
  refine ⟨(), hturn, ?_⟩
  show (sortedList (node "").consensus.validators.keys)[_]? = _
  rw [hkeys]
  rfl

/-- The first block fits every node. -/
lemma node_fits (id : String) : (node id).Fits (some 1000) Devnet.first := by
  refine ⟨rfl, Devnet.genesis_hash, ?_⟩
  simp only [ConsensusRuntime.validateScheduledBlock, bind_eq_ok, okOr_eq_ok, ensure_eq_ok]
  refine ⟨Block.genesis, rfl, (), UInt64.le_iff_toNat_le.mpr (Nat.zero_le _), 1000, rfl, (), ?_, (),
    rfl, rfl⟩
  show (100 : UInt64).toNat ≤ _
  decide

lemma first_hash : Devnet.first.hash = Devnet.first.calculateHash := Devnet.first_hash

lemma rival_hash : Devnet.rival.hash = Devnet.rival.calculateHash := Devnet.rival_hash

lemma verify_proposal : Devnet.firstProposal.verify = .ok () := by
  have hkey : Devnet.validatorKey ∈ keys := List.mem_cons_self
  have hid : Devnet.firstProposal.proposerId = hexEncode Devnet.validatorKey := rfl
  obtain ⟨r, s, hsignature⟩ : ∃ r s, Devnet.firstProposal.signature = Devnet.signature r s :=
    ⟨_, _, rfl⟩
  simp only [SignedProposal.verify, bind_eq_ok, ensure_eq_ok]
  refine ⟨(), rfl, (), first_hash, ?_⟩
  rw [hid, hsignature]
  refine verifySignature_of_mem hkey ?_
  rw [← hid, ← hsignature]
  exact List.mem_cons_self

lemma mem_votes {v : Voter} (hv : v ∈ voters) {m : ConsensusMessage}
    (hm : m ∈ [v.prevote, v.precommit]) : m ∈ votes :=
  List.mem_append_left _ (List.mem_append_left _ (List.mem_flatMap.mpr ⟨v, hv, hm⟩))

/-- The two votes of a validator for the first block. -/
lemma isVote_voter {v : Voter} (hv : v ∈ voters) :
    IsVote v.id 1 0 .prevote Devnet.first.hash v.prevote ∧
      IsVote v.id 1 0 .precommit Devnet.first.hash v.precommit := by
  have h := isVote (mem_votes hv (m := v.prevote) (by simp))
  have h' := isVote (mem_votes hv (m := v.precommit) (by simp))
  have hshape : v.prevote.validatorId = v.id ∧ v.prevote.voteType = .prevote ∧
      v.prevote.blockHash = Devnet.first.hash ∧ v.precommit.validatorId = v.id ∧
      v.precommit.voteType = .precommit ∧ v.precommit.blockHash = Devnet.first.hash := by
    simp only [voters, List.mem_cons, List.not_mem_nil, or_false] at hv
    rcases hv with rfl | rfl | rfl | rfl <;> exact ⟨rfl, rfl, rfl, rfl, rfl, rfl⟩
  obtain ⟨hid, htype, hhash, hid', htype', hhash'⟩ := hshape
  rw [hid, htype, hhash] at h
  rw [hid', htype', hhash'] at h'
  exact ⟨h, h'⟩

/-- A node answers the proposal of the first block with its prevote. -/
lemma node_receiveProposal {v : Voter} (hv : v ∈ voters) : ∃ r,
    (node v.id).receiveProposal (Devnet.reading v.prevote.signature) Devnet.firstProposal =
      (.ok v.prevote, r) ∧
    ConsensusRuntime.Collecting validators v.id Devnet.first ∅ r := by
  have hbounded : sumPower validators < 2 ^ 63 := by
    rw [sumPower_validators]
    decide
  have hproposer : Devnet.validator ∈ idsOf validators := mem_idsOf (v := first) List.mem_cons_self
  exact (node_started v.id).receiveProposal hbounded _ rfl hproposer (expectedProposer_node _)
    verify_proposal (node_fits _) (isVote_voter hv).1 rfl

/-- A node that receives the proposal and the prevotes of three validators signs a prevote and a
precommit. -/
lemma node_signs {v a b c : Voter} (hv : v ∈ voters) (ha : a ∈ voters) (hb : b ∈ voters)
    (hc : c ∈ voters) (hdistinct : [a.key, b.key, c.key].Nodup) : ∃ r₁ r₂ r₃ r₄,
    (node v.id).step (fun _ => Devnet.reading v.prevote.signature)
      (.receiveProposal Devnet.firstProposal) = ([v.prevote], r₁) ∧
    r₁.step (fun _ => Devnet.reading "") (.receiveVote a.prevote) = ([], r₂) ∧
    r₂.step (fun _ => Devnet.reading "") (.receiveVote b.prevote) = ([], r₃) ∧
    r₃.step (fun _ => Devnet.reading v.precommit.signature) (.receiveVote c.prevote) =
      ([v.precommit], r₄) := by
  have hids : [a.id, b.id, c.id].Nodup :=
    show ([a.key, b.key, c.key].map hexEncode).Nodup from hdistinct.map hexEncode_injective
  obtain ⟨hab, hac, hbc⟩ : a.id ≠ b.id ∧ a.id ≠ c.id ∧ b.id ≠ c.id := by
    simpa [and_assoc] using hids
  have hone : (insert a.id (∅ : Finset String)).card = 1 := rfl
  have hb' : b.id ∉ insert a.id (∅ : Finset String) := by simpa using hab.symm
  have htwo := Finset.card_insert_of_notMem hb'
  have hc' : c.id ∉ insert b.id (insert a.id (∅ : Finset String)) := by
    simpa using ⟨hbc.symm, hac.symm⟩
  have hthree := Finset.card_insert_of_notMem hc'
  have hshort : ∀ q ⊆ idsOf validators, q.card < 3 →
      3 * weight (powerIn validators) q ≤ 2 * sumPower validators := fun q hq hcard =>
    not_lt.mp fun h => absurd ((quorum_iff hq).mp h) (not_le.mpr hcard)
  have hsub := Finset.insert_subset (mem_idsOf ha) (Finset.empty_subset _)
  have hsub' := Finset.insert_subset (mem_idsOf hb) hsub
  obtain ⟨r₁, hproposal, h₁⟩ := node_receiveProposal hv
  obtain ⟨r₂, hfirst, h₂⟩ := h₁.receiveVote (Devnet.reading "") (isVote_voter ha).1 (mem_idsOf ha)
    (Finset.notMem_empty _) (hshort _ hsub (by omega))
  obtain ⟨r₃, hsecond, h₃⟩ := h₂.receiveVote (Devnet.reading "") (isVote_voter hb).1 (mem_idsOf hb)
    hb' (hshort _ hsub' (by omega))
  obtain ⟨r₄, hthird⟩ := h₃.receiveVote_quorum (Devnet.reading v.precommit.signature)
    (isVote_voter hc).1 (mem_idsOf hc) hc'
    ((quorum_iff (Finset.insert_subset (mem_idsOf hc) hsub')).mpr (by omega))
    (isVote_voter hv).2 rfl
  exact ⟨r₁, r₂, r₃, r₄, ConsensusRuntime.step_receiveProposal hproposal,
    ConsensusRuntime.step_receiveVote none hfirst, ConsensusRuntime.step_receiveVote none hsecond,
    ConsensusRuntime.step_receiveVote (some v.precommit) hthird⟩

end Quartet

end IeumChain
