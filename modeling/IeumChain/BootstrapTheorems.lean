import IeumChain.Bootstrap
import IeumChain.FinalisationTheorems
import IeumChain.ProposerTheorems
import IeumChain.RewardTheorems

/-!
# The first validators are agreed, and their rewards

At the genesis block every node that heard of a new registration has the four registered validators
with the smallest ids, whatever came in which order and how often. Two nodes that heard of the same
validators have the same ones (`validators_converge`).

The registrations are also the proofs of the two built-in rewards. Signatures and node keys were
checked when they came in, so a reward that the loop puts into a block passes the check of the
validators but for what was not checked then (`builtin_rewards_accepted`): two validators may have
registered with one peer id, and a node with an address that cannot be rewarded or with that of
another node. As the loop puts the reward into every block, such a registration stops the chain.
-/

namespace IeumChain

open Lib

section
variable [Primitives]

namespace ConsensusRuntime

/-- An operation keeps the validators, and the chain does not get shorter. -/
lemma step_frame {r : ConsensusRuntime} (hsound : Sound (fun _ => True) r) (env : ℕ → Reading)
    (op : Op) : (r.step env op).2.validators = r.validators ∧
      r.chain.tipHeight.toNat ≤ (r.step env op).2.chain.tipHeight.toNat := by
  have hrun := run_induction (P := fun r' => r'.validators = r.validators ∧
    r.chain.tipHeight.toNat ≤ r'.chain.tipHeight.toNat) ?_ [(env, op)] hsound ⟨rfl, le_rfl⟩
  · exact hrun.2
  · rintro r₁ r₂ signed ⟨hvalidators, hle⟩ hmove
    cases hmove with
    | vote env m consensus _ hhandle =>
      obtain ⟨_, _, _, heq⟩ := afterVote_eq r₁ env m consensus
      rw [heq]
      exact ⟨hvalidators, hle⟩
    | commit b chain _ _ hchain =>
      obtain ⟨_, htip⟩ := Blockchain.tipHeight_applyBlock hchain
      exact ⟨hvalidators, hle.trans (by show _ ≤ chain.tipHeight.toNat; omega)⟩
    | sync now c chain _ _ hchain =>
      obtain ⟨_, htip⟩ := Blockchain.tipHeight_applyBlock hchain
      exact ⟨hvalidators, hle.trans (by show _ ≤ chain.tipHeight.toNat; omega)⟩
    | _ => exact ⟨hvalidators, hle⟩

/-- New validators leave the chain as it is. -/
lemma replaceBootstrapValidators_frame {r r' : ConsensusRuntime} {env : Reading}
    {validators : List Validator} (hsound : Sound (fun _ => True) r)
    (h : r.replaceBootstrapValidators env validators = .ok r') :
    Sound (fun _ => True) r' ∧ r'.chain = r.chain ∧ r'.validators = validators := by
  simp only [replaceBootstrapValidators, bind_eq_ok, ensure_eq_ok, pure_eq_ok] at h
  obtain ⟨_, _, c, hnew, c', hround, rfl⟩ := h
  obtain ⟨map, total, rfl, _⟩ := BftConsensus.new_startRound hnew hround (by decide)
  exact ⟨⟨Nat.le_add_left _ _, hsound.deferred⟩, rfl, rfl⟩

/-- At the genesis block and without a candidate, any list that a machine can run is taken. -/
lemma replaceBootstrapValidators_isOk {r : ConsensusRuntime} (env : Reading)
    {validators : List Validator} (htip : r.chain.tipHeight = 0) (hpending : r.pending = none)
    (hnew : ∃ c, BftConsensus.new validators = .ok c) :
    ∃ r', r.replaceBootstrapValidators env validators = .ok r' ∧ r'.chain = r.chain ∧
      r'.pending = none := by
  obtain ⟨c, hc⟩ := hnew
  obtain ⟨_, _, _, rfl⟩ := BftConsensus.new_eq_ok hc
  simp only [replaceBootstrapValidators, hc, htip, hpending, and_self, ensure, if_true]
  exact ⟨_, rfl, rfl, rfl⟩

end ConsensusRuntime

/-- The validator's key signed the registration. -/
def ValidatorRegistration.Verified (r : ValidatorRegistration) : Prop :=
  verifySignature r.validatorId (ValidatorRegistration.bytesToSign r.validatorId r.peerId)
    r.signatureHex = .ok ()

/-- The named signer and the node's key signed the registration. -/
structure NodeRewardRegistration.Verified (r : NodeRewardRegistration) : Prop where
  signed : verifySignature r.signer
    (NodeRewardRegistration.bytesToSign r.rewardAddress r.peerId) r.signatureHex = .ok ()
  identity : r.verifyNodeIdentity = .ok ()

lemma verifyValidatorRegistration_ok {isPeerId : String → Bool} {r : ValidatorRegistration}
    (h : isOk (verifyValidatorRegistration isPeerId r) = true) : r.Verified := by
  obtain ⟨_, hok⟩ := isOk_iff.mp h
  simp only [verifyValidatorRegistration, bind_eq_ok, mapError_eq_ok] at hok
  obtain ⟨_, _, hsigned⟩ := hok
  exact hsigned

lemma checkRewardRegistration_ok {source : String} {r : NodeRewardRegistration}
    (h : isOk (checkRewardRegistration source r) = true) : r.Verified := by
  obtain ⟨_, hok⟩ := isOk_iff.mp h
  simp only [checkRewardRegistration, bind_eq_ok, mapError_eq_ok] at hok
  obtain ⟨_, _, _, hsigned, hidentity⟩ := hok
  exact ⟨hsigned, hidentity⟩

namespace Bootstrap
variable {isPeerId : String → Bool} {s s' : Bootstrap}

/-! ## What every state has -/

/-- What holds in every state of a run: the loop and the runtime have the same validators, and every
registration stands under its own key and was signed. -/
structure Formed (s : Bootstrap) : Prop where
  sound : ConsensusRuntime.Sound (fun _ => True) s.runtime
  certified : s.runtime.Certified
  same : s.runtime.validators = s.validators
  keyed : ∀ id r, s.registrations.lookup id = some r → r.validatorId = id ∧ r.Verified
  rewards : ∀ id r, s.nodeRewardRegistrations.lookup id = some r → r.peerId = id ∧ r.Verified

/-- The validators are the registered ones with the smallest ids. -/
def Chosen (s : Bootstrap) : Prop :=
  (s.validators.map Validator.id).insertionSort (· ≤ ·)
    = (sortedList s.registrations.keys).take 4

omit [Primitives] in
lemma map_selected (registrations : HashMap String ValidatorRegistration) :
    (selected registrations).map Validator.id = (sortedList registrations.keys).take 4 := by
  rw [selected, List.map_map]
  exact List.map_id _

omit [Primitives] in
/-- The selected validators come in order. -/
lemma insertionSort_selected (registrations : HashMap String ValidatorRegistration) :
    ((selected registrations).map Validator.id).insertionSort (· ≤ ·)
      = (sortedList registrations.keys).take 4 := by
  rw [map_selected]
  have hsorted := (pairwise_sortedList registrations.keys).sublist (List.take_sublist 4 _)
  exact (hsorted.imp fun h => h.le).insertionSort_eq

/-- What the selected validators take over. -/
structure TakesOver (s s' : Bootstrap) : Prop where
  registrations : s'.registrations = s.registrations
  isClient : s'.isClient = s.isClient
  chain : s'.runtime.chain = s.runtime.chain
  chosen : 4 ≤ s.registrations.keys.card → s.runtime.chain.tipHeight = 0 → s'.Chosen
  formed : s.Formed → s'.Formed

lemma takeOver_ok {env : Reading} {saved : Result Unit} (h : s.takeOver env saved = .ok s') :
    s.TakesOver s' := by
  unfold takeOver at h
  split at h
  next hready =>
    dsimp only at h
    split at h
    · simp only [bind_eq_ok, pure_eq_ok] at h
      obtain ⟨r, hreplace, _, _, rfl⟩ := h
      refine ⟨rfl, rfl, ?_, fun _ _ => insertionSort_selected s.registrations, fun hs => ?_⟩
      · simp only [ConsensusRuntime.replaceBootstrapValidators, bind_eq_ok, pure_eq_ok] at hreplace
        obtain ⟨_, _, _, _, _, _, rfl⟩ := hreplace
        rfl
      · obtain ⟨hsound, _, hvalidators⟩ :=
          ConsensusRuntime.replaceBootstrapValidators_frame hs.sound hreplace
        exact ⟨hsound, hs.certified.replace hreplace, hvalidators, hs.keyed, hs.rewards⟩
    next hcurrent =>
      obtain rfl := Except.ok.inj h
      refine ⟨rfl, rfl, rfl, fun _ _ => ?_, id⟩
      rw [Chosen, Decidable.not_not.mp hcurrent, map_selected]
  next hnot =>
    obtain rfl := Except.ok.inj h
    exact ⟨rfl, rfl, rfl, fun hfour htip => absurd ⟨hfour, htip⟩ hnot, id⟩

namespace Formed

/-- A verified registration is added under its id. -/
lemma insert (h : s.Formed) {r : ValidatorRegistration} (hr : r.Verified) :
    Formed { s with registrations := s.registrations.insert r.validatorId r } := by
  refine ⟨h.sound, h.certified, h.same, fun id found hfound => ?_, h.rewards⟩
  rw [HashMap.lookup_insert] at hfound
  split at hfound
  next hid =>
    obtain rfl := Option.some.inj hfound
    exact ⟨hid.symm, hr⟩
  next => exact h.keyed id found hfound

lemma step (h : s.Formed) {e : Event} (hok : s.step isPeerId e = .ok s') : s'.Formed := by
  cases e with
  | operation env op =>
    obtain rfl := Except.ok.inj hok
    obtain ⟨hsound, hcertified⟩ := ConsensusRuntime.run_induction
      (fun hr hmove => hr.move hmove) [(env, op)] h.sound h.certified
    obtain ⟨hvalidators, _⟩ := ConsensusRuntime.step_frame h.sound env op
    exact ⟨hsound, hcertified, hvalidators.trans h.same, h.keyed, h.rewards⟩
  | validatorRegistration env saved r =>
    unfold Bootstrap.step onValidatorRegistration at hok
    dsimp only at hok
    split at hok
    · obtain rfl := Except.ok.inj hok
      exact h
    · split at hok
      next hverified =>
        exact (takeOver_ok hok).formed (h.insert (verifyValidatorRegistration_ok hverified))
      next =>
        obtain rfl := Except.ok.inj hok
        exact h
  | nodeRewardRegistration source r =>
    obtain rfl := Except.ok.inj hok
    unfold onNodeRewardRegistration
    split
    next hverified =>
      refine ⟨h.sound, h.certified, h.same, h.keyed, fun id found hfound => ?_⟩
      rw [HashMap.lookup_insert] at hfound
      split at hfound
      next hid =>
        obtain rfl := Option.some.inj hfound
        exact ⟨hid.symm, checkRewardRegistration_ok hverified⟩
      next => exact h.rewards id found hfound
    next => exact h

lemma run (events : List Event) : ∀ {s s' : Bootstrap}, s.Formed →
    s.run isPeerId events = .ok s' → s'.Formed := by
  intro s s' h hok
  exact foldlM_induction Formed (fun _ _ _ h hok => h.step hok) events s s' h hok

end Formed

/-! ## Which validators are known -/

/-- A node that was started with some registrations of its own, after a run. -/
structure Reached (isPeerId : String → Bool) (own : ValidatorRegistration) (events : List Event)
    (s : Bootstrap) : Prop where
  started : ∃ chain schedule validator runtime validators ownReward,
    ConsensusRuntime.Started chain validators schedule validator runtime ∧
      own.Verified ∧ NodeRewardRegistration.Verified ownReward ∧
      (start runtime validators false (some own) ownReward).run isPeerId events = .ok s

/-- A registration of the validator came in and was signed. -/
def Heard (isPeerId : String → Bool) (events : List Event) (id : String) : Prop :=
  ∃ env saved r, Event.validatorRegistration env saved r ∈ events ∧
    isOk (verifyValidatorRegistration isPeerId r) = true ∧ r.validatorId = id

/-- The validators that a node knows of: itself, and those it heard of. -/
def Known (isPeerId : String → Bool) (own : ValidatorRegistration) (events : List Event)
    (id : String) : Prop :=
  id = own.validatorId ∨ Heard isPeerId events id

lemma heard_cons {e : Event} {rest : List Event} {id : String} :
    Heard isPeerId (e :: rest) id ↔ Heard isPeerId [e] id ∨ Heard isPeerId rest id := by
  constructor
  · rintro ⟨env, saved, r, hmem, hr⟩
    rcases List.mem_cons.mp hmem with hfirst | hrest
    · exact .inl ⟨env, saved, r, List.mem_singleton.mpr hfirst, hr⟩
    · exact .inr ⟨env, saved, r, hrest, hr⟩
  · rintro (⟨env, saved, r, hmem, hr⟩ | ⟨env, saved, r, hmem, hr⟩)
    · exact ⟨env, saved, r, List.mem_singleton.mp hmem ▸ List.mem_cons_self, hr⟩
    · exact ⟨env, saved, r, List.mem_cons_of_mem _ hmem, hr⟩

/-- What one turn does to the known validators and to the selected ones. -/
structure Turn (isPeerId : String → Bool) (s : Bootstrap) (e : Event) (s' : Bootstrap) : Prop where
  isClient : s'.isClient = s.isClient
  known : ∀ id, id ∈ s'.registrations ↔ id ∈ s.registrations ∨ Heard isPeerId [e] id
  height : s.runtime.chain.tipHeight.toNat ≤ s'.runtime.chain.tipHeight.toNat
  chosen : ∀ id, Heard isPeerId [e] id → 4 ≤ s'.registrations.keys.card →
    s'.runtime.chain.tipHeight = 0 → s'.Chosen
  kept : (∀ id, ¬ Heard isPeerId [e] id) → s.Chosen → s'.Chosen

/-- A turn without a new registration keeps both. -/
lemma Turn.of_same {e : Event} (hclient : s'.isClient = s.isClient)
    (hregistrations : s'.registrations = s.registrations)
    (hvalidators : s'.validators = s.validators)
    (hheight : s.runtime.chain.tipHeight.toNat ≤ s'.runtime.chain.tipHeight.toNat)
    (hnone : ∀ id, ¬ Heard isPeerId [e] id) : Turn isPeerId s e s' where
  isClient := hclient
  known id := by
    rw [hregistrations]
    exact (or_iff_left (hnone id)).symm
  height := hheight
  chosen id hid := absurd hid (hnone id)
  kept _ h := by rwa [Chosen, hregistrations, hvalidators]

lemma turn_of_step (h : s.Formed) (hclient : s.isClient = false) {e : Event}
    (hok : s.step isPeerId e = .ok s') : Turn isPeerId s e s' := by
  cases e with
  | operation env op =>
    obtain rfl := Except.ok.inj hok
    obtain ⟨_, hheight⟩ := ConsensusRuntime.step_frame h.sound env op
    refine .of_same rfl rfl rfl hheight ?_
    rintro id ⟨_, _, _, hmem, _⟩
    cases List.mem_singleton.mp hmem
  | validatorRegistration env saved r =>
    simp only [Bootstrap.step, onValidatorRegistration, hclient, Bool.false_eq_true,
      if_false] at hok
    have hheard : ∀ id, Heard isPeerId [.validatorRegistration env saved r] id ↔
        isOk (verifyValidatorRegistration isPeerId r) = true ∧ r.validatorId = id := by
      intro id
      constructor
      · rintro ⟨_, _, _, hmem, hr⟩
        obtain ⟨rfl, rfl, rfl⟩ := Event.validatorRegistration.inj (List.mem_singleton.mp hmem)
        exact hr
      · exact fun hr => ⟨env, saved, r, List.mem_singleton_self _, hr⟩
    split at hok
    next hverified =>
      have htakes := takeOver_ok hok
      refine ⟨htakes.isClient.trans hclient.symm, fun id => ?_, by rw [htakes.chain],
        fun id _ hfour htip => ?_, fun hnone => absurd ((hheard _).mpr ⟨hverified, rfl⟩) (hnone _)⟩
      · rw [htakes.registrations, Finmap.mem_insert, hheard]
        exact ⟨fun hmem => hmem.symm.imp_right fun heq => ⟨hverified, heq.symm⟩,
          fun hmem => hmem.symm.imp_left fun heq => heq.2.symm⟩
      · rw [htakes.registrations] at hfour
        rw [htakes.chain] at htip
        exact htakes.chosen hfour htip
    next hrefused =>
      obtain rfl := Except.ok.inj hok
      exact .of_same rfl rfl rfl le_rfl fun id hid => hrefused ((hheard id).mp hid).1
  | nodeRewardRegistration source r =>
    obtain rfl := Except.ok.inj hok
    -- node registrations name no validator
    have hnone : ∀ id, ¬ Heard isPeerId [.nodeRewardRegistration source r] id := by
      rintro id ⟨_, _, _, hmem, _⟩
      cases List.mem_singleton.mp hmem
    unfold onNodeRewardRegistration
    split
    · exact .of_same rfl rfl rfl le_rfl hnone
    · exact .of_same rfl rfl rfl le_rfl hnone

/-- What a run does: the last registration that was heard of selects the validators. -/
lemma run_known (events : List Event) : ∀ {s s' : Bootstrap}, s.Formed → s.isClient = false →
    s.run isPeerId events = .ok s' →
    (∀ id, id ∈ s'.registrations ↔ id ∈ s.registrations ∨ Heard isPeerId events id) ∧
    s.runtime.chain.tipHeight.toNat ≤ s'.runtime.chain.tipHeight.toNat ∧
    (4 ≤ s'.registrations.keys.card → s'.runtime.chain.tipHeight = 0 →
      (s.Chosen ∨ ∃ id, Heard isPeerId events id) → s'.Chosen) := by
  induction events with
  | nil =>
    intro s s' _ _ hok
    obtain rfl := Except.ok.inj hok
    have hnone : ∀ id, ¬ Heard isPeerId [] id := fun id ⟨_, _, _, hmem, _⟩ => List.not_mem_nil hmem
    refine ⟨fun id => (or_iff_left (hnone id)).symm, le_rfl, fun _ _ hchosen => ?_⟩
    exact hchosen.resolve_right fun ⟨id, hid⟩ => hnone id hid
  | cons e rest ih =>
    intro s s' hformed hclient hok
    obtain ⟨mid, hstep, hrest⟩ := foldlM_cons_eq_ok.mp hok
    have hturn := turn_of_step hformed hclient hstep
    obtain ⟨hknown, hheight, hchosen⟩ :=
      ih (hformed.step hstep) (hturn.isClient.trans hclient) hrest
    refine ⟨fun id => ?_, hturn.height.trans hheight, fun hfour htip hwhy => ?_⟩
    · rw [heard_cons, ← or_assoc]
      exact (hknown id).trans (or_congr_left (hturn.known id))
    · refine hchosen hfour htip ?_
      by_cases hlater : ∃ id, Heard isPeerId rest id
      · exact .inr hlater
      · -- nothing new comes in later, so that what is known now is known then
        have hkeys : mid.registrations.keys = s'.registrations.keys := by
          ext id
          rw [Finmap.mem_keys, Finmap.mem_keys, hknown]
          exact (or_iff_left fun hid => hlater ⟨id, hid⟩).symm
        have hgenesis : mid.runtime.chain.tipHeight = 0 := by
          rw [htip] at hheight
          exact UInt64.toNat_inj.mp (Nat.le_zero.mp hheight)
        by_cases hnow : ∃ id, Heard isPeerId [e] id
        · obtain ⟨id, hid⟩ := hnow
          exact .inl (hturn.chosen id hid (hkeys ▸ hfour) hgenesis)
        · have hnone : ∀ id, ¬ Heard isPeerId [e] id := fun id hid => hnow ⟨id, hid⟩
          refine .inl (hturn.kept hnone (hwhy.resolve_right ?_))
          rintro ⟨id, hid⟩
          exact (heard_cons.mp hid).elim (hnone id) fun hid => hlater ⟨id, hid⟩

omit [Primitives] in
lemma lookup_single {V : Type} {key id : String} {v found : V}
    (h : ((∅ : HashMap String V).insert key v).lookup id = some found) : key = id ∧ v = found := by
  rw [HashMap.lookup_insert] at h
  split at h
  next hid => exact ⟨hid.symm, Option.some.inj h⟩
  next =>
    rw [Finmap.lookup_empty] at h
    cases h

lemma formed_start {chain : Blockchain} {schedule : EventSchedule} {validator : String}
    {runtime : ConsensusRuntime} {validators : List Validator} {own : ValidatorRegistration}
    {ownReward : NodeRewardRegistration}
    (hstarted : ConsensusRuntime.Started chain validators schedule validator runtime)
    (hown : own.Verified) (hreward : ownReward.Verified) :
    (start runtime validators false (some own) ownReward).Formed := by
  obtain ⟨hsound, hcertified⟩ := ConsensusRuntime.certified_calls hstarted []
  have hvalidators : runtime.validators = validators := by
    obtain ⟨_, _, _, _, _, _, _, _, rfl⟩ := hstarted.eq
    rfl
  refine ⟨hsound, hcertified, hvalidators, fun id r hr => ?_, fun id r hr => ?_⟩
  · obtain ⟨rfl, rfl⟩ := lookup_single hr
    exact ⟨rfl, hown⟩
  · obtain ⟨rfl, rfl⟩ := lookup_single hr
    exact ⟨rfl, hreward⟩

namespace Reached
variable {own : ValidatorRegistration} {events : List Event}

lemma formed (h : Reached isPeerId own events s) : s.Formed := by
  obtain ⟨_, _, _, _, _, _, hstarted, hown, hreward, hrun⟩ := h.started
  exact (formed_start hstarted hown hreward).run events hrun

/-- The registered validators are the known ones, and at the genesis block they are selected. -/
lemma chosen (h : Reached isPeerId own events s) :
    (∀ id, id ∈ s.registrations ↔ Known isPeerId own events id) ∧
    (4 ≤ s.registrations.keys.card → s.runtime.chain.tipHeight = 0 →
      (∃ id, Heard isPeerId events id) → s.Chosen) := by
  obtain ⟨_, _, _, _, _, _, hstarted, hown, hreward, hrun⟩ := h.started
  obtain ⟨hknown, _, hchosen⟩ := run_known events (formed_start hstarted hown hreward) rfl hrun
  refine ⟨fun id => ?_, fun hfour htip hheard => hchosen hfour htip (.inr hheard)⟩
  refine (hknown id).trans (or_congr_left ?_)
  rw [start, Finmap.mem_insert]
  exact or_iff_left (Finmap.notMem_empty)

end Reached

/-- Who knows of another validator heard of it. -/
lemma exists_heard {isPeerId : String → Bool} {own : ValidatorRegistration} {events : List Event}
    {registrations : HashMap String ValidatorRegistration}
    (hmem : ∀ id, id ∈ registrations ↔ Known isPeerId own events id)
    (hmany : 1 < registrations.keys.card) : ∃ id, Heard isPeerId events id := by
  obtain ⟨id, hid, hother⟩ := Finset.exists_mem_ne hmany own.validatorId
  exact ⟨id, ((hmem id).mp (Finmap.mem_keys.mp hid)).resolve_left hother⟩

/-- **The first validators are agreed.** Two nodes at the genesis block that know of the same four
validators or more have the same validators: the four known ones with the smallest ids, all of which
signed a registration. The registrations may come in any order and number, with refused ones in
between, and whatever else the nodes do. -/
theorem validators_converge (isPeerId : String → Bool) (own own' : ValidatorRegistration)
    (events events' : List Event) (s s' : Bootstrap) (hs : Reached isPeerId own events s)
    (hs' : Reached isPeerId own' events' s')
    (hknown : ∀ id, Known isPeerId own events id ↔ Known isPeerId own' events' id)
    (hgenesis : s.runtime.chain.tipHeight = 0) (hgenesis' : s'.runtime.chain.tipHeight = 0)
    (hfour : 4 ≤ s.registrations.keys.card) :
    ∃ ids : List String, ids.length = 4 ∧ ids.Pairwise (· < ·) ∧
      (s.runtime.validators.map Validator.id).Perm ids ∧
      (s'.runtime.validators.map Validator.id).Perm ids ∧
      (∀ id ∈ ids, Known isPeerId own events id ∧
        ∃ r : ValidatorRegistration, r.validatorId = id ∧ r.Verified) ∧
      ∀ id, Known isPeerId own events id → id ∉ ids → ∀ id' ∈ ids, id' < id := by
  obtain ⟨hmem, hchosen⟩ := hs.chosen
  obtain ⟨hmem', hchosen'⟩ := hs'.chosen
  -- both have heard of the same ids, and nothing but the ids decides
  have hkeys : s'.registrations.keys = s.registrations.keys := by
    ext id
    rw [Finmap.mem_keys, Finmap.mem_keys, hmem, hmem', hknown]
  have hheard := exists_heard hmem (lt_of_lt_of_le (by decide) hfour)
  have hheard' := exists_heard hmem' (lt_of_lt_of_le (by decide) (hkeys ▸ hfour))
  have hsorted := pairwise_sortedList s.registrations.keys
  have hlength : 4 ≤ (sortedList s.registrations.keys).length := by rwa [length_sortedList]
  have hperm : ∀ {s : Bootstrap}, s.Formed → s.Chosen →
      (s.runtime.validators.map Validator.id).Perm ((sortedList s.registrations.keys).take 4) := by
    intro s hformed hids
    rw [hformed.same, ← hids]
    exact (List.perm_insertionSort (· ≤ ·) _).symm
  refine ⟨(sortedList s.registrations.keys).take 4, ?_, hsorted.sublist (List.take_sublist 4 _),
    hperm hs.formed (hchosen hfour hgenesis hheard), ?_, fun id hid => ?_, ?_⟩
  · rw [List.length_take, min_eq_left hlength]
  · rw [← hkeys]
    exact hperm hs'.formed (hchosen' (hkeys ▸ hfour) hgenesis' hheard')
  · have hregistered : id ∈ s.registrations :=
      Finmap.mem_keys.mp (mem_sortedList.mp (List.mem_of_mem_take hid))
    obtain ⟨r, hr⟩ := Finmap.mem_iff.mp hregistered
    exact ⟨(hmem id).mp hregistered, r, hs.formed.keyed id r hr⟩
  · intro id hid hnot id' hid'
    have hlisted : id ∈ sortedList s.registrations.keys :=
      mem_sortedList.mpr (Finmap.mem_keys.mpr ((hmem id).mpr hid))
    rw [← List.take_append_drop 4 (sortedList s.registrations.keys)] at hsorted hlisted
    have hrest := (List.mem_append.mp hlisted).resolve_left hnot
    exact (List.pairwise_append.mp hsorted).2.2 id' hid' id hrest

/-! ## The built-in rewards -/

omit [Primitives] in
/-- A loop that checks each element and that two of its texts are new. -/
lemma foldlM_fresh {α : Type} {Valid : α → Prop} {peer address : α → String}
    {check : Finset String × Finset String → α → Result (Finset String × Finset String)}
    (hcheck : ∀ seen a seen', check seen a = .ok seen' ↔
      Valid a ∧ peer a ∉ seen.1 ∧ address a ∉ seen.2 ∧
        seen' = (insert (peer a) seen.1, insert (address a) seen.2)) (l : List α) :
    ∀ seen, (∃ seen', l.foldlM check seen = .ok seen') ↔
      (∀ a ∈ l, Valid a ∧ peer a ∉ seen.1 ∧ address a ∉ seen.2) ∧ (l.map peer).Nodup ∧
        (l.map address).Nodup := by
  induction l with
  | nil => exact fun seen => ⟨fun _ => by simp, fun _ => ⟨seen, rfl⟩⟩
  | cons a rest ih =>
    intro seen
    -- `check` on the first, then on the rest with its two texts seen
    have hsplit : (∃ seen', (a :: rest).foldlM check seen = .ok seen') ↔
        Valid a ∧ peer a ∉ seen.1 ∧ address a ∉ seen.2 ∧
          ∃ seen', rest.foldlM check (insert (peer a) seen.1, insert (address a) seen.2)
            = .ok seen' := by
      constructor
      · rintro ⟨seen', hfold⟩
        obtain ⟨mid, hmid, hrest⟩ := foldlM_cons_eq_ok.mp hfold
        obtain ⟨hvalid, hpeer, haddress, rfl⟩ := (hcheck seen a mid).mp hmid
        exact ⟨hvalid, hpeer, haddress, seen', hrest⟩
      · rintro ⟨hvalid, hpeer, haddress, seen', hrest⟩
        exact ⟨seen', foldlM_cons_eq_ok.mpr
          ⟨_, (hcheck seen a _).mpr ⟨hvalid, hpeer, haddress, rfl⟩, hrest⟩⟩
    rw [hsplit, ih, List.forall_mem_cons, List.map_cons, List.map_cons, List.nodup_cons,
      List.nodup_cons, List.mem_map, List.mem_map]
    simp only [Finset.mem_insert, not_or]
    constructor
    · rintro ⟨hvalid, hpeer, haddress, hrest, hpeers, haddresses⟩
      refine ⟨⟨⟨hvalid, hpeer, haddress⟩, fun b hb => ?_⟩, ⟨?_, hpeers⟩, ?_, haddresses⟩
      · exact ⟨(hrest b hb).1, (hrest b hb).2.1.2, (hrest b hb).2.2.2⟩
      · rintro ⟨b, hb, heq⟩
        exact (hrest b hb).2.1.1 heq
      · rintro ⟨b, hb, heq⟩
        exact (hrest b hb).2.2.1 heq
    · rintro ⟨⟨⟨hvalid, hpeer, haddress⟩, hrest⟩, ⟨hpeers, hnodup⟩, haddresses, hnodup'⟩
      refine ⟨hvalid, hpeer, haddress, fun b hb => ?_, hnodup, hnodup'⟩
      obtain ⟨hb₁, hb₂, hb₃⟩ := hrest b hb
      exact ⟨hb₁, ⟨fun heq => hpeers ⟨b, hb, heq⟩, hb₂⟩, fun heq => haddresses ⟨b, hb, heq⟩, hb₃⟩

/-- The proofs of validators that registered with different peers are valid. -/
lemma checkValidatorRegistrations_iff (l : List ValidatorRegistration) :
    (∃ seen, l.foldlM checkValidatorRegistration (∅, ∅) = .ok seen) ↔
      (∀ r ∈ l, r.Verified) ∧ (l.map ValidatorRegistration.peerId).Nodup ∧
        (l.map ValidatorRegistration.validatorId).Nodup := by
  rw [@foldlM_fresh _ ValidatorRegistration.Verified ValidatorRegistration.peerId
    ValidatorRegistration.validatorId]
  · simp
  · intro seen r seen'
    simp only [checkValidatorRegistration, bind_eq_ok, ensure_eq_ok, pure_eq_ok,
      ValidatorRegistration.Verified]
    constructor
    · rintro ⟨_, ⟨hpeer, hid⟩, _, hsigned, rfl⟩
      exact ⟨hsigned, hpeer, hid, rfl⟩
    · rintro ⟨hsigned, hpeer, hid, rfl⟩
      exact ⟨(), ⟨hpeer, hid⟩, (), hsigned, rfl⟩

lemma checkNodeRegistrations_iff (l : List NodeRewardRegistration) :
    (∃ seen, l.foldlM checkNodeRegistration (∅, ∅) = .ok seen) ↔
      (∀ r ∈ l, validateRewardAddress r.rewardAddress = .ok () ∧ r.Verified) ∧
        (l.map NodeRewardRegistration.peerId).Nodup ∧
        (l.map NodeRewardRegistration.rewardAddress).Nodup := by
  rw [@foldlM_fresh _ (fun r => validateRewardAddress r.rewardAddress = .ok () ∧ r.Verified)
    NodeRewardRegistration.peerId NodeRewardRegistration.rewardAddress]
  · simp
  · intro seen r seen'
    simp only [checkNodeRegistration, bind_eq_ok, ensure_eq_ok, pure_eq_ok]
    constructor
    · rintro ⟨_, haddress, _, hidentity, _, ⟨hpeer, hnew⟩, _, hsigned, rfl⟩
      exact ⟨⟨haddress, hsigned, hidentity⟩, hpeer, hnew, rfl⟩
    · rintro ⟨⟨haddress, hsigned, hidentity⟩, hpeer, hnew, rfl⟩
      exact ⟨(), haddress, (), hidentity, (), ⟨hpeer, hnew⟩, (), hsigned, rfl⟩

namespace Formed

/-- The registered validators are proved by their own registrations. -/
lemma validatorProofs (h : s.Formed) : (∀ r ∈ s.validatorProofs, r.Verified) ∧
    s.validatorProofs.map ValidatorRegistration.validatorId
      = (s.validators.map Validator.id).filter fun id => decide (id ∈ s.registrations) := by
  constructor
  · intro r hr
    obtain ⟨v, _, hv⟩ := List.mem_filterMap.mp hr
    exact (h.keyed v.id r hv).2
  · unfold Bootstrap.validatorProofs
    induction s.validators with
    | nil => rfl
    | cons v rest ih =>
      rw [List.filterMap_cons, List.map_cons, List.filter_cons]
      cases hfound : s.registrations.lookup v.id with
      | none =>
        have hmissing : v.id ∉ s.registrations := Finmap.lookup_eq_none.mp hfound
        rw [if_neg (by simpa using hmissing), ← ih]
      | some r =>
        have hmem : v.id ∈ s.registrations := Finmap.mem_of_lookup_eq_some hfound
        rw [if_pos (by simpa using hmem), ← ih, List.map_cons, (h.keyed v.id r hfound).1]

/-- The validators are listed once. -/
lemma nodup_validators (h : s.Formed) : (s.validators.map Validator.id).Nodup := by
  rw [← h.same]
  exact h.certified.tallied.runs.registered.nodup

/-- The registered nodes are different peers. -/
lemma rewardProofs (h : s.Formed) : (∀ r ∈ s.rewardProofs, r.Verified) ∧
    (s.rewardProofs.map NodeRewardRegistration.peerId).Nodup := by
  constructor
  · intro r hr
    obtain ⟨⟨id, _⟩, hentry, rfl⟩ := List.mem_map.mp hr
    exact (h.rewards id _ (mem_sortedEntries.mp hentry)).2
  · have hkeys : s.rewardProofs.map NodeRewardRegistration.peerId
        = (sortedEntries s.nodeRewardRegistrations).map Prod.fst := by
      rw [Bootstrap.rewardProofs, List.map_map]
      refine List.map_congr_left fun entry hentry => ?_
      exact (h.rewards entry.1 entry.2 (mem_sortedEntries.mp hentry)).1
    rw [hkeys]
    exact nodup_sortedEntries _

/-- The reward of the first validators, as the loop puts it into a block. -/
lemma bootstrap_accepted (h : s.Formed) {executed : Finset String} {timestamp : UInt64}
    (htime : timestamp ≠ 0) (hnew : "ieum-bootstrap-validator-reward-v1" ∉ executed)
    (hproofs : s.validatorProofs.length = 4) :
    ConsensusRuntime.checkBuiltinEvent s.runtime.validators executed
      ⟨"ieum-bootstrap-validator-reward-v1", timestamp,
        .bootstrapValidatorReward s.validatorProofs (10 * 10 ^ 18)⟩ = .ok () ↔
      s.validators.length = 4 ∧
        (s.validatorProofs.map ValidatorRegistration.peerId).Nodup := by
  obtain ⟨hverified, hids⟩ := h.validatorProofs
  have hnodup : (s.validatorProofs.map ValidatorRegistration.validatorId).Nodup := by
    rw [hids]
    exact h.nodup_validators.filter _
  have hfold := checkValidatorRegistrations_iff s.validatorProofs
  simp only [ConsensusRuntime.checkBuiltinEvent, ScheduledEvent.validate,
    ScheduledEventAction.validate, bind_eq_ok, ensure_eq_ok, pure_eq_ok, h.same]
  constructor
  · rintro ⟨_, _, _, hsame, _, ⟨_, _, _, _, _, _, seen, hseen, _⟩, _⟩
    refine ⟨?_, (hfold.mp ⟨seen, hseen⟩).2.1⟩
    have hlength := congrArg List.length hsame
    rw [List.length_insertionSort, List.length_insertionSort, List.length_map, List.length_map,
      hproofs] at hlength
    exact hlength.symm
  · rintro ⟨hfour, hpeers⟩
    obtain ⟨seen, hseen⟩ := hfold.mpr ⟨hverified, hpeers, hnodup⟩
    -- with four validators and four proofs, every validator is registered
    have hall : s.validatorProofs.map ValidatorRegistration.validatorId
        = s.validators.map Validator.id := by
      have hlength := congrArg List.length hids
      rw [List.length_map, hproofs, ← hfour, ← List.length_map Validator.id] at hlength
      rw [hids, List.filter_eq_self]
      exact List.length_filter_eq_length_iff.mp hlength.symm
    refine ⟨(), trivial, (), by rw [hall], (), ⟨(), by decide, (), htime, (), ?_, seen, hseen,
      trivial⟩, hnew⟩
    exact ⟨hproofs, by decide⟩

/-- The reward of the first hundred nodes, as the loop puts it into a block. -/
lemma milestone_accepted (h : s.Formed) {executed : Finset String} {timestamp : UInt64}
    (htime : timestamp ≠ 0) (hnew : "ieum-node-100-reward-v1" ∉ executed)
    (hproofs : 100 ≤ s.rewardProofs.length) :
    ConsensusRuntime.checkBuiltinEvent s.runtime.validators executed
      ⟨"ieum-node-100-reward-v1", timestamp,
        .nodeMilestoneReward (s.rewardProofs.take 100) (10 ^ 18)⟩ = .ok () ↔
      (∀ r ∈ s.rewardProofs.take 100, validateRewardAddress r.rewardAddress = .ok ()) ∧
        ((s.rewardProofs.take 100).map NodeRewardRegistration.rewardAddress).Nodup := by
  obtain ⟨hverified, hpeers⟩ := h.rewardProofs
  have hfold := checkNodeRegistrations_iff (s.rewardProofs.take 100)
  have hlength : (s.rewardProofs.take 100).length = 100 := by
    rw [List.length_take, min_eq_left hproofs]
  simp only [ConsensusRuntime.checkBuiltinEvent, ScheduledEvent.validate,
    ScheduledEventAction.validate, bind_eq_ok, ensure_eq_ok, pure_eq_ok]
  constructor
  · rintro ⟨_, _, _, ⟨_, _, _, _, _, _, seen, hseen, _⟩, _⟩
    obtain ⟨hvalid, _, haddresses⟩ := hfold.mp ⟨seen, hseen⟩
    exact ⟨fun r hr => (hvalid r hr).1, haddresses⟩
  · rintro ⟨hvalid, haddresses⟩
    have htaken : ((s.rewardProofs.take 100).map NodeRewardRegistration.peerId).Nodup :=
      hpeers.sublist ((List.take_sublist 100 _).map _)
    obtain ⟨seen, hseen⟩ := hfold.mpr
      ⟨fun r hr => ⟨hvalid r hr, hverified r (List.mem_of_mem_take hr)⟩, htaken, haddresses⟩
    exact ⟨(), trivial, (), ⟨(), by decide, (), htime, (), ⟨hlength, by decide⟩, seen, hseen,
      trivial⟩, hnew⟩

end Formed

/-- What was not checked when the registrations came in: there are four validators, of different
peers, and the first hundred nodes have addresses that can be rewarded, all different. -/
structure Rewardable (s : Bootstrap) (executed : Finset String) : Prop where
  validators : "ieum-bootstrap-validator-reward-v1" ∉ executed → s.validatorProofs.length = 4 →
    s.validators.length = 4 ∧ (s.validatorProofs.map ValidatorRegistration.peerId).Nodup
  nodes : "ieum-node-100-reward-v1" ∉ executed → 100 ≤ s.rewardProofs.length →
    (∀ r ∈ s.rewardProofs.take 100, validateRewardAddress r.rewardAddress = .ok ()) ∧
      ((s.rewardProofs.take 100).map NodeRewardRegistration.rewardAddress).Nodup

/-- What the proposer adds to the due events of the schedule passes exactly if it can be paid. -/
lemma dueEvents_accepted (h : s.Formed) {p : Proposer} {t : Tick} (hruntime : p.runtime = s.runtime)
    (hregistrations : t.registrations = s.validatorProofs)
    (hnodes : t.nodeRewardRegistrations = s.rewardProofs) (htime : t.timestamp ≠ 0) :
    (p.dueEvents t).forM (ConsensusRuntime.checkBuiltinEvent s.runtime.validators
        s.runtime.chain.executedEvents) = .ok () ↔
      s.Rewardable s.runtime.chain.executedEvents ∧
        ∀ e ∈ s.runtime.eventSchedule.due t.timestamp s.runtime.chain.executedEvents,
          e.action.isBuiltin = true → ConsensusRuntime.checkBuiltinEvent s.runtime.validators
            s.runtime.chain.executedEvents e = .ok () := by
  rw [forM_eq_ok]
  unfold Proposer.dueEvents
  rw [hruntime, hregistrations, hnodes]
  simp only [List.mem_append]
  constructor
  · intro hall
    refine ⟨⟨fun hnew hlength => ?_, fun hnew hlength => ?_⟩, fun e he _ => hall e (.inl (.inl he))⟩
    · refine (h.bootstrap_accepted htime hnew hlength).mp (hall _ (.inl (.inr ?_)))
      rw [if_pos ⟨hnew, hlength⟩]
      exact List.mem_singleton_self _
    · refine (h.milestone_accepted htime hnew hlength).mp (hall _ (.inr ?_))
      rw [if_pos ⟨hnew, hlength⟩]
      exact List.mem_singleton_self _
  · rintro ⟨⟨hvalidators, hrewards⟩, hdue⟩ e ((he | he) | he)
    · cases hkind : e.action.isBuiltin with
      | true => exact hdue e he hkind
      | false =>
        unfold ConsensusRuntime.checkBuiltinEvent
        cases haction : e.action <;> rw [haction] at hkind <;> first | rfl | cases hkind
    · split at he
      next hready =>
        obtain rfl := List.mem_singleton.mp he
        exact (h.bootstrap_accepted htime hready.1 hready.2).mpr (hvalidators hready.1 hready.2)
      next => exact absurd he List.not_mem_nil
    · split at he
      next hready =>
        obtain rfl := List.mem_singleton.mp he
        exact (h.milestone_accepted htime hready.1 hready.2).mpr (hrewards hready.1 hready.2)
      next => exact absurd he List.not_mem_nil

/-- **The built-in rewards of a proposer are accepted.** A proposer whose registrations came in
through the loop puts events into its block that all pass the check of the validators, exactly if
the registrations can be rewarded, and a built-in reward that the operator's own schedule names
passes too. Signatures and node keys never fail. Where a registration cannot be rewarded, the
proposer refuses its own block, and the transactions go back into the pool. -/
theorem builtin_rewards_accepted (isPeerId : String → Bool) (own : ValidatorRegistration)
    (events : List Event) (s : Bootstrap) (hs : Reached isPeerId own events s) (p : Proposer)
    (t : Tick) (hruntime : p.runtime = s.runtime)
    (hregistrations : t.registrations = s.validatorProofs)
    (hnodes : t.nodeRewardRegistrations = s.rewardProofs) (htime : t.timestamp ≠ 0) :
    ((p.dueEvents t).forM (ConsensusRuntime.checkBuiltinEvent s.runtime.validators
        s.runtime.chain.executedEvents) = .ok () ↔
      s.Rewardable s.runtime.chain.executedEvents ∧
        ∀ e ∈ s.runtime.eventSchedule.due t.timestamp s.runtime.chain.executedEvents,
          e.action.isBuiltin = true → ConsensusRuntime.checkBuiltinEvent s.runtime.validators
            s.runtime.chain.executedEvents e = .ok ()) ∧
    (¬ s.Rewardable s.runtime.chain.executedEvents → p.runtime.reproposed = none →
      ∀ pending p', p.proposeDrained t pending = .ok p' →
        p' = p.restoreTransactions pending) := by
  have haccepted := dueEvents_accepted hs.formed hruntime hregistrations hnodes htime
  refine ⟨haccepted, fun hnot hnone pending p' hok => ?_⟩
  simp only [Proposer.proposeDrained, bind_eq_ok] at hok
  obtain ⟨block, hblock, hok⟩ := hok
  cases hmake : p.runtime.makeProposal (t.readings 0) block with
  | error e =>
    rw [hmake] at hok
    exact (Except.ok.inj hok).symm
  | ok proposal =>
    have hfresh : proposal.block.systemEvents = p.dueEvents t := by
      rw [ConsensusRuntime.makeProposal_block hmake, hnone]
      simp only [Proposer.freshBlock, bind_eq_ok, pure_eq_ok] at hblock
      obtain ⟨_, _, _, _, rfl⟩ := hblock
      rfl
    rw [hmake] at hok
    dsimp only at hok
    cases haccept : p.runtime.acceptProposal (t.readings 1) proposal with
    | error e =>
      rw [ConsensusRuntime.receiveProposal, haccept] at hok
      exact (Except.ok.inj hok).symm
    | ok r =>
      -- the block would have passed the check of its events
      obtain ⟨hfits, _⟩ := ConsensusRuntime.acceptProposal_eq_ok haccept
      have hscheduled := hfits.scheduled
      simp only [ConsensusRuntime.validateScheduledBlock, bind_eq_ok] at hscheduled
      obtain ⟨_, _, _, _, _, _, _, _, _, _, hevents⟩ := hscheduled
      rw [hfresh, hruntime] at hevents
      exact absurd (haccepted.mp hevents).1 hnot

/-! ## A registration at the genesis block -/

omit [Primitives] in
/-- A machine can run the selected validators, which are four different ones. -/
lemma new_selected {registrations : HashMap String ValidatorRegistration}
    (hfour : 4 ≤ registrations.keys.card) :
    ∃ c, BftConsensus.new (selected registrations) = .ok c := by
  have hids := map_selected registrations
  have hlength : (selected registrations).length = 4 := by
    rw [← List.length_map Validator.id, hids, List.length_take, length_sortedList]
    exact min_eq_left hfour
  have hpowers : ∀ v ∈ selected registrations, v.votingPower = 100 := by
    intro v hv
    obtain ⟨_, _, rfl⟩ := List.mem_map.mp hv
    rfl
  have hsum : sumPower (selected registrations) = 4 * 100 := by
    have hconst : (selected registrations).map (fun v => v.votingPower.toNat)
        = (selected registrations).map fun _ => 100 :=
      List.map_congr_left fun v hv => by rw [hpowers v hv]; rfl
    rw [sumPower, hconst, List.map_const', List.sum_replicate, hlength]
    rfl
  refine (BftConsensus.new_isOk (List.ne_nil_of_length_pos (by omega)) ?_ fun v hv => ?_).mpr ?_
  · rw [hids]
    exact (nodup_sortedList registrations.keys).sublist (List.take_sublist 4 _)
  · rw [hpowers v hv]
    decide
  · omega

/-- Without a candidate block, a registration is taken in if the list can be saved. -/
lemma onValidatorRegistration_isOk (isPeerId : String → Bool) (env : Reading)
    (r : ValidatorRegistration) (htip : s.runtime.chain.tipHeight = 0)
    (hpending : s.runtime.pending = none) :
    ∃ s', s.onValidatorRegistration isPeerId env (.ok ()) r = .ok s' ∧
      s'.runtime.chain = s.runtime.chain ∧ s'.runtime.pending = none := by
  unfold onValidatorRegistration takeOver
  split
  · exact ⟨s, rfl, rfl, hpending⟩
  split
  next =>
    split
    next hready =>
      dsimp only
      split
      · obtain ⟨r', hreplace, hchain, hnone⟩ := ConsensusRuntime.replaceBootstrapValidators_isOk
          env htip hpending (new_selected hready.1)
        simp only [hreplace]
        exact ⟨_, rfl, hchain, hnone⟩
      · exact ⟨_, rfl, rfl, hpending⟩
    next => exact ⟨_, rfl, rfl, hpending⟩
  next => exact ⟨s, rfl, rfl, hpending⟩

end Bootstrap

end

/-! ## Five validators -/

namespace FiveValidators

/-- A validator's key and signature, written as numbers. -/
def registration (key : ℕ) (peerId : String) (r s : ℕ) : ValidatorRegistration where
  validatorId := Devnet.digest key
  peerId
  signatureHex := Devnet.signature r s

/-- The seeds are `[1; 32]` to `[5; 32]`. -/
def first : ValidatorRegistration :=
  registration 0x8a88e3dd7409f195fd52db2d3cba5d72ca6709bf1d94121bf3748801b40f6f5c
    "12D3KooWPqT2nMDSiXUSx5D7fasaxhxKigVhcqfkKqrLghCq9jxz"
    0x0e892271f187a1ddc6396fe6f11fa89b6ba7a00502ac14db002d713ab424eca6
    0x570b7977237bb1f077939eaae16b8d595b25cda85e21a81dec73c139c3713307

def second : ValidatorRegistration :=
  registration 0x8139770ea87d175f56a35466c34c7ecccb8d8a91b4ee37a25df60f5b8fc9b394
    "12D3KooWBzG3Lxj5G8qh233wQRxNdGaV7r7Truibfa77gS8QKQaC"
    0x2a2d0d5f87fcc4973bbf2329e1fe63cf360445e124dd712683f226de3812d34f
    0x3360a9d65cb5ff0096bc47070a7f8c304cda22d2e1bc1210abc6a57ec50fde0a

def third : ValidatorRegistration :=
  registration 0xed4928c628d1c2c6eae90338905995612959273a5c63f93636c14614ac8737d1
    "12D3KooWGjfPc5wmHm33wCgL8afNLDHCuh24ojhW2mSQQou9Wsai"
    0x116fc24f972775f039a41377ccbf47c1f0efb36fe0c8f3e71cbf0b326c83e7e3
    0xdaca54356dd9aaa18cb8c8e743c3594f6f46e3c4c19ba2bc006baae98b869008

def fourth : ValidatorRegistration :=
  registration 0xca93ac1705187071d67b83c7ff0efe8108e8ec4530575d7726879333dbdabe7c
    "12D3KooWC1GftZzo5AMyfCZnQM9joxpyHJ3x3BzZSaUkF7KTymfC"
    0x495eaee1648d75b42fae8a2e017d33bdb785bb7e00d9d13a0fe5aabaef05708e
    0x1f88b1cff8249a92ef7032e434122d4d2c276ab74b87ed49df92a2c98b10dd0c

def fifth : ValidatorRegistration :=
  registration 0x6e7a1cdd29b0b78fd13af4c5598feff4ef2a97166e3ca6f2e4fbfccd80505bf1
    "12D3KooWQAqQX2YQexMmQapfgrFV88PTtqkyiRo1LjpZoVbkjQYR"
    0xceb5c1929d501af7712d359be4c0207b0ab632c3cced6f965543397113565b5c
    0xa8ed7594bb3533f13a4e01ef057047d1d279f4a10d87de52bd5aa09da6287408

def registrations : List ValidatorRegistration := [first, second, third, fourth, fifth]

/-- The node of the first validator, with the key of the seed `[17; 32]`. -/
def nodeKey : Bytes :=
  [8, 1, 18, 32] ++ beBytes 32 0xd04ab232742bb4ab3a1368bd4615e4e6d0224ab71a016baf8520a332c9778737

def nodeSignature : Bytes :=
  beBytes 32 0x985e346c076104ca67cd6b1345c872443897c1b611bce65d860282651c8596a5 ++
    beBytes 32 0xb32834b123b36a15f6fb47697c506821f074d19c865f634cc5947af20e71e204

/-- Its rewards go to the validator's wallet. -/
def reward : NodeRewardRegistration where
  rewardAddress := first.validatorId
  peerId := first.peerId
  signatureHex := Devnet.signature
    0xc397daadbcbfcc0d139a926fe2d235f0e15f050caa4e6e8fdde1a15ee4f98ae0
    0xdb0deb30f8acdff0d2f942207253fb05ffcc54f65583706fe97689271e09c40e
  registrationSigner := ""
  nodePublicKeyHex := hexEncode nodeKey
  nodeSignatureHex := hexEncode nodeSignature

/-- Address, message and signature of each registration. -/
def signatures : List (String × Bytes × String) :=
  (reward.rewardAddress, NodeRewardRegistration.bytesToSign reward.rewardAddress reward.peerId,
    reward.signatureHex) ::
  registrations.map fun r =>
    (r.validatorId, ValidatorRegistration.bytesToSign r.validatorId r.peerId, r.signatureHex)

/-- The signatures of the registrations, and the key of the node. -/
@[reducible] def primitives : Primitives :=
  { Devnet.primitives with
    ed25519Key := fun key => signatures.any fun made => made.1 == hexEncode key
    ed25519Verify := Devnet.signedIn signatures
    peerKey := fun bytes => if bytes = nodeKey then some bytes else none
    peerIdOf := fun key => if key = nodeKey then first.peerId else ""
    peerVerify := fun key message signature => decide (key = nodeKey ∧
      message = NodeRewardRegistration.bytesToSign reward.rewardAddress reward.peerId ∧
        signature = nodeSignature) }

/-- The peer ids of the five nodes. -/
def isPeerId (text : String) : Bool :=
  (registrations.map ValidatorRegistration.peerId).contains text

/-- A registration comes in. -/
def heard (r : ValidatorRegistration) : Bootstrap.Event :=
  .validatorRegistration (Devnet.reading "") (.ok ()) r

section
attribute [local instance] primitives

lemma verifySignature_of_mem {key r s : ℕ} {message : Bytes}
    (h : (Devnet.digest key, message, Devnet.signature r s) ∈ signatures) :
    verifySignature (Devnet.digest key) message (Devnet.signature r s) = .ok () := by
  refine verifySignature_hexEncode.mpr ⟨length_beBytes 32 _, by simp, ?_, ?_⟩
  · exact List.any_eq_true.mpr ⟨_, h, beq_self_eq_true _⟩
  · exact List.contains_iff_mem.mpr h

lemma verified : ∀ r ∈ registrations, r.Verified := by
  intro r hr
  have hsigned : ∀ r ∈ registrations, (r.validatorId,
      ValidatorRegistration.bytesToSign r.validatorId r.peerId, r.signatureHex) ∈ signatures :=
    fun r hr => List.mem_cons_of_mem _ (List.mem_map_of_mem hr)
  have hmade : ∀ r ∈ registrations, ∃ key a b, r.validatorId = Devnet.digest key ∧
      r.signatureHex = Devnet.signature a b := by
    simp only [registrations, List.forall_mem_cons]
    exact ⟨⟨_, _, _, rfl, rfl⟩, ⟨_, _, _, rfl, rfl⟩, ⟨_, _, _, rfl, rfl⟩, ⟨_, _, _, rfl, rfl⟩,
      ⟨_, _, _, rfl, rfl⟩, fun _ h => absurd h List.not_mem_nil⟩
  obtain ⟨key, a, b, hid, hsignature⟩ := hmade r hr
  have hmem := hsigned r hr
  unfold ValidatorRegistration.Verified
  rw [hid, hsignature] at hmem ⊢
  exact verifySignature_of_mem hmem

lemma verified_reward : reward.Verified where
  signed := verifySignature_of_mem List.mem_cons_self
  identity := by
    simp only [NodeRewardRegistration.verifyNodeIdentity, reward, hexDecode_hexEncode, okOr,
      ensure]
    rfl

lemma accepted {r : ValidatorRegistration} (hr : r ∈ registrations) :
    isOk (verifyValidatorRegistration isPeerId r) = true := by
  refine isOk_iff.mpr ⟨(), ?_⟩
  simp only [verifyValidatorRegistration, bind_eq_ok, ensure_eq_ok, mapError_eq_ok]
  exact ⟨(), List.contains_iff_mem.mpr (List.mem_map_of_mem hr), verified r hr⟩

variable {own : ValidatorRegistration} {rs : List ValidatorRegistration}

lemma runs (rs : List ValidatorRegistration) : ∀ s : Bootstrap,
    s.runtime.chain.tipHeight = 0 → s.runtime.pending = none →
    ∃ s', s.run isPeerId (rs.map heard) = .ok s' ∧ s'.runtime.chain.tipHeight = 0 := by
  induction rs with
  | nil => exact fun s htip _ => ⟨s, rfl, htip⟩
  | cons r rest ih =>
    intro s htip hpending
    obtain ⟨mid, hmid, hchain, hnone⟩ :=
      Bootstrap.onValidatorRegistration_isOk isPeerId (Devnet.reading "") r htip hpending
    obtain ⟨s', hrest, htip'⟩ := ih mid (by rw [hchain, htip]) hnone
    exact ⟨s', foldlM_cons_eq_ok.mpr ⟨mid, hmid, hrest⟩, htip'⟩

/-- The node hears of some of the validators, in some order. -/
lemma reached (hown : own ∈ registrations) (rs : List ValidatorRegistration) :
    ∃ s, Bootstrap.Reached isPeerId own (rs.map heard) s ∧ s.runtime.chain.tipHeight = 0 := by
  obtain ⟨node, hstarted, hgenesis, hpending⟩ : ∃ node, ConsensusRuntime.Started Devnet.chain
      [Devnet.self] EventSchedule.empty Devnet.validator node ∧ node.chain.tipHeight = 0 ∧
        node.pending = none := ⟨_, ⟨⟨3000, 2000, 2000⟩, 0, _, rfl, rfl⟩, rfl, rfl⟩
  obtain ⟨s, hrun, htip⟩ :=
    runs rs (Bootstrap.start node [Devnet.self] false (some own) reward) hgenesis hpending
  exact ⟨s, ⟨_, _, _, _, _, _, hstarted, verified own hown, verified_reward, hrun⟩, htip⟩

lemma known_iff (hrs : ∀ r ∈ rs, r ∈ registrations) (id : String) :
    Bootstrap.Known isPeerId own (rs.map heard) id ↔
      id ∈ (own :: rs).map ValidatorRegistration.validatorId := by
  rw [Bootstrap.Known, List.map_cons, List.mem_cons]
  refine or_congr_right ⟨?_, fun hid => ?_⟩
  · rintro ⟨_, _, r, hmem, _, rfl⟩
    obtain ⟨found, hfound, heq⟩ := List.mem_map.mp hmem
    obtain ⟨_, _, rfl⟩ := Bootstrap.Event.validatorRegistration.inj heq
    exact List.mem_map_of_mem hfound
  · obtain ⟨r, hr, rfl⟩ := List.mem_map.mp hid
    exact ⟨_, _, r, List.mem_map_of_mem hr, accepted (hrs r hr), rfl⟩

lemma same_known (id : String) :
    id ∈ [first, second, third, fourth, fifth].map ValidatorRegistration.validatorId ↔
      id ∈ [third, fifth, second, fifth, first, fourth].map ValidatorRegistration.validatorId := by
  simp only [List.map_cons, List.map_nil, List.mem_cons, List.not_mem_nil, or_false]
  generalize first.validatorId = a, second.validatorId = b, third.validatorId = c,
    fourth.validatorId = d, fifth.validatorId = e
  tauto

/-- Two of the five nodes hear of the others in different orders, one of them twice of one. -/
theorem validators_converge_five : ∃ s s',
    Bootstrap.Reached isPeerId first ([second, third, fourth, fifth].map heard) s ∧
    Bootstrap.Reached isPeerId third ([fifth, second, fifth, first, fourth].map heard) s' ∧
    (s.runtime.validators.map Validator.id).Perm (s'.runtime.validators.map Validator.id) := by
  have hfirst : first ∈ registrations := List.mem_cons_self
  have hthird : third ∈ registrations := .tail _ (.tail _ (.head _))
  obtain ⟨s, hs, htip⟩ := reached hfirst [second, third, fourth, fifth]
  obtain ⟨s', hs', htip'⟩ := reached hthird [fifth, second, fifth, first, fourth]
  have hrs : ∀ r ∈ [second, third, fourth, fifth], r ∈ registrations := by
    simp [registrations]
  have hrs' : ∀ r ∈ [fifth, second, fifth, first, fourth], r ∈ registrations := by
    simp [registrations]
  have hkeys : s.registrations.keys
      = (registrations.map ValidatorRegistration.validatorId).toFinset := by
    ext id
    rw [Finmap.mem_keys, hs.chosen.1, known_iff hrs, List.mem_toFinset]
    rfl
  have hfour : 4 ≤ s.registrations.keys.card := by
    rw [hkeys, List.toFinset_card_of_nodup (by decide)]
    decide
  obtain ⟨ids, _, _, hperm, hperm', _⟩ := Bootstrap.validators_converge isPeerId first third _ _
    s s' hs hs' (fun id => by rw [known_iff hrs, known_iff hrs', same_known])
    htip htip' hfour
  exact ⟨s, s', hs, hs', hperm.trans hperm'.symm⟩

/-- The loop of a node before its first turn, and a tick that reads its registrations. -/
def proposerOf (s : Bootstrap) : Proposer where
  runtime := s.runtime
  pool := Mempool.default
  isClient := false
  localIsValidator := true
  consensusWasActive := false
  calls := []

def tickOf (s : Bootstrap) : Tick where
  instant := 3000
  timestamp := 100
  supported := .ok ()
  registrations := s.validatorProofs
  nodeRewardRegistrations := s.rewardProofs
  arrivals := []
  readings _ := Devnet.reading ""

/-- A node that heard of all. -/
theorem builtin_rewards_accepted_five : ∃ s,
    Bootstrap.Reached isPeerId first ([second, third, fourth, fifth].map heard) s ∧
    (((proposerOf s).dueEvents (tickOf s)).forM (ConsensusRuntime.checkBuiltinEvent
        s.runtime.validators s.runtime.chain.executedEvents) = .ok () ↔
      s.Rewardable s.runtime.chain.executedEvents ∧
        ∀ e ∈ s.runtime.eventSchedule.due 100 s.runtime.chain.executedEvents,
          e.action.isBuiltin = true → ConsensusRuntime.checkBuiltinEvent s.runtime.validators
            s.runtime.chain.executedEvents e = .ok ()) ∧
    (¬ s.Rewardable s.runtime.chain.executedEvents → s.runtime.reproposed = none →
      ∀ pending p', (proposerOf s).proposeDrained (tickOf s) pending = .ok p' →
        p' = (proposerOf s).restoreTransactions pending) := by
  have hfirst : first ∈ registrations := List.mem_cons_self
  obtain ⟨s, hs, _⟩ := reached hfirst [second, third, fourth, fifth]
  exact ⟨s, hs, Bootstrap.builtin_rewards_accepted isPeerId first _ s hs (proposerOf s) (tickOf s)
    rfl rfl rfl (show (100 : UInt64) ≠ 0 by decide)⟩

end

end FiveValidators

end IeumChain
