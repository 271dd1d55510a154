import IeumChain.ScheduleTheorems
import IeumChain.QuorumTheorems
import Mathlib.Data.BitVec

/-!
# The built-in rewards

A proposer may put two rewards into a block that no schedule configures: one for the four
validators of the first set and one for the first hundred nodes. The other validators check id,
recipients, signatures and that the reward is new, but of the amount only that it is not 0. So a
block they accept pays the fixed rewards exactly when the proposer wrote the fixed amounts
(`rewards_fixed`).

* `balance_payFromFoundation`: what payments can take out of the foundation account;
* `paid_le`: what the events of a block pay together, when every built-in id occurs once.
-/

namespace IeumChain

open Lib

/-- The reward of a first validator: 10 coins of 10^18 units. -/
def bootstrapReward : U128 := 10000000000000000000

/-- The reward of a first node: one coin. -/
def milestoneReward : U128 := 1000000000000000000

/-! ## The foundation account -/

/-- A payment takes at most its amount out of the foundation account. -/
lemma balance_transferFromFoundation {balances balances' : Balances} {receiver : String}
    {amount : U128} (h : transferFromFoundation balances receiver amount = .ok balances') :
    (balanceIn balances foundationFeeAddress).toNat
      ≤ (balanceIn balances' foundationFeeAddress).toNat + amount.toNat := by
  simp only [transferFromFoundation, bind_eq_ok, ensure_eq_ok] at h
  obtain ⟨_, hfunds, hcredit⟩ := h
  have hcredit' := balanceIn_creditBalance hcredit foundationFeeAddress
  rw [balanceIn_insert, if_pos rfl, U128.toNat_sub (BitVec.le_def.mp hfunds)] at hcredit'
  split at hcredit' <;> omega

/-- The sum of the amounts of payments. -/
def sumPayments (payments : List (String × U128)) : ℕ := (payments.map fun p => p.2.toNat).sum

lemma balance_payFromFoundation {payments : List (String × U128)} :
    ∀ {balances balances' : Balances}, payFromFoundation balances payments = .ok balances' →
      (balanceIn balances foundationFeeAddress).toNat
        ≤ (balanceIn balances' foundationFeeAddress).toNat + sumPayments payments := by
  induction payments with
  | nil =>
    intro balances balances' h
    cases h
    exact Nat.le_add_right _ _
  | cons p rest ih =>
    intro balances balances' h
    obtain ⟨mid, hmid, hrest⟩ := foldlM_cons_eq_ok.mp h
    have hfirst := balance_transferFromFoundation hmid
    have hothers := ih hrest
    have hsum : sumPayments (p :: rest) = p.2.toNat + sumPayments rest := rfl
    omega

/-! ## What events pay -/

/-- What an event pays in all. -/
def ScheduledEvent.paid (e : ScheduledEvent) : ℕ := sumPayments e.action.payments

/-- What events pay together. -/
def sumPaid (events : List ScheduledEvent) : ℕ := (events.map ScheduledEvent.paid).sum

/-- Is the event the reward of the first validators? -/
def ScheduledEvent.isBootstrap (e : ScheduledEvent) : Bool :=
  match e.action with
  | .bootstrapValidatorReward _ _ => true
  | _ => false

/-- Is the event the reward of the first nodes? -/
def ScheduledEvent.isMilestone (e : ScheduledEvent) : Bool :=
  match e.action with
  | .nodeMilestoneReward _ _ => true
  | _ => false

/-- An event is configured or one of the two built-in ones. -/
lemma ScheduledEvent.kind_cases (e : ScheduledEvent) :
    (e.action.isBuiltin = false ∧ e.isBootstrap = false ∧ e.isMilestone = false) ∨
      (e.action.isBuiltin = true ∧ e.isBootstrap = true ∧ e.isMilestone = false) ∨
      (e.action.isBuiltin = true ∧ e.isBootstrap = false ∧ e.isMilestone = true) := by
  unfold isBootstrap isMilestone
  cases e.action <;> simp [ScheduledEventAction.isBuiltin]

/-- The configured events, and the built-in ones one by one. -/
lemma sumPaid_le {bootstrap milestone : ℕ} {events : List ScheduledEvent}
    (hbootstrap : ∀ e ∈ events, e.isBootstrap = true → e.paid ≤ bootstrap)
    (hmilestone : ∀ e ∈ events, e.isMilestone = true → e.paid ≤ milestone) :
    sumPaid events ≤ sumPaid (events.filter fun e => !e.action.isBuiltin)
      + bootstrap * events.countP ScheduledEvent.isBootstrap
      + milestone * events.countP ScheduledEvent.isMilestone := by
  induction events with
  | nil => simp [sumPaid]
  | cons e rest ih =>
    have hrest := ih (fun e' he' => hbootstrap e' (List.mem_cons_of_mem _ he'))
      (fun e' he' => hmilestone e' (List.mem_cons_of_mem _ he'))
    have hb := hbootstrap e List.mem_cons_self
    have hm := hmilestone e List.mem_cons_self
    have hsum : ∀ l : List ScheduledEvent, sumPaid (e :: l) = e.paid + sumPaid l := fun _ => rfl
    rw [List.filter_cons, List.countP_cons, List.countP_cons, hsum, mul_add, mul_add]
    obtain ⟨hkind, hboot, hmile⟩ | ⟨hkind, hboot, hmile⟩ | ⟨hkind, hboot, hmile⟩ := e.kind_cases
    · rw [hkind, hboot, hmile, Bool.not_false, if_pos rfl, hsum]
      simp only [Bool.false_eq_true, if_false, mul_zero]
      omega
    · have hpaid := hb hboot
      rw [hkind, hboot, hmile]
      simp only [Bool.not_true, Bool.false_eq_true, if_false, if_true, mul_zero, mul_one]
      omega
    · have hpaid := hm hmile
      rw [hkind, hboot, hmile]
      simp only [Bool.not_true, Bool.false_eq_true, if_false, if_true, mul_zero, mul_one]
      omega

/-- Events with one id and without repetition are at most one. -/
lemma countP_le_one {events : List ScheduledEvent} {p : ScheduledEvent → Bool} {id : String}
    (hnodup : (events.map ScheduledEvent.id).Nodup) (h : ∀ e ∈ events, p e = true → e.id = id) :
    events.countP p ≤ 1 := by
  have hmono : events.countP p ≤ events.countP fun e => e.id == id :=
    List.countP_mono_left fun e he hp => by simp [h e he hp]
  have hcount : events.countP (fun e => e.id == id) = (events.map ScheduledEvent.id).count id := by
    rw [List.count, List.countP_map]
    rfl
  have hone := List.nodup_iff_count_le_one.mp hnodup id
  omega

/-- Equal payments add up to a multiple. -/
lemma sumPayments_map {α : Type} (l : List α) (address : α → String) (amount : U128) :
    sumPayments (l.map fun a => (address a, amount)) = l.length * amount.toNat := by
  rw [sumPayments, List.map_map]
  show (l.map fun _ => amount.toNat).sum = _
  rw [List.map_const', List.sum_replicate, smul_eq_mul]

section
variable [Primitives]

lemma balance_applySystemEvents {blockTimestamp : UInt64} {events : List ScheduledEvent} :
    ∀ {state state' : Balances × Finset String},
      applySystemEvents events blockTimestamp state = .ok state' →
      (balanceIn state.1 foundationFeeAddress).toNat
        ≤ (balanceIn state'.1 foundationFeeAddress).toNat + sumPaid events := by
  induction events with
  | nil =>
    intro state state' h
    cases h
    exact Nat.le_add_right _ _
  | cons e rest ih =>
    intro state state' h
    obtain ⟨mid, hmid, hrest⟩ := foldlM_cons_eq_ok.mp h
    obtain ⟨_, _, _, hpay, _⟩ := applySystemEvent_eq_ok.mp hmid
    have hfirst := balance_payFromFoundation hpay
    have hothers := ih hrest
    have hsum : sumPaid (e :: rest) = sumPayments e.action.payments + sumPaid rest := rfl
    omega

/-! ## What the validators check -/

/-- The addresses of a milestone reward are all different. -/
lemma checkNodeRegistration_nodup {registrations : List NodeRewardRegistration} :
    ∀ {seen seen' : Finset String × Finset String},
      registrations.foldlM checkNodeRegistration seen = .ok seen' →
      (∀ r ∈ registrations, r.rewardAddress ∉ seen.2) ∧
        (registrations.map NodeRewardRegistration.rewardAddress).Nodup := by
  induction registrations with
  | nil => exact fun _ => ⟨fun r hr => absurd hr List.not_mem_nil, List.nodup_nil⟩
  | cons r rest ih =>
    intro seen seen' h
    obtain ⟨mid, hmid, hrest⟩ := foldlM_cons_eq_ok.mp h
    simp only [checkNodeRegistration, bind_eq_ok, ensure_eq_ok, pure_eq_ok] at hmid
    obtain ⟨_, _, _, _, _, ⟨_, hnew⟩, _, _, rfl⟩ := hmid
    obtain ⟨hothers, hnodup⟩ := ih hrest
    refine ⟨List.forall_mem_cons.mpr ⟨hnew, fun r' hr' hmem => ?_⟩,
      List.nodup_cons.mpr ⟨?_, hnodup⟩⟩
    · exact hothers r' hr' (Finset.mem_insert_of_mem hmem)
    · intro hmem
      obtain ⟨r', hr', heq⟩ := List.mem_map.mp hmem
      exact hothers r' hr' (heq ▸ Finset.mem_insert_self _ _)

namespace ConsensusRuntime

/-- A validator reward that passes its check goes to the four active validators. -/
lemma checkBuiltinEvent_bootstrap {validators : List Validator} {executed : Finset String}
    {e : ScheduledEvent} {registrations : List ValidatorRegistration} {amount : U128}
    (haction : e.action = .bootstrapValidatorReward registrations amount)
    (h : checkBuiltinEvent validators executed e = .ok ()) :
    e.id = "ieum-bootstrap-validator-reward-v1" ∧ registrations.length = 4 ∧
      (registrations.map ValidatorRegistration.validatorId).Perm (validators.map Validator.id) := by
  simp only [checkBuiltinEvent, haction, bind_eq_ok, ensure_eq_ok, ScheduledEvent.validate,
    ScheduledEventAction.validate] at h
  obtain ⟨_, hid, _, hsame, _, ⟨_, _, _, _, _, ⟨hlength, _⟩, _⟩, _⟩ := h
  refine ⟨hid, hlength, ?_⟩
  refine (List.perm_insertionSort (· ≤ ·) _).symm.trans ?_
  rw [hsame]
  exact List.perm_insertionSort (· ≤ ·) _

/-- A node reward that passes its check goes to a hundred different addresses. -/
lemma checkBuiltinEvent_milestone {validators : List Validator} {executed : Finset String}
    {e : ScheduledEvent} {registrations : List NodeRewardRegistration} {amount : U128}
    (haction : e.action = .nodeMilestoneReward registrations amount)
    (h : checkBuiltinEvent validators executed e = .ok ()) :
    e.id = "ieum-node-100-reward-v1" ∧ registrations.length = 100 ∧
      (registrations.map NodeRewardRegistration.rewardAddress).Nodup := by
  simp only [checkBuiltinEvent, haction, bind_eq_ok, ensure_eq_ok, ScheduledEvent.validate,
    ScheduledEventAction.validate] at h
  obtain ⟨_, hid, _, ⟨_, _, _, _, _, ⟨hlength, _⟩, seen, hseen, _⟩, _⟩ := h
  exact ⟨hid, hlength, (checkNodeRegistration_nodup hseen).2⟩

end ConsensusRuntime

/-! ## Fixed rewards -/

/-- The rewards a block pays are the fixed ones: 10 coins to each of the four active validators,
one coin to each of a hundred different addresses, and besides what is scheduled at most 140 coins
out of the foundation account. -/
structure FixedRewards (r : ConsensusRuntime) (block : Block) : Prop where
  bootstrap : ∀ e ∈ block.systemEvents, ∀ registrations amount,
    e.action = .bootstrapValidatorReward registrations amount →
    r.validators.length = 4 ∧
      e.action.payments.Perm (r.validators.map fun v => (v.id, bootstrapReward))
  milestone : ∀ e ∈ block.systemEvents, ∀ registrations amount,
    e.action = .nodeMilestoneReward registrations amount →
    ∃ addresses : List String, addresses.length = 100 ∧ addresses.Nodup ∧
      e.action.payments = addresses.map fun address => (address, milestoneReward)
  bound : ∀ chain balances nonces, r.chain.applyBlock block = .ok chain →
    applyTransactions r.chain.chainId block.transactions block.producer
      (r.chain.balances, r.chain.nextNonces) = .ok (balances, nonces) →
    (balanceIn balances foundationFeeAddress).toNat
      ≤ (balanceIn chain.balances foundationFeeAddress).toNat
        + sumPaid (ConsensusRuntime.configuredEvents block) + 140 * 10 ^ 18

/-- A built-in reward with the fixed amount; other actions have none. -/
def ScheduledEventAction.FixedAmount : ScheduledEventAction → Prop
  | .bootstrapValidatorReward _ amount => amount = bootstrapReward
  | .nodeMilestoneReward _ amount => amount = milestoneReward
  | _ => True

omit [Primitives] in
lemma amount_of_bootstrap {e : ScheduledEvent} {registrations : List ValidatorRegistration}
    {amount : U128} (h : e.action.FixedAmount)
    (haction : e.action = .bootstrapValidatorReward registrations amount) :
    amount = bootstrapReward := by
  rwa [haction] at h

omit [Primitives] in
lemma amount_of_milestone {e : ScheduledEvent} {registrations : List NodeRewardRegistration}
    {amount : U128} (h : e.action.FixedAmount)
    (haction : e.action = .nodeMilestoneReward registrations amount) :
    amount = milestoneReward := by
  rwa [haction] at h

section
variable {r : ConsensusRuntime} {now : Option UInt64} {block : Block}

lemma bootstrap_payments {validators : List Validator} {executed : Finset String}
    {e : ScheduledEvent} {registrations : List ValidatorRegistration} {amount : U128}
    (haction : e.action = .bootstrapValidatorReward registrations amount)
    (h : ConsensusRuntime.checkBuiltinEvent validators executed e = .ok ()) :
    validators.length = 4 ∧ e.action.payments.Perm (validators.map fun v => (v.id, amount)) := by
  obtain ⟨_, hlength, hperm⟩ := ConsensusRuntime.checkBuiltinEvent_bootstrap haction h
  refine ⟨?_, ?_⟩
  · have hlen := hperm.length_eq
    rw [List.length_map, List.length_map, hlength] at hlen
    exact hlen.symm
  · have hpay := hperm.map fun id => (id, amount)
    rw [List.map_map, List.map_map] at hpay
    rw [haction]
    exact hpay

lemma milestone_payments {validators : List Validator} {executed : Finset String}
    {e : ScheduledEvent} {registrations : List NodeRewardRegistration} {amount : U128}
    (haction : e.action = .nodeMilestoneReward registrations amount)
    (h : ConsensusRuntime.checkBuiltinEvent validators executed e = .ok ()) :
    ∃ addresses : List String, addresses.length = 100 ∧ addresses.Nodup ∧
      e.action.payments = addresses.map fun address => (address, amount) := by
  obtain ⟨_, hlength, hnodup⟩ := ConsensusRuntime.checkBuiltinEvent_milestone haction h
  refine ⟨registrations.map NodeRewardRegistration.rewardAddress, ?_, hnodup, ?_⟩
  · rw [List.length_map, hlength]
  · rw [haction, List.map_map]
    rfl

/-- The fixed validator reward has an id of its own and pays 40 coins. -/
lemma paid_of_bootstrap {validators : List Validator} {executed : Finset String}
    {e : ScheduledEvent} (h : e.action.FixedAmount)
    (hcheck : ConsensusRuntime.checkBuiltinEvent validators executed e = .ok ())
    (hkind : e.isBootstrap = true) :
    e.id = "ieum-bootstrap-validator-reward-v1" ∧ e.paid ≤ 40 * 10 ^ 18 := by
  cases haction : e.action with
  | bootstrapValidatorReward registrations amount =>
    obtain ⟨hid, hlength, _⟩ := ConsensusRuntime.checkBuiltinEvent_bootstrap haction hcheck
    refine ⟨hid, ?_⟩
    rw [ScheduledEvent.paid, haction, ScheduledEventAction.payments, sumPayments_map, hlength,
      amount_of_bootstrap h haction]
    decide
  | _ => simp [ScheduledEvent.isBootstrap, haction] at hkind

/-- The fixed node reward has an id of its own and pays 100 coins. -/
lemma paid_of_milestone {validators : List Validator} {executed : Finset String}
    {e : ScheduledEvent} (h : e.action.FixedAmount)
    (hcheck : ConsensusRuntime.checkBuiltinEvent validators executed e = .ok ())
    (hkind : e.isMilestone = true) :
    e.id = "ieum-node-100-reward-v1" ∧ e.paid ≤ 100 * 10 ^ 18 := by
  cases haction : e.action with
  | nodeMilestoneReward registrations amount =>
    obtain ⟨hid, hlength, _⟩ := ConsensusRuntime.checkBuiltinEvent_milestone haction hcheck
    refine ⟨hid, ?_⟩
    rw [ScheduledEvent.paid, haction, ScheduledEventAction.payments, sumPayments_map, hlength,
      amount_of_milestone h haction]
    decide
  | _ => simp [ScheduledEvent.isMilestone, haction] at hkind

/-- With the fixed amounts, a block takes at most 140 coins besides what is scheduled. -/
lemma bound_of_fixedAmount (hvalid : r.validateScheduledBlock now block = .ok ())
    (h : ∀ e ∈ block.systemEvents, e.action.FixedAmount) {chain : Blockchain}
    {balances : Balances} {nonces : Nonces} (happly : r.chain.applyBlock block = .ok chain)
    (htxs : applyTransactions r.chain.chainId block.transactions block.producer
      (r.chain.balances, r.chain.nextNonces) = .ok (balances, nonces)) :
    (balanceIn balances foundationFeeAddress).toNat
      ≤ (balanceIn chain.balances foundationFeeAddress).toNat
        + sumPaid (ConsensusRuntime.configuredEvents block) + 140 * 10 ^ 18 := by
  obtain ⟨hscheduled, _⟩ := ConsensusRuntime.validateScheduledBlock_eq_ok.mp hvalid
  have hcheck := forM_eq_ok.mp hscheduled.builtin
  obtain ⟨_, _, hnodup, _⟩ := applyBlock_events happly
  obtain ⟨_, state, _, _, hstate, rfl⟩ := Blockchain.applyBlock_eq_ok.mp happly
  obtain ⟨balances', htxs', hevents⟩ := executeBlock_eq_ok.mp hstate
  obtain ⟨rfl, _⟩ := Prod.mk.inj (Except.ok.inj (htxs.symm.trans htxs'))
  have hmoved := balance_applySystemEvents hevents
  -- each built-in reward has an id of its own, which the block has once
  have hboot := fun e he hkind => paid_of_bootstrap (h e he) (hcheck e he) hkind
  have hmile := fun e he hkind => paid_of_milestone (h e he) (hcheck e he) hkind
  have hsum := sumPaid_le (fun e he hk => (hboot e he hk).2) (fun e he hk => (hmile e he hk).2)
  have hone := countP_le_one hnodup fun e he hk => (hboot e he hk).1
  have hone' := countP_le_one hnodup fun e he hk => (hmile e he hk).1
  have hconfigured : ConsensusRuntime.configuredEvents block
      = block.systemEvents.filter fun e => !e.action.isBuiltin := rfl
  rw [hconfigured]
  simp only at hmoved
  show _ ≤ (balanceIn state.balances foundationFeeAddress).toNat + _ + _
  omega

end

/-- **When the built-in rewards have their fixed size.** A block that passes
`validate_scheduled_block` pays 10 coins to each of the four active validators in a validator
reward and one coin to each of a hundred different addresses in a node reward, and takes at most
140 coins besides what is scheduled out of the foundation account, exactly when its built-in
rewards carry the amounts of 10 coins and one coin. -/
theorem rewards_fixed (r : ConsensusRuntime) (now : Option UInt64) (block : Block)
    (hvalid : r.validateScheduledBlock now block = .ok ()) :
    FixedRewards r block ↔ ∀ e ∈ block.systemEvents, e.action.FixedAmount := by
  obtain ⟨hscheduled, _⟩ := ConsensusRuntime.validateScheduledBlock_eq_ok.mp hvalid
  have hcheck := forM_eq_ok.mp hscheduled.builtin
  constructor
  · intro h e he
    cases haction : e.action with
    | bootstrapValidatorReward registrations amount =>
      obtain ⟨hlength, hfixed⟩ := h.bootstrap e he registrations amount haction
      obtain ⟨_, hpaid⟩ := bootstrap_payments haction (hcheck e he)
      obtain ⟨v, hv⟩ := List.exists_mem_of_length_pos (by omega : 0 < r.validators.length)
      have hmem := hpaid.symm.trans hfixed |>.mem_iff.mp (List.mem_map_of_mem hv)
      obtain ⟨_, _, heq⟩ := List.mem_map.mp hmem
      exact (Prod.mk.inj heq).2.symm
    | nodeMilestoneReward registrations amount =>
      obtain ⟨addresses, hlength, _, hfixed⟩ := h.milestone e he registrations amount haction
      obtain ⟨addresses', _, _, hpaid⟩ := milestone_payments haction (hcheck e he)
      obtain ⟨a, ha⟩ := List.exists_mem_of_length_pos (by omega : 0 < addresses.length)
      have hmem : (a, milestoneReward) ∈ addresses'.map fun address => (address, amount) := by
        rw [← hpaid, hfixed]
        exact List.mem_map_of_mem ha
      obtain ⟨_, _, heq⟩ := List.mem_map.mp hmem
      exact (Prod.mk.inj heq).2
    | _ => trivial
  · intro h
    refine ⟨fun e he registrations amount haction => ?_,
      fun e he registrations amount haction => ?_,
      fun chain balances nonces happly htxs => bound_of_fixedAmount hvalid h happly htxs⟩
    · rw [← amount_of_bootstrap (h e he) haction]
      exact bootstrap_payments haction (hcheck e he)
    · rw [← amount_of_milestone (h e he) haction]
      exact milestone_payments haction (hcheck e he)

/-- Registrations without repetition and with valid signatures pass. -/
lemma checkValidatorRegistration_isOk {registrations : List ValidatorRegistration}
    (hsigned : ∀ r ∈ registrations, verifySignature r.validatorId
      (ValidatorRegistration.bytesToSign r.validatorId r.peerId) r.signatureHex = .ok ()) :
    ∀ seen : Finset String × Finset String,
      (∀ r ∈ registrations, r.peerId ∉ seen.1 ∧ r.validatorId ∉ seen.2) →
      (registrations.map ValidatorRegistration.peerId).Nodup →
      (registrations.map ValidatorRegistration.validatorId).Nodup →
      ∃ seen', registrations.foldlM checkValidatorRegistration seen = .ok seen' := by
  induction registrations with
  | nil => exact fun seen _ _ _ => ⟨seen, rfl⟩
  | cons r rest ih =>
    intro seen hnew hpeers hids
    obtain ⟨hpeer, hpeers⟩ := List.nodup_cons.mp hpeers
    obtain ⟨hid, hids⟩ := List.nodup_cons.mp hids
    have hrest : ∀ r' ∈ rest, r'.peerId ∉ insert r.peerId seen.1 ∧
        r'.validatorId ∉ insert r.validatorId seen.2 := by
      intro r' hr'
      obtain ⟨hpeer', hid'⟩ := hnew r' (List.mem_cons_of_mem _ hr')
      constructor
      · rw [Finset.mem_insert, not_or]
        exact ⟨fun heq => hpeer (heq ▸ List.mem_map_of_mem hr'), hpeer'⟩
      · rw [Finset.mem_insert, not_or]
        exact ⟨fun heq => hid (heq ▸ List.mem_map_of_mem hr'), hid'⟩
    obtain ⟨seen', hseen'⟩ := ih (fun r' hr' => hsigned r' (List.mem_cons_of_mem _ hr'))
      (insert r.peerId seen.1, insert r.validatorId seen.2) hrest hpeers hids
    refine ⟨seen', foldlM_cons_eq_ok.mpr ⟨_, ?_, hseen'⟩⟩
    simp only [checkValidatorRegistration, bind_eq_ok, ensure_eq_ok, pure_eq_ok]
    exact ⟨(), hnew r List.mem_cons_self, (), hsigned r List.mem_cons_self, trivial⟩

end

/-! ## Four validators -/

namespace FourValidators

/-- The Ed25519 keys of the seeds `[1; 32]` to `[4; 32]`. -/
def keys : List Bytes :=
  [Devnet.validatorKey, Devnet.userKey,
    beBytes 32 0xed4928c628d1c2c6eae90338905995612959273a5c63f93636c14614ac8737d1,
    beBytes 32 0xca93ac1705187071d67b83c7ff0efe8108e8ec4530575d7726879333dbdabe7c]

/-- The peers of the keys, and the signatures of their registrations. -/
def peers : List (String × ℕ × ℕ) :=
  [("peer1", 0x472fa3083076ad8bc33e76d6d2b194d105140c8022c5ccbd5d499c993439b42a,
      0xb90501986ce1357f82c2bd471852df600e3542daaac857943070593ede466303),
    ("peer2", 0x34edec275fa3743fa01123a95a322ac320057eb2e822163578745ed8e2564ec5,
      0x80ba0792aaec5e015c857e1875aa137b850d91dd82036ce0e80ce491ee080409),
    ("peer3", 0x2f5e3d2f80ed2a8fc18d1890ea90303885e771e57f4c6d0053fb748a0455585f,
      0x237be76dc360e112327331051bc0428a978fda1b26b453ea164a12509c0bdc02),
    ("peer4", 0x142c072d0d6c0eec9a304f728318c3cbccd3e6fe33413906a167980c4b757c44,
      0x136a09e4e58be09c55725522d502ee9880bf71f207088d05fbb2035659a02a08)]

/-- What the validators signed. -/
def registrations : List ValidatorRegistration :=
  List.zipWith (fun key peer =>
    ⟨hexEncode key, peer.1, Devnet.signature peer.2.1 peer.2.2⟩) keys peers

/-- The validators, each with a quarter of the power. -/
def validators : List Validator := keys.map fun key => ⟨hexEncode key, 100⟩

/-- The keys and the signatures of the registrations. -/
@[reducible] def primitives : Primitives :=
  { Devnet.primitives with
    ed25519Key := fun key => decide (key ∈ keys)
    ed25519Verify := Devnet.signedIn <| registrations.map fun r =>
      (r.validatorId, ValidatorRegistration.bytesToSign r.validatorId r.peerId, r.signatureHex) }

section
attribute [local instance] primitives

lemma signed : ∀ r ∈ registrations, verifySignature r.validatorId
    (ValidatorRegistration.bytesToSign r.validatorId r.peerId) r.signatureHex = .ok () := by
  intro r hr
  obtain ⟨key, ⟨peerId, half, half'⟩, hkey, _, rfl⟩ : ∃ key peer, key ∈ keys ∧ peer ∈ peers ∧
      (⟨hexEncode key, peer.1, Devnet.signature peer.2.1 peer.2.2⟩ : ValidatorRegistration)
        = r := by
    obtain ⟨i, hi⟩ := List.mem_iff_getElem?.mp hr
    obtain ⟨key, peer, hkey, hpeer, heq⟩ := List.getElem?_zipWith_eq_some.mp hi
    exact ⟨key, peer, List.mem_of_getElem? hkey, List.mem_of_getElem? hpeer, heq⟩
  have hlength : ∀ key ∈ keys, key.length = 32 := by
    intro key hkey
    simp only [keys, List.mem_cons, List.not_mem_nil, or_false] at hkey
    rcases hkey with rfl | rfl | rfl | rfl <;> exact length_beBytes 32 _
  exact verifySignature_hexEncode.mpr ⟨hlength key hkey, by simp, decide_eq_true hkey,
    List.contains_iff_mem.mpr (List.mem_map_of_mem hr)⟩

lemma registrations_ids :
    registrations.map ValidatorRegistration.validatorId = validators.map Validator.id := rfl

lemma nodup_ids : (validators.map Validator.id).Nodup := by
  rw [validators, List.map_map]
  refine List.Nodup.map (fun a b hab => hexEncode_inj hab) ?_
  decide

/-- The reward of the validators, of any amount. -/
def reward (amount : U128) : ScheduledEvent :=
  ⟨"ieum-bootstrap-validator-reward-v1", 100, .bootstrapValidatorReward registrations amount⟩

lemma reward_valid {amount : U128} (h : amount ≠ 0) : (reward amount).validate = .ok () := by
  obtain ⟨seen, hseen⟩ := checkValidatorRegistration_isOk signed (∅, ∅)
    (fun r _ => ⟨Finset.notMem_empty _, Finset.notMem_empty _⟩) (by decide)
    (registrations_ids ▸ nodup_ids)
  have hid : "ieum-bootstrap-validator-reward-v1" ≠ "" ∧
      textLen "ieum-bootstrap-validator-reward-v1" ≤ 128 ∧
      (textBytes "ieum-bootstrap-validator-reward-v1").all isIdByte = true := by decide
  have htime : (100 : UInt64) ≠ 0 := by decide
  simp only [ScheduledEvent.validate, reward, ScheduledEventAction.validate, bind_eq_ok]
  exact ⟨(), ensure_eq_ok.mpr hid, (), ensure_eq_ok.mpr htime, (), ensure_eq_ok.mpr ⟨rfl, h⟩, seen,
    hseen, rfl⟩

/-- The node of the first validator. -/
lemma started : ∃ r, ConsensusRuntime.Started (Blockchain.withChainId 1 []) validators
    EventSchedule.empty Devnet.validator r := by
  have hpowers : ∀ v ∈ validators, v.votingPower ≠ 0 := by
    intro v hv
    obtain ⟨_, _, rfl⟩ := List.mem_map.mp hv
    exact (by decide : (100 : UInt64) ≠ 0)
  obtain ⟨c, hnew⟩ := (BftConsensus.new_isOk (by simp [validators, keys]) nodup_ids hpowers).mpr
    (by decide)
  have hroom : (Blockchain.withChainId 1 []).tipHeight.toNat + 1 < 2 ^ 64 := by decide
  obtain ⟨r₀, hr₀⟩ :=
    ConsensusRuntime.withSigner_isOk hroom hnew Devnet.validator ⟨3000, 2000, 2000⟩ 0
  obtain ⟨r, hr⟩ := ConsensusRuntime.setEventSchedule_isOk (r := r₀) EventSchedule.validate_empty
  exact ⟨r, _, _, r₀, hr₀, hr⟩

/-- A block with the reward. -/
def rewardBlock (amount : U128) : Block :=
  Block.sealed { height := 1, previousHash := Block.genesis.hash, timestamp := 100
                 producer := Devnet.validator, transactions := [], systemEvents := [reward amount]
                 hash := "" }

/-- The validators accept the reward whatever its amount. -/
lemma reward_accepted (amount : U128) (h : amount ≠ 0) {r : ConsensusRuntime}
    (hr : ConsensusRuntime.Started (Blockchain.withChainId 1 []) validators EventSchedule.empty
      Devnet.validator r) :
    r.validateScheduledBlock (some 100) (rewardBlock amount) = .ok () := by
  obtain ⟨_, _, _, _, _, _, _, _, rfl⟩ := hr.eq
  refine ConsensusRuntime.validateScheduledBlock_eq_ok.mpr ⟨⟨⟨Block.genesis, rfl, ?_⟩, rfl, ?_⟩,
    ConsensusRuntime.clockAllows_of_le (UInt64.le_refl 100)⟩
  · exact UInt64.zero_le
  · refine forM_eq_ok.mpr fun e he => ?_
    obtain rfl : e = reward amount := List.mem_singleton.mp he
    have hvalid := reward_valid h
    simp only [ConsensusRuntime.checkBuiltinEvent, reward, bind_eq_ok, registrations_ids]
      at hvalid ⊢
    exact ⟨(), ensure_eq_ok.mpr trivial, (), ensure_eq_ok.mpr trivial, (), hvalid,
      ensure_eq_ok.mpr (Finset.notMem_empty _)⟩

/-- A block with the reward of 10 coins. -/
theorem rewards_fixed_ten :
    ∃ r, ConsensusRuntime.Started (Blockchain.withChainId 1 []) validators EventSchedule.empty
        Devnet.validator r ∧
      r.validateScheduledBlock (some 100) (rewardBlock bootstrapReward) = .ok () ∧
      FixedRewards r (rewardBlock bootstrapReward) := by
  obtain ⟨r, hr⟩ := started
  have hvalid := reward_accepted bootstrapReward (by decide) hr
  refine ⟨r, hr, hvalid, (rewards_fixed r (some 100) _ hvalid).mpr fun e he => ?_⟩
  obtain rfl : e = reward bootstrapReward := List.mem_singleton.mp he
  rfl

/-- A block with a reward of a million coins for each validator is accepted. -/
theorem reward_of_a_million :
    ∃ r, ConsensusRuntime.Started (Blockchain.withChainId 1 []) validators EventSchedule.empty
        Devnet.validator r ∧
      r.validateScheduledBlock (some 100) (rewardBlock (10 ^ 24)) = .ok () ∧
      (reward (10 ^ 24)).action.payments
        = validators.map (fun v => (v.id, (10 ^ 24 : U128))) ∧
      ¬ FixedRewards r (rewardBlock (10 ^ 24)) := by
  obtain ⟨r, hr⟩ := started
  have hvalid := reward_accepted (10 ^ 24) (by decide) hr
  refine ⟨r, hr, hvalid, rfl, fun hfixed => ?_⟩
  have hboth := (hfixed.bootstrap (reward (10 ^ 24)) (List.mem_singleton_self _) _ _ rfl).2
  have hmem := hboth.mem_iff.mp (List.mem_cons_self)
  obtain ⟨_, _, heq⟩ := List.mem_map.mp hmem
  exact absurd (Prod.mk.inj heq).2 (by decide)

end

end FourValidators

end IeumChain
