import IeumChain.Devnet
import IeumChain.Lib.Errors

/-!
# Ledger arithmetic does not overflow

A block computes with five checked additions and one checked multiplication. None of them fails
while the supply is at most a 2000th of the largest amount: between the debit of a transaction and
its three credits the entries sum to no more than the supply, and every credit is part of what is
missing. The same holds of the payments of an event.

All other errors of `applyBlock` have other texts (`Avoids`).
-/

namespace IeumChain

open Lib

/-- The errors of the checked operations of a block. -/
def overflowErrors : List String :=
  ["받는 계정 잔액이 u128 범위를 넘습니다.", "블록 생성자 보상 잔액이 u128 범위를 넘습니다.",
    "재단 수수료 잔액이 u128 범위를 넘습니다.", "예약 이벤트 수령 잔액이 u128 범위를 넘습니다.",
    "재단 수수료 계산이 u128 범위를 넘습니다."]

/-- A computation without these errors. -/
abbrev Fitting {α : Type} (x : Result α) : Prop := Avoids {e | e ∈ overflowErrors} x

/-- A text with another first letter is none of them. -/
lemma notMem_overflowErrors {e : String} {c : Char} (h : e.toList.head? = some c)
    (hc : c ∉ ['받', '블', '재', '예']) : e ∉ overflowErrors := by
  intro he
  apply hc
  simp only [overflowErrors, List.mem_cons, List.not_mem_nil, or_false] at he
  rcases he with rfl | rfl | rfl | rfl | rfl <;> simp at h <;> simp [← h]

/-! ## Signatures -/

lemma toString_text (s : String) : toString s = s := rfl

lemma fitting_valueU64 (value : Bytes) {name : String}
    (h : s!"{name}이 u64 범위를 벗어났습니다." ∉ overflowErrors) : Fitting (valueU64 value name) := by
  simp [valueU64, Avoids.ensure_iff, h]

lemma fitting_valueU128 (value : Bytes) {name : String}
    (h : s!"{name}이 u128 범위를 벗어났습니다." ∉ overflowErrors) :
    Fitting (valueU128 value name) := by
  simp [valueU128, Avoids.ensure_iff, h]

lemma fitting_paddedScalar (value : Bytes) {name : String}
    (h : s!"서명 {name}이 32바이트를 넘습니다." ∉ overflowErrors) :
    Fitting (paddedScalar value name) := by
  simp [paddedScalar, Avoids.ensure_iff, h]

lemma fitting_readLength (input : Bytes) (width : ℕ) : Fitting (Rlp.readLength input width) := by
  simp [Rlp.readLength, Avoids.ensure_iff, overflowErrors]

lemma fitting_itemHeader (input : Bytes) : Fitting (Rlp.itemHeader input) := by
  rw [Rlp.itemHeader]
  refine Avoids.bind (Avoids.okOr (by simp [overflowErrors])) fun first _ => ?_
  dsimp only
  split_ifs
  · exact Avoids.pure _
  · exact Avoids.pure _
  · exact Avoids.bind (fitting_readLength _ _) fun _ _ => Avoids.pure _
  · exact Avoids.pure _
  · exact Avoids.bind (fitting_readLength _ _) fun _ _ => Avoids.pure _

lemma fitting_decodeItem (input : Bytes) (requireList : Bool) :
    Fitting (Rlp.decodeItem input requireList) := by
  refine Avoids.bind (fitting_itemHeader input) fun header _ => ?_
  simp [Avoids.bind_iff, Avoids.ensure_iff, overflowErrors]

lemma fitting_decodeItems (fuel : ℕ) : ∀ payload, Fitting (Rlp.decodeItems fuel payload) := by
  induction fuel with
  | zero =>
    intro payload
    cases payload with
    | nil => exact Avoids.ok _
    | cons b bs => simp [Rlp.decodeItems, overflowErrors]
  | succ fuel ih =>
    intro payload
    cases payload with
    | nil => exact Avoids.ok _
    | cons b bs =>
      refine Avoids.bind (fitting_decodeItem _ _) fun item _ => ?_
      exact Avoids.bind (ih _) fun _ _ => Avoids.pure _

lemma fitting_decodeList (input : Bytes) : Fitting (Rlp.decodeList input) := by
  refine Avoids.bind (fitting_decodeItem _ _) fun item _ => ?_
  refine Avoids.bind (Avoids.ensure (by simp [overflowErrors])) fun _ _ => ?_
  exact fitting_decodeItems _ _

lemma fitting_legacyFields (fields : List Bytes) {message : String}
    (h : message ∉ overflowErrors) : Fitting (legacyFields fields message) := by
  unfold legacyFields
  split
  · exact Avoids.ok _
  · exact Avoids.error_iff.mpr h

lemma fitting_validateAddress (address : String) : Fitting (validateAddress address) :=
  Avoids.ensure (notMem_overflowErrors (c := '잘') (by simp [toString_text]) (by decide))

lemma fitting_validateRewardAddress (address : String) : Fitting (validateRewardAddress address) :=
  Avoids.ensure (notMem_overflowErrors (c := '잘') (by simp [toString_text]) (by decide))

lemma fitting_checkPayment (u : Unit) (p : EventPayment) : Fitting (checkPayment u p) :=
  Avoids.bind (fitting_validateAddress _) fun _ _ => Avoids.ensure (by simp [overflowErrors])

/-! ## Credits -/

/-- No account has more than there is. -/
lemma balanceIn_le_supply (balances : Balances) (address : String) :
    (balanceIn balances address).toNat ≤ supply balances := by
  have hinsert := supply_insert balances address 0
  have hzero : (0 : U128).toNat = 0 := rfl
  omega

/-- A credit of what is missing to a bounded supply succeeds. -/
lemma exists_checkedAdd {balances : Balances} {address : String} {amount : U128}
    (h : supply balances + amount.toNat < 2 ^ 128) :
    ∃ sum, U128.checkedAdd (balanceIn balances address) amount = some sum := by
  have hbalance := balanceIn_le_supply balances address
  exact ⟨_, if_pos (by omega)⟩

lemma fitting_creditBalance {balances : Balances} {address message : String} {amount : U128}
    (h : supply balances + amount.toNat < 2 ^ 128) :
    Fitting (creditBalance balances address amount message) := by
  unfold creditBalance
  split
  · exact Avoids.ok _
  · refine Avoids.bind (Avoids.okOr_iff.mpr fun _ => exists_checkedAdd h) fun _ _ => ?_
    exact Avoids.pure _

/-- The fee of a transaction that its sender can pay. -/
lemma fitting_foundationFee {fee : U128} (h : fee.toNat ≤ (2 ^ 128 - 1) / 2000) :
    Fitting (foundationFee fee) := by
  refine Avoids.bind (Avoids.okOr_iff.mpr fun _ => ⟨_, if_pos ?_⟩) fun _ _ => Avoids.pure _
  show fee.toNat * 2000 < 2 ^ 128
  omega

/-- The supply is at most a 2000th of the largest amount. -/
def Bounded (balances : Balances) : Prop := supply balances ≤ (2 ^ 128 - 1) / 2000

lemma Bounded.of_eq {balances balances' : Balances} (h : Bounded balances)
    (heq : supply balances' = supply balances) : Bounded balances' := by
  rw [Bounded, heq]
  exact h

/-- A payment does not overflow: what is credited was taken from the foundation before. -/
lemma fitting_transferFromFoundation {balances : Balances} {receiver : String} {amount : U128}
    (h : Bounded balances) : Fitting (transferFromFoundation balances receiver amount) := by
  unfold Bounded at h
  refine Avoids.bind (Avoids.ensure (by simp [overflowErrors])) fun _ hfunds => ?_
  have hdebit := supply_debit (ensure_eq_ok.mp hfunds)
  exact fitting_creditBalance (by omega)

lemma fitting_addOne (n : UInt64) : Fitting (addOne n) := by
  unfold addOne
  split
  · exact Avoids.ok _
  · exact Avoids.error_iff.mpr (by simp [overflowErrors])

section
variable [Primitives]

lemma fitting_verifySignature (address : String) (message : Bytes) (signature : String) :
    Fitting (verifySignature address message signature) := by
  simp [verifySignature, Avoids.bind_iff, Avoids.ensure_iff, Avoids.okOr_iff, overflowErrors]

lemma fitting_verifyAccountSignature (address : String) (message : Bytes) (signature : String) :
    Fitting (verifyAccountSignature address message signature) := by
  simp [verifyAccountSignature, Avoids.bind_iff, Avoids.ensure_iff, Avoids.okOr_iff,
    overflowErrors]

lemma fitting_decodeLegacy (rawHex : String) (chainId : UInt64) :
    Fitting (decodeLegacy rawHex chainId) := by
  refine Avoids.bind (Avoids.okOr (by simp [overflowErrors])) fun raw _ => ?_
  refine Avoids.bind (fitting_decodeList raw) fun fields _ => ?_
  refine Avoids.bind (fitting_legacyFields fields (by simp [overflowErrors])) fun f _ => ?_
  obtain ⟨f0, f1, f2, receiver, f4, f5, f6, f7, f8⟩ := f
  refine Avoids.bind (fitting_valueU64 f0 (by decide)) fun nonce _ => ?_
  refine Avoids.bind (fitting_valueU64 f1 (by decide)) fun gasPrice _ => ?_
  refine Avoids.bind (fitting_valueU64 f2 (by decide)) fun gasLimit _ => ?_
  refine Avoids.bind (Avoids.ensure (by simp [overflowErrors])) fun _ _ => ?_
  refine Avoids.bind (fitting_valueU128 f4 (by decide)) fun amount _ => ?_
  refine Avoids.bind (Avoids.ensure (by simp [overflowErrors])) fun _ _ => ?_
  refine Avoids.bind (fitting_valueU64 f6 (by decide)) fun v _ => ?_
  refine Avoids.bind (Avoids.ensure (by simp [overflowErrors])) fun _ _ => ?_
  refine Avoids.bind (Avoids.ensure ?_) fun _ _ => ?_
  · exact notMem_overflowErrors (c := '체') (by simp [toString_text]) (by decide)
  refine Avoids.bind (fitting_paddedScalar f7 (by decide)) fun r _ => ?_
  refine Avoids.bind (fitting_paddedScalar f8 (by decide)) fun s _ => ?_
  simp [Avoids.bind_iff, Avoids.ensure_iff, Avoids.okOr_iff, overflowErrors]

lemma fitting_authenticate (chainId : UInt64) (tx : Transaction) :
    Fitting (authenticate chainId tx) := by
  unfold authenticate
  split
  · refine Avoids.bind (Avoids.okOr (by simp [overflowErrors])) fun raw _ => ?_
    refine Avoids.bind (Avoids.okOr (by simp [overflowErrors])) fun bytes _ => ?_
    refine Avoids.bind (fitting_decodeList bytes) fun fields _ => ?_
    refine Avoids.bind (fitting_legacyFields fields (by simp [overflowErrors])) fun f _ => ?_
    refine Avoids.bind (fitting_valueU64 _ (by decide)) fun v _ => ?_
    refine Avoids.bind (Avoids.ensure (by simp [overflowErrors])) fun _ _ => ?_
    refine Avoids.bind (fitting_decodeLegacy raw chainId) fun decoded _ => ?_
    exact Avoids.ensure (by simp [overflowErrors])
  · unfold verifyTransaction
    split_ifs
    · exact fitting_verifyAccountSignature _ _ _
    · exact fitting_verifySignature _ _ _

/-! ## Events -/

lemma fitting_verifyNodeIdentity (r : NodeRewardRegistration) : Fitting r.verifyNodeIdentity := by
  simp [NodeRewardRegistration.verifyNodeIdentity, Avoids.bind_iff, Avoids.ensure_iff,
    Avoids.okOr_iff, overflowErrors]

lemma fitting_checkValidatorRegistration (seen : Finset String × Finset String)
    (r : ValidatorRegistration) : Fitting (checkValidatorRegistration seen r) := by
  refine Avoids.bind (Avoids.ensure (by simp [overflowErrors])) fun _ _ => ?_
  exact Avoids.bind (fitting_verifySignature _ _ _) fun _ _ => Avoids.pure _

lemma fitting_checkNodeRegistration (seen : Finset String × Finset String)
    (r : NodeRewardRegistration) : Fitting (checkNodeRegistration seen r) := by
  refine Avoids.bind (fitting_validateRewardAddress _) fun _ _ => ?_
  refine Avoids.bind (fitting_verifyNodeIdentity r) fun _ _ => ?_
  refine Avoids.bind (Avoids.ensure (by simp [overflowErrors])) fun _ _ => ?_
  exact Avoids.bind (fitting_verifySignature _ _ _) fun _ _ => Avoids.pure _

lemma fitting_validate_action (a : ScheduledEventAction) : Fitting a.validate := by
  cases a with
  | treasuryDistribution recipients =>
    refine Avoids.bind (Avoids.ensure (by simp [overflowErrors])) fun _ _ => ?_
    exact Avoids.foldlM_of_forall fitting_checkPayment _ _
  | periodicProducerReward producer amount =>
    exact Avoids.bind (fitting_validateAddress _) fun _ _ =>
      Avoids.ensure (by simp [overflowErrors])
  | incidentCompensation incidentId victim amount =>
    refine Avoids.bind (Avoids.ensure (by simp [overflowErrors])) fun _ _ => ?_
    exact Avoids.bind (fitting_validateAddress _) fun _ _ =>
      Avoids.ensure (by simp [overflowErrors])
  | protocolCheckpoint protocolVersion => exact Avoids.ensure (by simp [overflowErrors])
  | bootstrapValidatorReward registrations amount =>
    refine Avoids.bind (Avoids.ensure (by simp [overflowErrors])) fun _ _ => ?_
    exact Avoids.bind (Avoids.foldlM_of_forall fitting_checkValidatorRegistration _ _)
      fun _ _ => Avoids.pure _
  | nodeMilestoneReward registrations amount =>
    refine Avoids.bind (Avoids.ensure (by simp [overflowErrors])) fun _ _ => ?_
    exact Avoids.bind (Avoids.foldlM_of_forall fitting_checkNodeRegistration _ _)
      fun _ _ => Avoids.pure _

lemma fitting_validate (e : ScheduledEvent) : Fitting e.validate := by
  refine Avoids.bind (Avoids.ensure (by simp [overflowErrors])) fun _ _ => ?_
  refine Avoids.bind (Avoids.ensure ?_) fun _ _ => fitting_validate_action e.action
  exact notMem_overflowErrors (c := '이') (by simp [toString_text]) (by decide)

/-- A transaction does not overflow: after the debit of `amount + fee`, the three credits of
`amount`, the producer's share and the foundation's share add up to what is missing. -/
lemma fitting_applyTransaction {chainId : UInt64} {producer : String} {tx : Transaction}
    {balances : Balances} {nonces : Nonces} (h : Bounded balances) :
    Fitting (applyTransaction chainId producer (balances, nonces) tx) := by
  unfold Bounded at h
  refine Avoids.bind (fitting_authenticate _ _) fun _ _ => ?_
  refine Avoids.bind (Avoids.ensure (by simp [overflowErrors])) fun _ _ => ?_
  refine Avoids.bind (Avoids.ensure ?_) fun _ _ => ?_
  · exact notMem_overflowErrors (c := 'n') (by simp [toString_text]) (by decide)
  refine Avoids.bind (Avoids.okOr (by simp [overflowErrors])) fun total htotal => ?_
  refine Avoids.bind (Avoids.ensure (by simp [overflowErrors])) fun _ hfunds => ?_
  have hfunds := ensure_eq_ok.mp hfunds
  have htotal := U128.checkedAdd_eq_some.mp (okOr_eq_ok.mp htotal)
  have hdebit := supply_debit hfunds
  have hbalance := balanceIn_le_supply balances tx.sender
  have hle := BitVec.le_def.mp hfunds
  -- after the debit
  refine Avoids.bind (Avoids.okOr_iff.mpr fun _ => exists_checkedAdd (by omega))
    fun received hreceived => ?_
  have hreceiver := supply_deposit (okOr_eq_ok.mp hreceived)
  refine Avoids.bind (fitting_foundationFee (by omega)) fun share hshare => ?_
  have hpart := foundationFee_le hshare
  -- after the receiver's credit
  have hrest := U128.toNat_sub hpart
  refine Avoids.bind (fitting_creditBalance (by omega)) fun b hproducer => ?_
  have hproducer := supply_creditBalance hproducer
  -- after the producer's credit
  refine Avoids.bind (fitting_creditBalance (by omega)) fun _ _ => ?_
  exact Avoids.bind (fitting_addOne _) fun _ _ => Avoids.pure _

/-! ## Blocks -/

lemma fitting_applySystemEvent {blockTimestamp : UInt64} {e : ScheduledEvent}
    {state : Balances × Finset String} (h : Bounded state.1) :
    Fitting (applySystemEvent blockTimestamp state e) := by
  refine Avoids.bind (fitting_validate e) fun _ _ => ?_
  refine Avoids.bind (Avoids.ensure ?_) fun _ _ => ?_
  · exact notMem_overflowErrors (c := '이') (by simp [toString_text]) (by decide)
  refine Avoids.bind (Avoids.ensure ?_) fun _ _ => ?_
  · exact notMem_overflowErrors (c := '이') (by simp [toString_text]) (by decide)
  refine Avoids.bind (Avoids.foldlM Bounded (fun b p hb => ?_) _ _ h) fun _ _ => Avoids.pure _
  exact ⟨fitting_transferFromFoundation hb,
    fun b' hb' => hb.of_eq (supply_transferFromFoundation hb')⟩

lemma fitting_executeBlock {chainId : UInt64} {state : LedgerState} {block : Block}
    (h : Bounded state.balances) : Fitting (executeBlock chainId state block) := by
  refine Avoids.bind (Avoids.foldlM (fun s => Bounded s.1) (fun s tx hs => ?_) _ _ h)
    fun s hs => ?_
  · refine ⟨fitting_applyTransaction hs, fun s' hs' => ?_⟩
    obtain ⟨_, _, _, htransfers, _⟩ := applyTransaction_eq_ok hs'
    exact hs.of_eq htransfers.supply_eq
  · have hsupply := supply_applyTransactions hs
    refine Avoids.bind (Avoids.foldlM (fun s => Bounded s.1) (fun s e hs => ?_) _ _
      (h.of_eq hsupply)) fun _ _ => Avoids.pure _
    refine ⟨fitting_applySystemEvent hs, fun s' hs' => ?_⟩
    obtain ⟨_, _, _, hpay, _⟩ := applySystemEvent_eq_ok.mp hs'
    exact hs.of_eq (supply_payFromFoundation hpay)

lemma fitting_applyBlock {c : Blockchain} (h : Bounded c.balances) (block : Block) :
    Fitting (c.applyBlock block) := by
  refine Avoids.bind (Avoids.okOr (by simp [overflowErrors])) fun previous _ => ?_
  refine Avoids.bind (fitting_addOne _) fun next _ => ?_
  refine Avoids.bind (Avoids.ensure (by simp [overflowErrors])) fun _ _ => ?_
  refine Avoids.bind (Avoids.ensure (by simp [overflowErrors])) fun _ _ => ?_
  exact Avoids.bind (fitting_executeBlock h) fun _ _ => Avoids.pure _

/-- **Ledger arithmetic does not overflow.** While the balances sum to at most a 2000th of the
largest amount, no block ends in one of the overflow errors, whichever of its addresses coincide.
The foundation's share of a fee never exceeds the fee. -/
theorem Blockchain.no_overflow (c : Blockchain)
    (hsupply : supply c.balances ≤ (2 ^ 128 - 1) / 2000) (block : Block) :
    (∀ e ∈ overflowErrors, c.applyBlock block ≠ .error e) ∧
      ∀ fee share : U128, foundationFee fee = .ok share → share ≤ fee :=
  ⟨fitting_applyBlock hsupply block, fun _ _ h => BitVec.le_def.mpr (foundationFee_le h)⟩

end

section
attribute [local instance] Devnet.primitives

/-- The ledger of one account is far below the bound. -/
theorem Blockchain.no_overflow_paid : supply Devnet.chain.balances ≤ (2 ^ 128 - 1) / 2000 ∧
    Devnet.chain.applyBlock Devnet.paid ≠ .error "재단 수수료 계산이 u128 범위를 넘습니다." := by
  have hsupply : supply Devnet.chain.balances ≤ (2 ^ 128 - 1) / 2000 := by
    have hinsert := supply_insert ∅ Devnet.validator 1000
    have hempty : supply ∅ = 0 := rfl
    have hamount : (1000 : U128).toNat = 1000 := rfl
    have hchain : Devnet.chain.balances = (∅ : Balances).insert Devnet.validator 1000 := rfl
    rw [hchain]
    omega
  exact ⟨hsupply, (no_overflow Devnet.chain hsupply Devnet.paid).1 _ (by simp [overflowErrors])⟩

end

end IeumChain
