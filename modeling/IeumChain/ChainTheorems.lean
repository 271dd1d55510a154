import IeumChain.Chain

/-!
# Supply conservation

What one transaction, one event and one block do to the ledger, and from it the conservation of
the supply:

* inversion lemmas for the functions of `chain.rs` (`applyTransaction_eq_ok`, `applyBlock_eq_ok`);
* each step moves coins between entries and leaves their sum alone;
* `Blockchain.supply_conserved`: so does every sequence of calls, whatever they return.
-/

namespace IeumChain

open Lib

/-- The sum of all entries. -/
def supply (balances : Balances) : ℕ := HashMap.total BitVec.toNat balances

/-! ## Single updates -/

/-- Writing an entry changes the supply by the new value minus the old balance. -/
lemma supply_insert (balances : Balances) (address : String) (value : U128) :
    supply (balances.insert address value) + (balanceIn balances address).toNat
      = supply balances + value.toNat := by
  have hshare : HashMap.share BitVec.toNat balances address
      = (balanceIn balances address).toNat := by
    unfold HashMap.share balanceIn
    cases balances.lookup address <;> rfl
  rw [← hshare]
  exact HashMap.total_insert BitVec.toNat balances address value

/-- Taking `amount` out of an account that has it. -/
lemma supply_debit {balances : Balances} {address : String} {amount : U128}
    (h : amount ≤ balanceIn balances address) :
    supply (balances.insert address (balanceIn balances address - amount)) + amount.toNat
      = supply balances := by
  have hle : amount.toNat ≤ (balanceIn balances address).toNat := BitVec.le_def.mp h
  have hinsert := supply_insert balances address (balanceIn balances address - amount)
  rw [U128.toNat_sub hle] at hinsert
  omega

/-- Adding `amount` to an account. -/
lemma supply_deposit {balances : Balances} {address : String} {amount sum : U128}
    (h : U128.checkedAdd (balanceIn balances address) amount = some sum) :
    supply (balances.insert address sum) = supply balances + amount.toNat := by
  have hsum := U128.checkedAdd_eq_some.mp h
  have hinsert := supply_insert balances address sum
  omega

lemma supply_creditBalance {balances balances' : Balances} {address message : String}
    {amount : U128} (h : creditBalance balances address amount message = .ok balances') :
    supply balances' = supply balances + amount.toNat := by
  unfold creditBalance at h
  split at h
  · rename_i hzero
    cases h
    rw [hzero]
    rfl
  · simp only [bind_eq_ok, okOr_eq_ok, pure_eq_ok] at h
    obtain ⟨sum, hsum, rfl⟩ := h
    exact supply_deposit hsum

/-- A credit that is not zero and does not overflow is written. -/
lemma creditBalance_eq_ok {balances : Balances} {address message : String} {amount sum : U128}
    (hamount : amount ≠ 0) (h : U128.checkedAdd (balanceIn balances address) amount = some sum) :
    creditBalance balances address amount message = .ok (balances.insert address sum) := by
  rw [creditBalance, if_neg hamount]
  simp only [bind_eq_ok, okOr_eq_ok, pure_eq_ok]
  exact ⟨sum, h, rfl⟩

/-- The balances after writing an entry. -/
lemma balanceIn_insert (balances : Balances) (address x : String) (value : U128) :
    balanceIn (balances.insert address value) x
      = if x = address then value else balanceIn balances x := by
  rw [balanceIn, HashMap.lookup_insert]
  split
  · rfl
  · rfl

/-- A credit adds to its account and to no other. -/
lemma balanceIn_creditBalance {balances balances' : Balances} {address message : String}
    {amount : U128} (h : creditBalance balances address amount message = .ok balances')
    (x : String) : (balanceIn balances' x).toNat
      = (balanceIn balances x).toNat + if x = address then amount.toNat else 0 := by
  unfold creditBalance at h
  split at h
  next hzero =>
    cases h
    simp [hzero]
  next =>
    simp only [bind_eq_ok, okOr_eq_ok, pure_eq_ok] at h
    obtain ⟨sum, hsum, rfl⟩ := h
    have hadd := U128.checkedAdd_eq_some.mp hsum
    rw [balanceIn_insert]
    split
    next heq => rw [heq, hadd]
    next => rfl

/-! ## One transfer -/

/-- The foundation's share is a fifth of the fee, rounded down. -/
lemma toNat_foundationFee {fee share : U128} (h : foundationFee fee = .ok share) :
    share.toNat = fee.toNat * 2000 / 10000 := by
  simp only [foundationFee, bind_eq_ok, okOr_eq_ok, pure_eq_ok] at h
  obtain ⟨scaled, hscaled, rfl⟩ := h
  have hmul := U128.checkedMul_eq_some.mp hscaled
  rw [BitVec.toNat_udiv, hmul]
  rfl

/-- The foundation's share is part of the fee. -/
lemma foundationFee_le {fee share : U128} (h : foundationFee fee = .ok share) :
    share.toNat ≤ fee.toNat := by
  have hshare := toNat_foundationFee h
  omega

/-- The effect of a transaction on the balances, once its checks passed. -/
structure Transfers (producer : String) (tx : Transaction) (balances balances' : Balances) :
    Prop where
  intro ::
  moved : ∃ total received share b₁ b₂ m₁ m₂,
    U128.checkedAdd tx.amount tx.fee = some total ∧
    total ≤ balanceIn balances tx.sender ∧
    b₁ = balances.insert tx.sender (balanceIn balances tx.sender - total) ∧
    U128.checkedAdd (balanceIn b₁ tx.receiver) tx.amount = some received ∧
    foundationFee tx.fee = .ok share ∧
    creditBalance (b₁.insert tx.receiver received) producer (tx.fee - share) m₁ = .ok b₂ ∧
    creditBalance b₂ foundationFeeAddress share m₂ = .ok balances'

/-- A transfer moves coins and makes none: the sender's debit is the receiver's credit and the
two shares of the fee, whichever of the four addresses coincide. -/
lemma Transfers.supply_eq {producer : String} {tx : Transaction} {balances balances' : Balances}
    (h : Transfers producer tx balances balances') : supply balances' = supply balances := by
  obtain ⟨total, received, share, b₁, b₂, m₁, m₂, htotal, hfunds, rfl, hreceived, hshare,
    hproducer, hfoundation⟩ := h.moved
  have hdebit := supply_debit hfunds
  have hreceiver := supply_deposit hreceived
  have hproducer' := supply_creditBalance hproducer
  have hfoundation' := supply_creditBalance hfoundation
  have hle := foundationFee_le hshare
  have htotal' := U128.checkedAdd_eq_some.mp htotal
  rw [U128.toNat_sub hle] at hproducer'
  omega

/-! ## Payments of events -/

lemma supply_transferFromFoundation {balances balances' : Balances} {receiver : String}
    {amount : U128} (h : transferFromFoundation balances receiver amount = .ok balances') :
    supply balances' = supply balances := by
  simp only [transferFromFoundation, bind_eq_ok, ensure_eq_ok] at h
  obtain ⟨_, hfunds, hcredit⟩ := h
  have hdebit := supply_debit hfunds
  have hcredit' := supply_creditBalance hcredit
  omega

lemma supply_payFromFoundation {balances balances' : Balances} {payments : List (String × U128)}
    (h : payFromFoundation balances payments = .ok balances') :
    supply balances' = supply balances := by
  refine foldlM_induction (fun b => supply b = supply balances) ?_ payments balances balances'
    rfl h
  intro b p b' hb hstep
  rw [supply_transferFromFoundation hstep, hb]

/-! ## Transactions and events of a block -/

section
variable [Primitives]

/-- A successful transaction is authentic, has the expected nonce, moves its coins and uses up
the nonce. -/
lemma applyTransaction_eq_ok {chainId : UInt64} {producer : String} {tx : Transaction}
    {balances balances' : Balances} {nonces nonces' : Nonces}
    (h : applyTransaction chainId producer (balances, nonces) tx = .ok (balances', nonces')) :
    authenticate chainId tx = .ok () ∧ tx.amount ≠ 0 ∧ tx.nonce = nonceIn nonces tx.sender ∧
      Transfers producer tx balances balances' ∧
      ∃ next, addOne (nonceIn nonces tx.sender) = .ok next ∧
        nonces' = nonces.insert tx.sender next := by
  unfold applyTransaction at h
  simp only [bind_eq_ok, ensure_eq_ok, okOr_eq_ok, pure_eq_ok, Prod.mk.injEq] at h
  obtain ⟨_, hauth, _, hamount, _, hnonce, total, htotal, _, hfunds, received, hreceived,
    share, hshare, b₂, hproducer, b₃, hfoundation, next, hnext, rfl, rfl⟩ := h
  exact ⟨hauth, hamount, hnonce,
    ⟨total, received, share, _, b₂, _, _, htotal, hfunds, rfl, hreceived, hshare, hproducer,
      hfoundation⟩, next, hnext, rfl⟩

lemma supply_applyTransactions {chainId : UInt64} {producer : String} {txs : List Transaction}
    {state state' : Balances × Nonces}
    (h : applyTransactions chainId txs producer state = .ok state') :
    supply state'.1 = supply state.1 := by
  refine foldlM_induction (fun s => supply s.1 = supply state.1) ?_ txs state state' rfl h
  intro s tx s' hs hstep
  obtain ⟨_, _, _, htransfers, _⟩ := applyTransaction_eq_ok hstep
  rw [htransfers.supply_eq, hs]

/-- A successful event is valid, due and new, makes its payments and is remembered. -/
lemma applySystemEvent_eq_ok {blockTimestamp : UInt64} {e : ScheduledEvent}
    {state state' : Balances × Finset String} :
    applySystemEvent blockTimestamp state e = .ok state' ↔
      e.validate = .ok () ∧ e.executeAt ≤ blockTimestamp ∧ e.id ∉ state.2 ∧
        payFromFoundation state.1 e.action.payments = .ok state'.1 ∧
        state'.2 = insert e.id state.2 := by
  simp only [applySystemEvent, bind_eq_ok, ensure_eq_ok, pure_eq_ok, Prod.ext_iff]
  constructor
  · rintro ⟨_, hvalid, _, hdue, _, hnew, b, hpay, rfl, hexecuted⟩
    exact ⟨hvalid, hdue, hnew, hpay, hexecuted.symm⟩
  · rintro ⟨hvalid, hdue, hnew, hpay, hexecuted⟩
    exact ⟨(), hvalid, (), hdue, (), hnew, _, hpay, rfl, hexecuted.symm⟩

lemma supply_applySystemEvents {events : List ScheduledEvent} {blockTimestamp : UInt64}
    {state state' : Balances × Finset String}
    (h : applySystemEvents events blockTimestamp state = .ok state') :
    supply state'.1 = supply state.1 := by
  refine foldlM_induction (fun s => supply s.1 = supply state.1) ?_ events state state' rfl h
  intro s e s' hs hstep
  obtain ⟨_, _, _, hpay, _⟩ := applySystemEvent_eq_ok.mp hstep
  rw [supply_payFromFoundation hpay, hs]

/-! ## Blocks -/

lemma executeBlock_eq_ok {chainId : UInt64} {state state' : LedgerState} {block : Block} :
    executeBlock chainId state block = .ok state' ↔
      ∃ balances, applyTransactions chainId block.transactions block.producer
          (state.balances, state.nextNonces) = .ok (balances, state'.nextNonces) ∧
        applySystemEvents block.systemEvents block.timestamp (balances, state.executedEvents)
          = .ok (state'.balances, state'.executedEvents) := by
  simp only [executeBlock, bind_eq_ok, pure_eq_ok, Prod.exists]
  constructor
  · rintro ⟨balances, nonces, htxs, balances', executed, hevents, rfl⟩
    exact ⟨balances, htxs, hevents⟩
  · rintro ⟨balances, htxs, hevents⟩
    exact ⟨balances, _, htxs, _, _, hevents, rfl⟩

lemma supply_executeBlock {chainId : UInt64} {state state' : LedgerState} {block : Block}
    (h : executeBlock chainId state block = .ok state') :
    supply state'.balances = supply state.balances := by
  obtain ⟨balances, htxs, hevents⟩ := executeBlock_eq_ok.mp h
  have htxs' := supply_applyTransactions htxs
  have hevents' := supply_applySystemEvents hevents
  exact hevents'.trans htxs'

namespace Blockchain

/-- The block links to `previous`, one above it, and carries its own hash. -/
structure Links (previous block : Block) : Prop where
  height : block.height.toNat = previous.height.toNat + 1
  previousHash : block.previousHash = previous.hash
  hash : block.hash = block.calculateHash

/-- A block is applied exactly when it links to the tip and executes; then it becomes the tip. -/
lemma applyBlock_eq_ok {c c' : Blockchain} {block : Block} :
    c.applyBlock block = .ok c' ↔
      ∃ previous state, c.blocks.getLast? = some previous ∧ Links previous block ∧
        executeBlock c.chainId c.state block = .ok state ∧
        c' = { c with blocks := c.blocks ++ [block] }.withState state := by
  simp only [applyBlock, bind_eq_ok, okOr_eq_ok, addOne_eq_ok, ensure_eq_ok, pure_eq_ok]
  constructor
  · rintro ⟨previous, hlast, next, hnext, _, ⟨rfl, hprevious⟩, _, hhash, state, hstate, rfl⟩
    exact ⟨previous, state, hlast, ⟨hnext, hprevious, hhash⟩, hstate, rfl⟩
  · rintro ⟨previous, state, hlast, hlinks, hstate, rfl⟩
    exact ⟨previous, hlast, block.height, hlinks.height, (), ⟨rfl, hlinks.previousHash⟩, (),
      hlinks.hash, state, hstate, rfl⟩

/-! ## The tip -/

omit [Primitives] in
lemma tipHeight_of_getLast {c : Blockchain} {previous : Block}
    (h : c.blocks.getLast? = some previous) :
    c.tipHeight = previous.height ∧ c.tipHash = previous.hash := by
  rw [tipHeight, tipHash, h]
  exact ⟨rfl, rfl⟩

/-- A block that was applied is the new tip, one above the old one. -/
lemma tipHeight_applyBlock {c c' : Blockchain} {b : Block} (h : c.applyBlock b = .ok c') :
    c'.tipHeight = b.height ∧ c'.tipHeight.toNat = c.tipHeight.toNat + 1 := by
  obtain ⟨previous, state, hlast, hlinks, _, rfl⟩ := applyBlock_eq_ok.mp h
  have htip : ({ c with blocks := c.blocks ++ [b] }.withState state).tipHeight = b.height := by
    simp [tipHeight]
  refine ⟨htip, ?_⟩
  rw [htip, hlinks.height, tipHeight, hlast]
  rfl

/-! ## Calls -/

/-- A call that changes the ledger. -/
inductive Call where
  | applyBlock (block : Block)
  | addBlock (now : UInt64) (transactions : List Transaction) (producer : String)
  | verifyAndRebuild

/-- The ledger after a call, whatever the call returned: an error leaves it as it was. -/
def call (c : Blockchain) : Call → Blockchain
  | .applyBlock block => getOk (c.applyBlock block) c
  | .addBlock now transactions producer => getOk (c.addBlock now transactions producer) c
  | .verifyAndRebuild => c.verifyAndRebuild.2

/-- The balances add up to the initial balances. -/
def SupplyKept (c : Blockchain) : Prop := supply c.balances = supply c.initialBalances

lemma applyBlock_initialBalances {c c' : Blockchain} {block : Block}
    (h : c.applyBlock block = .ok c') : c'.initialBalances = c.initialBalances := by
  obtain ⟨_, _, _, _, _, rfl⟩ := applyBlock_eq_ok.mp h
  rfl

lemma applyBlock_supplyKept {c c' : Blockchain} {block : Block} (hc : c.SupplyKept)
    (h : c.applyBlock block = .ok c') : c'.SupplyKept := by
  obtain ⟨_, state, _, _, hstate, rfl⟩ := applyBlock_eq_ok.mp h
  exact (supply_executeBlock hstate).trans hc

/-- A block built on the tip is applied as any other. -/
lemma addBlock_eq_ok {c c' : Blockchain} {now : UInt64} {transactions : List Transaction}
    {producer : String} (h : c.addBlock now transactions producer = .ok c') :
    ∃ block, c.applyBlock block = .ok c' := by
  simp only [addBlock, bind_eq_ok] at h
  obtain ⟨_, _, _, _, _, _, happly⟩ := h
  exact ⟨_, happly⟩

lemma supply_rebuildFrom {chainId : UInt64} {blocks : List Block} :
    ∀ {index : ℕ} {previous : Block} {state state' : LedgerState},
      rebuildFrom chainId index previous blocks state = .ok state' →
        supply state'.balances = supply state.balances := by
  induction blocks with
  | nil =>
    intro index previous state state' h
    cases h
    rfl
  | cons block rest ih =>
    intro index previous state state' h
    simp only [rebuildFrom, bind_eq_ok] at h
    obtain ⟨_, _, _, _, _, _, mid, hmid, hrest⟩ := h
    rw [ih hrest, supply_executeBlock hmid]

lemma verifyAndRebuild_supplyKept {c : Blockchain} (hc : c.SupplyKept) :
    c.verifyAndRebuild.2.SupplyKept := by
  unfold verifyAndRebuild
  split
  · rename_i state hstate
    simp only [rebuild, bind_eq_ok] at hstate
    obtain ⟨_, _, _, _, hfrom⟩ := hstate
    exact supply_rebuildFrom hfrom
  · exact hc

lemma verifyAndRebuild_initialBalances (c : Blockchain) :
    c.verifyAndRebuild.2.initialBalances = c.initialBalances := by
  unfold verifyAndRebuild
  split <;> rfl

/-- One call, successful or failing, keeps the supply. -/
lemma call_supplyKept {c : Blockchain} (hc : c.SupplyKept) (op : Call) :
    (c.call op).SupplyKept ∧ (c.call op).initialBalances = c.initialBalances := by
  cases op with
  | applyBlock block =>
    cases h : c.applyBlock block with
    | error e => simpa [call, h] using hc
    | ok c' =>
      simpa [call, h] using
        And.intro (applyBlock_supplyKept hc h) (applyBlock_initialBalances h)
  | addBlock now transactions producer =>
    cases h : c.addBlock now transactions producer with
    | error e => simpa [call, h] using hc
    | ok c' =>
      obtain ⟨block, hblock⟩ := addBlock_eq_ok h
      simpa [call, h] using
        And.intro (applyBlock_supplyKept hc hblock) (applyBlock_initialBalances hblock)
  | verifyAndRebuild => exact ⟨verifyAndRebuild_supplyKept hc, verifyAndRebuild_initialBalances c⟩

/-- **Supply conservation.** After any sequence of calls on a ledger that started from
`with_chain_id`, the balances add up to the initial balances it was given. -/
theorem supply_conserved (chainId : UInt64) (initial : List (String × U128)) (calls : List Call) :
    (calls.foldl call (withChainId chainId initial)).initialBalances = HashMap.ofList initial ∧
      supply (calls.foldl call (withChainId chainId initial)).balances
        = supply (calls.foldl call (withChainId chainId initial)).initialBalances := by
  suffices h : ∀ (l : List Call) (c : Blockchain), c.SupplyKept →
      (l.foldl call c).initialBalances = c.initialBalances ∧ (l.foldl call c).SupplyKept from
    h calls (withChainId chainId initial) rfl
  intro l
  induction l with
  | nil => exact fun c hc => ⟨rfl, hc⟩
  | cons op l ih =>
    intro c hc
    obtain ⟨hkept, hinitial⟩ := call_supplyKept hc op
    obtain ⟨hinitial', hkept'⟩ := ih _ hkept
    exact ⟨hinitial'.trans hinitial, hkept'⟩

end Blockchain

end

end IeumChain
