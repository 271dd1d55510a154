import IeumChain.Genesis
import IeumChain.RebuildTheorems
import IeumChain.Devnet

/-!
# Spellings of an address in the ledger

The genesis balances and the payments of events are written under normalised addresses, the
transfers of a block under the texts the transactions and the block give. Entries are never
removed, so a ledger has its `0x` entries under normalised addresses exactly when every address
that was ever written was one: the genesis addresses normalise to texts that are normal
themselves, and all senders, receivers and fee-earning producers are spelled that way
(`one_entry_iff`).
-/

namespace IeumChain

open Lib

/-! ## Normal addresses -/

/-- The ledger's normalisation leaves the address as it is. -/
def IsNormal (address : String) : Prop := normalizeAddress address = address

instance (address : String) : Decidable (IsNormal address) := inferInstanceAs (Decidable (_ = _))

lemma IsNormal.of_noX {address : String} (h : NoX address) : IsNormal address := by
  rw [IsNormal, normalizeAddress, h.startsWith]
  rfl

lemma normalizeAddress_append {digits : String} (h : NoX digits) :
    normalizeAddress ("0x" ++ digits) = "0x" ++ toAsciiLowercase digits := by
  rw [normalizeAddress, if_pos (startsWith_append _ _), trimStart0x_append, h.trimStart0x]

/-- One `0x` and no other x normalise to a normal address. -/
lemma IsNormal.normalizeAddress_append {digits : String} (h : NoX digits) :
    IsNormal (normalizeAddress ("0x" ++ digits)) := by
  rw [IsNormal, IeumChain.normalizeAddress_append h,
    IeumChain.normalizeAddress_append h.toAsciiLowercase, toAsciiLowercase_toAsciiLowercase]

lemma isNormal_foundation : IsNormal foundationFeeAddress := by decide

/-- An address an event may pay to is normal once it is normalised. -/
lemma isNormal_of_validateAddress {address : String} (h : validateAddress address = .ok ()) :
    IsNormal (normalizeAddress address) := by
  obtain ⟨_, hhex⟩ := ensure_eq_ok.mp h
  cases hstrip : stripPrefix address "0x" with
  | some digits =>
    rw [hstrip, Option.getD_some] at hhex
    rw [stripPrefix_eq_some hstrip]
    exact IsNormal.normalizeAddress_append (noX_of_all_hex hhex)
  | none =>
    rw [hstrip, Option.getD_none] at hhex
    have hnormal := IsNormal.of_noX (noX_of_all_hex hhex)
    rw [hnormal]
    exact hnormal

/-! ## Keys of a map -/

/-- Every key is a normal address. -/
def AllNormal {V : Type} (m : HashMap String V) : Prop := ∀ key ∈ m, IsNormal key

lemma allNormal_insert {V : Type} {m : HashMap String V} {key : String} {value : V} :
    AllNormal (m.insert key value) ↔ AllNormal m ∧ IsNormal key := by
  unfold AllNormal
  simp only [Finmap.mem_insert, or_imp, forall_and, forall_eq]
  exact and_comm

lemma allNormal_empty {V : Type} : AllNormal (∅ : HashMap String V) := fun _ h =>
  absurd h Finmap.notMem_empty

lemma allNormal_ofList {V : Type} (entries : List (String × V)) :
    AllNormal (HashMap.ofList entries) ↔ ∀ entry ∈ entries, IsNormal entry.1 := by
  have hfold : ∀ m : HashMap String V,
      AllNormal (entries.foldl (fun m entry => m.insert entry.1 entry.2) m) ↔
        AllNormal m ∧ ∀ entry ∈ entries, IsNormal entry.1 := by
    induction entries with
    | nil => simp
    | cons entry entries ih =>
      intro m
      rw [List.foldl_cons, ih, allNormal_insert, List.forall_mem_cons, and_assoc]
  rw [HashMap.ofList, hfold]
  exact ⟨And.right, fun h => ⟨allNormal_empty, h⟩⟩

/-! ## One step -/

lemma allNormal_creditBalance {balances balances' : Balances} {address message : String}
    {amount : U128} (h : creditBalance balances address amount message = .ok balances') :
    AllNormal balances' ↔ AllNormal balances ∧ (amount = 0 ∨ IsNormal address) := by
  unfold creditBalance at h
  split at h
  next hzero =>
    cases h
    simp [hzero]
  next hpos =>
    simp only [bind_eq_ok, okOr_eq_ok, pure_eq_ok] at h
    obtain ⟨sum, _, rfl⟩ := h
    rw [allNormal_insert]
    constructor
    · rintro ⟨hbalances, haddress⟩
      exact ⟨hbalances, .inr haddress⟩
    · rintro ⟨hbalances, haddress⟩
      exact ⟨hbalances, haddress.resolve_left hpos⟩

/-- The producer's share of a fee is nothing only when the fee is. -/
lemma producerShare_eq_zero {fee share : U128} (h : foundationFee fee = .ok share) :
    fee - share = 0 ↔ fee = 0 := by
  have hshare := toNat_foundationFee h
  rw [← BitVec.toNat_inj, ← BitVec.toNat_inj, U128.toNat_sub (foundationFee_le h)]
  show fee.toNat - share.toNat = 0 ↔ fee.toNat = 0
  omega

/-- A transaction writes under its own texts and, for a fee, under the producer. -/
lemma Transfers.allNormal_iff {producer : String} {tx : Transaction}
    {balances balances' : Balances} (h : Transfers producer tx balances balances') :
    AllNormal balances' ↔ AllNormal balances ∧ IsNormal tx.sender ∧ IsNormal tx.receiver ∧
      (tx.fee = 0 ∨ IsNormal producer) := by
  obtain ⟨total, received, share, b₁, b₂, m₁, m₂, _, _, rfl, _, hshare, hproducer,
    hfoundation⟩ := h.moved
  rw [allNormal_creditBalance hfoundation, allNormal_creditBalance hproducer, allNormal_insert,
    allNormal_insert, producerShare_eq_zero hshare]
  -- the foundation's text is normal, so its share of the fee changes nothing
  simp only [isNormal_foundation, or_true, and_true, and_assoc]

lemma allNormal_transferFromFoundation {balances balances' : Balances} {receiver : String}
    {amount : U128} (h : transferFromFoundation balances receiver amount = .ok balances')
    (hreceiver : IsNormal (normalizeAddress receiver)) :
    AllNormal balances' ↔ AllNormal balances := by
  simp only [transferFromFoundation, bind_eq_ok, ensure_eq_ok] at h
  obtain ⟨_, _, hcredit⟩ := h
  rw [allNormal_creditBalance hcredit, allNormal_insert]
  simp only [isNormal_foundation, hreceiver, or_true, and_true]

/-- Payments to normalised addresses leave the keys normal or not as they were. -/
lemma allNormal_payFromFoundation {payments : List (String × U128)} :
    ∀ {balances balances' : Balances}, payFromFoundation balances payments = .ok balances' →
      (∀ p ∈ payments, IsNormal (normalizeAddress p.1)) →
      (AllNormal balances' ↔ AllNormal balances) := by
  induction payments with
  | nil =>
    intro balances balances' h _
    rw [payFromFoundation, List.foldlM_nil, pure_eq_ok] at h
    rw [h]
  | cons p payments ih =>
    intro balances balances' h hnormal
    obtain ⟨hp, hpayments⟩ := List.forall_mem_cons.mp hnormal
    obtain ⟨mid, hfirst, hrest⟩ := foldlM_cons_eq_ok.mp h
    rw [ih hrest hpayments, allNormal_transferFromFoundation hfirst hp]

/-- The addresses of an action that are checked as Ethereum addresses. -/
def ScheduledEventAction.accounts : ScheduledEventAction → List String
  | .treasuryDistribution recipients => recipients.map EventPayment.address
  | .periodicProducerReward producer _ => [producer]
  | .incidentCompensation _ victim _ => [victim]
  | _ => []

/-- The ledger pays them. -/
lemma exists_payment_of_account {a : ScheduledEventAction} {account : String}
    (h : account ∈ a.accounts) : ∃ p ∈ a.payments, p.1 = account := by
  cases a with
  | treasuryDistribution recipients =>
    obtain ⟨r, hr, rfl⟩ := List.mem_map.mp h
    exact ⟨_, List.mem_map_of_mem hr, rfl⟩
  | periodicProducerReward producer amount =>
    exact ⟨_, List.mem_singleton_self _, (List.mem_singleton.mp h).symm⟩
  | incidentCompensation incidentId victim amount =>
    exact ⟨_, List.mem_singleton_self _, (List.mem_singleton.mp h).symm⟩
  | _ => cases h

section
variable [Primitives]

lemma noX_of_verifySignature {address sig : String} {message : Bytes}
    (h : verifySignature address message sig = .ok ()) : NoX address := by
  simp only [verifySignature, bind_eq_ok, okOr_eq_ok] at h
  obtain ⟨_, hkey, _⟩ := h
  exact noX_of_hexDecode hkey

/-- What a valid event pays is not zero and goes to an Ethereum address, to an address that signed
or to a reward address. -/
lemma payee_cases {e : ScheduledEvent} (h : e.validate = .ok ()) :
    ∀ p ∈ e.action.payments, p.2 ≠ 0 ∧
      ((p.1 ∈ e.action.accounts ∧ validateAddress p.1 = .ok ()) ∨
        e.action.accounts = [] ∧
          ((∃ message signature, verifySignature p.1 message signature = .ok ()) ∨
            validateRewardAddress p.1 = .ok ())) := by
  simp only [ScheduledEvent.validate, bind_eq_ok, ensure_eq_ok] at h
  -- the checks of each kind of event, as `validate` makes them
  obtain ⟨_, _, _, _, haction⟩ := h
  obtain ⟨id, executeAt, action⟩ := e
  cases action with
  | treasuryDistribution recipients =>
    simp only [ScheduledEventAction.validate, bind_eq_ok] at haction
    obtain ⟨_, _, hchecks⟩ := haction
    have hvalid := foldlM_forall (fun p => validateAddress p.address = .ok () ∧ p.amount ≠ 0)
      (fun _ p _ hp => by
        simp only [checkPayment, bind_eq_ok, ensure_eq_ok] at hp
        exact ⟨hp.choose_spec.1, hp.choose_spec.2⟩) hchecks
    intro p hp
    obtain ⟨r, hr, rfl⟩ := List.mem_map.mp hp
    exact ⟨(hvalid r hr).2, .inl ⟨List.mem_map_of_mem hr, (hvalid r hr).1⟩⟩
  | periodicProducerReward producer amount =>
    simp only [ScheduledEventAction.validate, bind_eq_ok, ensure_eq_ok] at haction
    obtain ⟨_, hproducer, hamount⟩ := haction
    intro p hp
    rw [List.mem_singleton.mp hp]
    exact ⟨hamount, .inl ⟨List.mem_singleton_self _, hproducer⟩⟩
  | incidentCompensation incidentId victim amount =>
    simp only [ScheduledEventAction.validate, bind_eq_ok, ensure_eq_ok] at haction
    obtain ⟨_, _, _, hvictim, hamount⟩ := haction
    intro p hp
    rw [List.mem_singleton.mp hp]
    exact ⟨hamount, .inl ⟨List.mem_singleton_self _, hvictim⟩⟩
  | protocolCheckpoint protocolVersion =>
    intro p hp
    cases hp
  | bootstrapValidatorReward registrations amount =>
    simp only [ScheduledEventAction.validate, bind_eq_ok, ensure_eq_ok] at haction
    obtain ⟨_, ⟨_, hamount⟩, _, hchecks, _⟩ := haction
    -- the source checks the signature of the id that is paid, not its address
    have hvalid := foldlM_forall (fun r => ∃ message signature,
      verifySignature r.validatorId message signature = .ok ())
      (fun _ r _ hr => by
        simp only [checkValidatorRegistration, bind_eq_ok] at hr
        obtain ⟨_, _, _, hsigned, _⟩ := hr
        exact ⟨_, _, hsigned⟩) hchecks
    intro p hp
    obtain ⟨r, hr, rfl⟩ := List.mem_map.mp hp
    exact ⟨hamount, .inr ⟨rfl, .inl (hvalid r hr)⟩⟩
  | nodeMilestoneReward registrations amount =>
    simp only [ScheduledEventAction.validate, bind_eq_ok, ensure_eq_ok] at haction
    obtain ⟨_, ⟨_, hamount⟩, _, hchecks, _⟩ := haction
    have hvalid := foldlM_forall (fun r => validateRewardAddress r.rewardAddress = .ok ())
      (fun _ r _ hr => by
        simp only [checkNodeRegistration, bind_eq_ok] at hr
        exact hr.choose_spec.1) hchecks
    intro p hp
    obtain ⟨r, hr, rfl⟩ := List.mem_map.mp hp
    exact ⟨hamount, .inr ⟨rfl, .inr (hvalid r hr)⟩⟩

/-- The addresses a valid event pays to are normal once they are normalised. -/
lemma isNormal_of_validate {e : ScheduledEvent} (h : e.validate = .ok ()) :
    ∀ p ∈ e.action.payments, IsNormal (normalizeAddress p.1) := by
  have hnoX : ∀ {address : String}, NoX address → IsNormal (normalizeAddress address) := by
    intro address hx
    have hnormal := IsNormal.of_noX hx
    rw [hnormal]
    exact hnormal
  intro p hp
  obtain ⟨_, ⟨_, haddress⟩ | ⟨_, ⟨_, _, hsigned⟩ | hreward⟩⟩ := payee_cases h p hp
  · exact isNormal_of_validateAddress haddress
  · exact hnoX (noX_of_verifySignature hsigned)
  · exact hnoX (noX_of_all_hex (ensure_eq_ok.mp hreward).2)

/-! ## Blocks -/

/-- The transaction's texts are normal, and the producer's if the transaction pays a fee. -/
def SpelledNormally (producer : String) (tx : Transaction) : Prop :=
  IsNormal tx.sender ∧ IsNormal tx.receiver ∧ (tx.fee = 0 ∨ IsNormal producer)

lemma allNormal_executeBlock {chainId : UInt64} {state state' : LedgerState} {block : Block}
    (h : executeBlock chainId state block = .ok state') :
    (AllNormal state'.balances ∧ AllNormal state'.nextNonces) ↔
      (AllNormal state.balances ∧ AllNormal state.nextNonces) ∧
        ∀ tx ∈ block.transactions, SpelledNormally block.producer tx := by
  obtain ⟨balances, htxs, hevents⟩ := executeBlock_eq_ok.mp h
  have hpaid : AllNormal state'.balances ↔ AllNormal balances := by
    have hsteps := foldlM_iff (P := fun s : Balances × Finset String => AllNormal s.1)
      (Q := fun _ => True) (fun s e s' hstep => by
        obtain ⟨hvalid, _, _, hpay, _⟩ := applySystemEvent_eq_ok.mp hstep
        rw [allNormal_payFromFoundation hpay (isNormal_of_validate hvalid), and_true]) hevents
    simpa using hsteps
  have hmoved := foldlM_iff
    (P := fun s : Balances × Nonces => AllNormal s.1 ∧ AllNormal s.2)
    (Q := SpelledNormally block.producer) (fun s tx s' hstep => by
      obtain ⟨_, _, _, htransfers, next, _, hnonces⟩ := applyTransaction_eq_ok hstep
      rw [hnonces, htransfers.allNormal_iff, allNormal_insert, SpelledNormally]
      constructor
      · rintro ⟨⟨hbalances, hspelled⟩, hnext, _⟩
        exact ⟨⟨hbalances, hnext⟩, hspelled⟩
      · rintro ⟨⟨hbalances, hnext⟩, hspelled⟩
        exact ⟨⟨hbalances, hspelled⟩, hnext, hspelled.1⟩) htxs
  rw [hpaid]
  exact hmoved

namespace Blockchain

/-- Every `0x` entry of the ledger is under a normalised address, and no two entries are under
spellings of one address. -/
def OneEntryEach (c : Blockchain) : Prop :=
  (∀ key, key ∈ c.balances ∨ key ∈ c.nextNonces → startsWith key "0x" = true →
    normalizeAddress key = key) ∧
  ∀ key key', (key ∈ c.balances ∧ key' ∈ c.balances ∨ key ∈ c.nextNonces ∧ key' ∈ c.nextNonces) →
    normalizeAddress key = normalizeAddress key' → key = key'

omit [Primitives] in
/-- Addresses without `0x` are normal anyway. -/
lemma oneEntryEach_iff (c : Blockchain) :
    c.OneEntryEach ↔ AllNormal c.balances ∧ AllNormal c.nextNonces := by
  constructor
  · rintro ⟨h, _⟩
    have hnormal : ∀ key, key ∈ c.balances ∨ key ∈ c.nextNonces → IsNormal key := by
      intro key hkey
      by_cases hstarts : startsWith key "0x" = true
      · exact h key hkey hstarts
      · rw [IsNormal, normalizeAddress, if_neg hstarts]
    exact ⟨fun key hkey => hnormal key (.inl hkey), fun key hkey => hnormal key (.inr hkey)⟩
  · rintro ⟨hbalances, hnonces⟩
    refine ⟨fun key hkey _ => hkey.elim (hbalances key) (hnonces key), ?_⟩
    rintro key key' (⟨hkey, hkey'⟩ | ⟨hkey, hkey'⟩) heq
    · rwa [hbalances key hkey, hbalances key' hkey'] at heq
    · rwa [hnonces key hkey, hnonces key' hkey'] at heq

/-- **Each account has one entry exactly when every address was spelled normally.** A ledger that
starts from a genesis configuration and applied blocks has its `0x` entries under normalised
addresses exactly when the genesis addresses normalise to normal ones and every transaction of
the blocks is spelled normally, with the producer where there is a fee. -/
theorem one_entry_iff (genesis : GenesisConfig) (c : Blockchain)
    (hgenesis : fromGenesis genesis = .ok c) (blocks : List Block) (c' : Blockchain)
    (hblocks : c.applyBlocks blocks = .ok c') :
    c'.OneEntryEach ↔
      (∀ entry ∈ genesis.initialBalances, IsNormal (normalizeAddress entry.1)) ∧
        ∀ block ∈ blocks, ∀ tx ∈ block.transactions, SpelledNormally block.producer tx := by
  obtain ⟨_, rfl⟩ := fromGenesis_eq_ok.mp hgenesis
  have hsteps := foldlM_iff
    (P := fun c : Blockchain => AllNormal c.balances ∧ AllNormal c.nextNonces)
    (Q := fun block => ∀ tx ∈ block.transactions, SpelledNormally block.producer tx)
    (fun c block c' hstep => by
      obtain ⟨_, state, _, _, hexecute, rfl⟩ := applyBlock_eq_ok.mp hstep
      exact allNormal_executeBlock hexecute) hblocks
  rw [oneEntryEach_iff, hsteps]
  apply and_congr_left
  intro _
  show AllNormal (HashMap.ofList _) ∧ AllNormal (∅ : Nonces) ↔ _
  rw [allNormal_ofList, List.forall_mem_map]
  exact ⟨And.left, fun h => ⟨h, allNormal_empty⟩⟩

end Blockchain

end

/-! ## A network of four keys -/

namespace Checksum

/-- Four validators, the first of which has all coins. -/
def genesis : GenesisConfig where
  chainId := 1
  networkName := "devnet"
  genesisTime := 0
  initialBalances := [(Devnet.validator, 1000)]
  validators := [⟨Devnet.validator, 100⟩, ⟨Devnet.user, 100⟩,
    ⟨Devnet.digest 0xed4928c628d1c2c6eae90338905995612959273a5c63f93636c14614ac8737d1, 100⟩,
    ⟨Devnet.digest 0xca93ac1705187071d67b83c7ff0efe8108e8ec4530575d7726879333dbdabe7c, 100⟩]
  maxBlockBytes := 1000000
  maxActiveBlockBytes := 100000000

lemma genesis_valid : genesis.validate = .ok () := by decide

/-- An Ethereum address as wallets show it, with a checksum in the case of its letters. -/
def receiver : String := "0x7E5F4552091A69125d5DfCb7b8C2659029395Bdf"

/-- A transfer to an address in some spelling. -/
def payment (receiver : String) (r s : ℕ) : Transaction :=
  { sender := Devnet.validator
    receiver
    amount := 10
    fee := 0
    nonce := 0
    signature := Devnet.signature r s }

/-- A transfer to that address, as the wallet spells it. -/
def transfer : Transaction :=
  payment receiver
    0xad4acaaf6539ed71bb0a109e19960a1911997ad6061af47353d30f55f7ea47fd
    0x7fe515ab6d7d746c03d2e413ed0f2279efc633ed5dcdb129e21d3e89067bf40e

/-- The address in its normal spelling. -/
def normalReceiver : String := "0x7e5f4552091a69125d5dfcb7b8c2659029395bdf"

/-- A transfer to the normal spelling. -/
def normalTransfer : Transaction :=
  payment normalReceiver
    0x164f787c3dbaa9db5ae66993a67a968218a53db032b0e7f98f8423a58fc9d714
    0x863c722f501b2bf23e9b5128e97767b5b3e3e2052f85eb9159768b9803157405

/-- The block with the transfer as the wallet spells it. -/
def block : Block :=
  Devnet.block 1 Devnet.genesisHash 100 [transfer]
    0x2e1be3966001202037c4ee7c8817569b32b8b9912fc34d636e9cce0931853357

/-- The block with the transfer to the normal spelling. -/
def normalBlock : Block :=
  Devnet.block 1 Devnet.genesisHash 100 [normalTransfer]
    0x648eae0e0a70d5942b941fbed7402a707f00d5b7a4ba13ee8d6a8836f6761af5

/-- The primitives of the two keys, with the signatures of these transfers. -/
@[reducible] def primitives : Primitives :=
  { Devnet.primitives with
    ed25519Verify := Devnet.signedIn <| [transfer, normalTransfer].map fun tx =>
      (tx.sender, tx.signingBytes, tx.signature) }

attribute [local instance] primitives

lemma block_hash : block.hash = block.calculateHash :=
  Devnet.digest_eq (by decide +kernel)

lemma normalBlock_hash : normalBlock.hash = normalBlock.calculateHash :=
  Devnet.digest_eq (by decide +kernel)

lemma genesis_hash : Devnet.genesisHash = Block.genesis.hash := Devnet.genesis_hash

section
variable {address : String} {r s : ℕ}

lemma payment_authentic (hmem : payment address r s ∈ [transfer, normalTransfer]) :
    authenticate 1 (payment address r s) = .ok () := by
  have hraw : startsWith (payment address r s).signature "ethraw:" = false :=
    startsWith_hexEncode 'e' ['h', 'r', 'a', 'w', ':'] (b := 't') (by decide)
  have heth : startsWith (payment address r s).sender "0x" = false :=
    startsWith_hexEncode '0' [] (b := 'x') (by decide)
  rw [authenticate, hraw, verifyTransaction, hraw, heth]
  refine Devnet.verifySignature_of_keys (.inl rfl) ⟨_, _, rfl⟩
    ⟨decide_eq_true (.inl rfl), decide_eq_true (.inr rfl)⟩ ?_
  intro key bytes hkey hbytes
  show List.contains _ (hexEncode key, (payment address r s).signingBytes, hexEncode bytes) = true
  rw [hkey, hbytes]
  exact List.contains_iff_mem.mpr (List.mem_map_of_mem hmem)

/-- A transfer moves the coins to an entry under the text it names. -/
lemma payment_applies (hmem : payment address r s ∈ [transfer, normalTransfer])
    (hlength : textLen address = 42) : ∃ balances, applyTransaction 1 Devnet.validator
    (HashMap.ofList [(Devnet.validator, 1000)], ∅) (payment address r s)
      = .ok (balances, (∅ : Nonces).insert Devnet.validator 1) ∧
    balances.lookup address = some 10 := by
  set b₀ : Balances := HashMap.ofList [(Devnet.validator, 1000)] with hb₀
  have hne : address ≠ Devnet.validator := by
    rintro rfl
    rw [Devnet.validator, textLen_hexEncode] at hlength
    revert hlength
    decide
  have hsender : balanceIn b₀ Devnet.validator = 1000 := by
    simp [balanceIn, hb₀, HashMap.ofList]
  have hreceiver : balanceIn (b₀.insert Devnet.validator 990) address = 0 := by
    simp [balanceIn, hb₀, HashMap.ofList, hne]
  have hdebit : b₀.insert Devnet.validator (balanceIn b₀ Devnet.validator - 10)
      = b₀.insert Devnet.validator 990 := by
    rw [hsender]
    rfl
  refine ⟨(b₀.insert Devnet.validator 990).insert address 10, ?_,
    HashMap.lookup_insert_self _ _ _⟩
  have hfee : foundationFee (payment address r s).fee = .ok 0 := by
    show foundationFee 0 = .ok 0
    rfl
  have hcredit : ∀ (b : Balances) key e,
      creditBalance b key ((payment address r s).fee - 0) e = .ok b := by
    intro b key e
    show creditBalance b key (0 - 0) e = .ok b
    rfl
  simp only [applyTransaction, bind_eq_ok, ensure_eq_ok, okOr_eq_ok, pure_eq_ok]
  refine ⟨(), payment_authentic hmem, (), ?_, (), rfl, 10, rfl, (), ?_, 10, ?_, 0, hfee, _,
    hcredit _ _ _, _, rfl, 1, rfl, ?_⟩
  · show (10 : U128) ≠ 0
    decide
  · show (10 : U128) ≤ balanceIn b₀ Devnet.validator
    rw [hsender]
    decide
  · show U128.checkedAdd
      (balanceIn (b₀.insert Devnet.validator (balanceIn b₀ Devnet.validator - 10)) address) 10
        = some 10
    rw [hdebit, hreceiver]
    rfl
  · show ((b₀.insert Devnet.validator (balanceIn b₀ Devnet.validator - 10)).insert address 10, _)
      = _
    rw [hdebit]
    rfl

end

/-- The ledger of the configuration. -/
def chain : Blockchain :=
  { Blockchain.withChainId 1 [(Devnet.validator, 1000)] with
    genesisCommitment := sha256Hex genesis.json }

lemma fromGenesis_genesis : Blockchain.fromGenesis genesis = .ok chain := by
  have hvalidator : normalizeAddress Devnet.validator = Devnet.validator :=
    IsNormal.of_noX (noX_of_hexDecode (hexDecode_hexEncode _))
  refine Blockchain.fromGenesis_eq_ok.mpr ⟨genesis_valid, ?_⟩
  show _ = { Blockchain.withChainId 1 [(normalizeAddress Devnet.validator, 1000)] with
    genesisCommitment := sha256Hex genesis.json }
  rw [hvalidator]
  rfl

/-- A block with one of the transfers is applied and leaves an entry under the text it names. -/
lemma block_applies {address : String} {r s hash : ℕ}
    (hmem : payment address r s ∈ [transfer, normalTransfer]) (hlength : textLen address = 42)
    {b : Block} (hb : b = Devnet.block 1 Devnet.genesisHash 100 [payment address r s] hash)
    (hhash : b.hash = b.calculateHash) :
    ∃ c, chain.applyBlock b = .ok c ∧ c.balances.lookup address = some 10 := by
  obtain ⟨balances, htransfer, hentry⟩ := payment_applies hmem hlength
  subst hb
  refine ⟨_, Blockchain.applyBlock_eq_ok.mpr ⟨Block.genesis,
    ⟨balances, (∅ : Nonces).insert Devnet.validator 1, ∅⟩, rfl, ⟨rfl, genesis_hash, hhash⟩,
    executeBlock_eq_ok.mpr ⟨balances, ?_, rfl⟩, rfl⟩, hentry⟩
  exact foldlM_cons_eq_ok.mpr ⟨_, htransfer, rfl⟩

/-- The coins sent to the address stand under a text that is not its normal spelling. -/
theorem checksummed_entry : ∃ c c',
    Blockchain.fromGenesis genesis = .ok c ∧ c.applyBlocks [block] = .ok c' ∧
      c'.balanceOf receiver = 10 ∧ normalizeAddress receiver ≠ receiver ∧ ¬ c'.OneEntryEach := by
  obtain ⟨c', happly, hentry⟩ := block_applies (by simp [transfer]) (by decide) rfl block_hash
  have hne : normalizeAddress receiver ≠ receiver := by decide
  refine ⟨chain, c', fromGenesis_genesis, foldlM_cons_eq_ok.mpr ⟨c', happly, rfl⟩, ?_, hne, ?_⟩
  · rw [Blockchain.balanceOf, balanceIn, hentry]
    rfl
  · rw [Blockchain.oneEntryEach_iff]
    rintro ⟨hbalances, _⟩
    exact hne (hbalances receiver (Finmap.mem_of_lookup_eq_some hentry))

/-- The coins sent to the normal spelling stand in the one entry of that address. -/
theorem one_entry_iff_normal : ∃ c c',
    Blockchain.fromGenesis genesis = .ok c ∧ c.applyBlocks [normalBlock] = .ok c' ∧
      c'.balanceOf normalReceiver = 10 ∧ c'.OneEntryEach := by
  obtain ⟨c', happly, hentry⟩ :=
    block_applies (by simp [normalTransfer]) (by decide) rfl normalBlock_hash
  have hvalidator : IsNormal Devnet.validator := IsNormal.of_noX (noX_of_hexDecode (hexDecode_hexEncode _))
  have hblocks : chain.applyBlocks [normalBlock] = .ok c' := foldlM_cons_eq_ok.mpr ⟨c', happly, rfl⟩
  refine ⟨chain, c', fromGenesis_genesis, hblocks, ?_,
    (Blockchain.one_entry_iff genesis chain fromGenesis_genesis [normalBlock] c' hblocks).mpr
      ⟨fun entry hentry => ?_, fun block hblock tx htx => ?_⟩⟩
  · rw [Blockchain.balanceOf, balanceIn, hentry]
    rfl
  · rw [List.mem_singleton.mp hentry]
    exact (congrArg IsNormal hvalidator).mpr hvalidator
  · rw [List.mem_singleton.mp hblock] at htx
    rw [List.mem_singleton.mp htx]
    have hreceiver : IsNormal normalReceiver := by decide
    exact ⟨hvalidator, hreceiver, .inl rfl⟩

end Checksum

end IeumChain
