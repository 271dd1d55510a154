import IeumChain.AddressTheorems
import IeumChain.CanonicalTheorems

/-!
# Who can spend what an event pays

An event pays to addresses that were checked in three ways: as Ethereum addresses, with or without
`0x`, as Ed25519 keys, and as reward addresses of 64 digits. The ledger keeps the coins under the
normalised text. Transactions name an Ethereum account with its `0x`, so that coins paid to an
address without it belong to nobody.
-/

namespace IeumChain

open Lib

/-- A text under which a sender can be: an Ed25519 key of 64 hexadecimal digits, or `0x` with 40
lower-case ones. -/
def Spendable (address : String) : Prop :=
  (textLen address = 64 ∧ (textBytes address).all isAsciiHexDigit = true) ∨
    ∃ digits, address = "0x" ++ digits ∧ textLen digits = 40 ∧
      (textBytes digits).all isHexByte = true

/-! ## The three kinds of addresses -/

/-- Without `0x` an Ethereum address is 40 digits that stay as they are. -/
lemma normalizeAddress_of_bare {address : String} (h : validateAddress address = .ok ())
    (hstarts : startsWith address "0x" = false) :
    normalizeAddress address = address ∧ textLen address = 40 := by
  obtain ⟨hlength, hhex⟩ := ensure_eq_ok.mp h
  cases hstrip : stripPrefix address "0x" with
  | some digits =>
    rw [stripPrefix_eq_some hstrip, startsWith_append] at hstarts
    cases hstarts
  | none =>
    rw [hstrip, Option.getD_none] at hlength hhex
    exact ⟨IsNormal.of_noX (noX_of_all_hex hhex), hlength⟩

/-- An Ethereum address is spendable as it is normalised exactly when it starts with `0x`. -/
lemma spendable_iff_of_validateAddress {address : String} (h : validateAddress address = .ok ()) :
    Spendable (normalizeAddress address) ↔ startsWith address "0x" = true := by
  obtain ⟨hlength, hhex⟩ := ensure_eq_ok.mp h
  cases hstrip : stripPrefix address "0x" with
  | some digits =>
    rw [hstrip, Option.getD_some] at hlength hhex
    have haddress := stripPrefix_eq_some hstrip
    obtain ⟨hsame, hlower⟩ := hex_toAsciiLowercase hhex
    rw [haddress, normalizeAddress_append (noX_of_all_hex hhex)]
    exact ⟨fun _ => startsWith_append _ _,
      fun _ => .inr ⟨_, rfl, hsame.trans hlength, hlower⟩⟩
  | none =>
    rw [hstrip, Option.getD_none] at hlength hhex
    have hnoX := noX_of_all_hex hhex
    rw [(normalizeAddress_of_bare h hnoX.startsWith).1, hnoX.startsWith]
    constructor
    · rintro (⟨hlong, _⟩ | ⟨digits, rfl, _⟩)
      · omega
      · have hstarts := hnoX.startsWith
        rw [startsWith_append] at hstarts
        cases hstarts
    · exact fun hfalse => by cases hfalse

lemma spendable_of_validateRewardAddress {address : String}
    (h : validateRewardAddress address = .ok ()) : Spendable (normalizeAddress address) := by
  obtain ⟨hlength, hhex⟩ := ensure_eq_ok.mp h
  have hnormal : normalizeAddress address = address := IsNormal.of_noX (noX_of_all_hex hhex)
  rw [hnormal]
  exact .inl ⟨hlength, hhex⟩

lemma spendable_foundation : Spendable foundationFeeAddress := by
  refine .inr ⟨"356456ff1216b57a6f8891b195b42d296789b67d", ?_, ?_, ?_⟩ <;> decide

/-! ## What the ledger credits -/

/-- A payment raises the balance of its receiver by the amount, and no other. -/
lemma balanceIn_transferFromFoundation {balances balances' : Balances} {receiver : String}
    {amount : U128} (h : transferFromFoundation balances receiver amount = .ok balances')
    {x : String} (hx : x ≠ foundationFeeAddress) :
    (balanceIn balances' x).toNat = (balanceIn balances x).toNat +
      if x = normalizeAddress receiver then amount.toNat else 0 := by
  simp only [transferFromFoundation, bind_eq_ok, ensure_eq_ok] at h
  obtain ⟨_, _, hcredit⟩ := h
  rw [balanceIn_creditBalance hcredit, balanceIn_insert, if_neg hx]

/-- Payments that are not zero raise the balances of their receivers and leave the others. -/
lemma raised_payFromFoundation {x : String} (hx : x ≠ foundationFeeAddress)
    {payments : List (String × U128)} : ∀ {balances balances' : Balances},
      payFromFoundation balances payments = .ok balances' → (∀ p ∈ payments, p.2 ≠ 0) →
      (balanceIn balances x).toNat ≤ (balanceIn balances' x).toNat ∧
        ((balanceIn balances x).toNat < (balanceIn balances' x).toNat ↔
          ∃ p ∈ payments, normalizeAddress p.1 = x) := by
  induction payments with
  | nil =>
    intro balances balances' h _
    rw [payFromFoundation, List.foldlM_nil, pure_eq_ok] at h
    simp [h]
  | cons p payments ih =>
    intro balances balances' h hpos
    obtain ⟨hp, hpayments⟩ := List.forall_mem_cons.mp hpos
    obtain ⟨mid, hfirst, hrest⟩ := foldlM_cons_eq_ok.mp h
    have hcredit := balanceIn_transferFromFoundation hfirst hx
    obtain ⟨hle, hiff⟩ := ih hrest hpayments
    have hamount : 0 < p.2.toNat := Nat.pos_of_ne_zero fun hzero => hp (BitVec.toNat_inj.mp hzero)
    rw [List.exists_mem_cons_iff, ← hiff]
    split at hcredit
    next heq => exact ⟨by omega, iff_of_true (by omega) (.inl heq.symm)⟩
    next hne =>
      have hother : normalizeAddress p.1 ≠ x := fun heq => hne heq.symm
      simp only [hother, false_or]
      exact ⟨by omega, by omega⟩

/-! ## Who signs for an address -/

section
variable [Primitives]

lemma spendable_of_verifySignature {address signature : String} {message : Bytes}
    (h : verifySignature address message signature = .ok ()) :
    Spendable (normalizeAddress address) := by
  have hnormal : normalizeAddress address = address :=
    IsNormal.of_noX (noX_of_verifySignature h)
  simp only [verifySignature, bind_eq_ok, okOr_eq_ok, ensure_eq_ok] at h
  obtain ⟨key, hkey, _, hlength, _⟩ := h
  rw [hnormal]
  refine .inl ⟨?_, all_hex_of_hexDecode hkey⟩
  rw [textLen_of_hexDecode hkey, hlength]

/-- The sender of a transaction that passes its check has an Ethereum address or the digits of a
key. -/
lemma sender_of_authenticate {chainId : UInt64} {tx : Transaction}
    (h : authenticate chainId tx = .ok ()) :
    startsWith tx.sender "0x" = true ∨ textLen tx.sender = 64 := by
  unfold authenticate at h
  split at h
  · -- the sender of a raw transaction is written with `0x`
    obtain ⟨raw, _, hdecode⟩ := verifyEmbedded_decodes h
    obtain ⟨_, _, _, _, _, _, _, _, point, _, fee, _, rfl⟩ := decodeLegacy_eq_ok.mp hdecode
    exact .inl (startsWith_append _ _)
  next hraw =>
    rw [verifyTransaction, if_neg hraw] at h
    split at h
    next hstarts => exact .inl hstarts
    next =>
      simp only [verifySignature, bind_eq_ok, okOr_eq_ok, ensure_eq_ok] at h
      obtain ⟨key, hkey, _, hlength, _⟩ := h
      right
      rw [textLen_of_hexDecode hkey, hlength]

/-- Nobody can spend what is paid to an Ethereum address written without `0x`. -/
lemma not_authentic_of_validateAddress {address : String} (h : validateAddress address = .ok ())
    (hstarts : startsWith address "0x" = false) {chainId : UInt64} {tx : Transaction}
    (hsender : tx.sender = normalizeAddress address) : authenticate chainId tx ≠ .ok () := by
  intro hauthentic
  obtain ⟨hnormal, hlength⟩ := normalizeAddress_of_bare h hstarts
  rw [hnormal] at hsender
  rcases sender_of_authenticate hauthentic with hx | hlong
  · rw [hsender, hstarts] at hx
    cases hx
  · rw [hsender, hlength] at hlong
    cases hlong

/-! ## Events -/

/-- The events of a block raise the balances of those they pay. -/
lemma raised_applySystemEvents {x : String} (hx : x ≠ foundationFeeAddress) {timestamp : UInt64}
    {events : List ScheduledEvent} : ∀ {state state' : Balances × Finset String},
      applySystemEvents events timestamp state = .ok state' →
      (∀ e ∈ events, e.validate = .ok ()) ∧
      (balanceIn state.1 x).toNat ≤ (balanceIn state'.1 x).toNat ∧
        ((balanceIn state.1 x).toNat < (balanceIn state'.1 x).toNat ↔
          ∃ e ∈ events, ∃ p ∈ e.action.payments, normalizeAddress p.1 = x) := by
  induction events with
  | nil =>
    intro state state' h
    rw [applySystemEvents, List.foldlM_nil, pure_eq_ok] at h
    simp [h]
  | cons e events ih =>
    intro state state' h
    obtain ⟨mid, hfirst, hrest⟩ := foldlM_cons_eq_ok.mp h
    obtain ⟨hvalid, _, _, hpay, _⟩ := applySystemEvent_eq_ok.mp hfirst
    have hpos : ∀ p ∈ e.action.payments, p.2 ≠ 0 := fun p hp => (payee_cases hvalid p hp).1
    obtain ⟨hle, hiff⟩ := raised_payFromFoundation hx hpay hpos
    obtain ⟨hvalid', hle', hiff'⟩ := ih hrest
    refine ⟨List.forall_mem_cons.mpr ⟨hvalid, hvalid'⟩, hle.trans hle', ?_⟩
    rw [List.exists_mem_cons_iff, ← hiff, ← hiff']
    omega

/-- **What events pay can be spent exactly when they name Ethereum accounts with `0x`.** Every
address whose balance the events of a block raise is the text of a sender exactly when every
address that they pay as an Ethereum address starts with `0x`. What is paid to such an address
without it is in nobody's hands: no transaction of that sender passes its check on any chain. -/
theorem event_payees_spendable_iff (events : List ScheduledEvent) (timestamp : UInt64)
    (state state' : Balances × Finset String)
    (h : applySystemEvents events timestamp state = .ok state') :
    ((∀ x, (balanceIn state.1 x).toNat < (balanceIn state'.1 x).toNat → Spendable x) ↔
      ∀ e ∈ events, ∀ account ∈ e.action.accounts, startsWith account "0x" = true) ∧
    ∀ e ∈ events, ∀ account ∈ e.action.accounts, startsWith account "0x" = false →
      (balanceIn state.1 account).toNat < (balanceIn state'.1 account).toNat ∧
        ∀ chainId tx, tx.sender = account → authenticate chainId tx ≠ .ok () := by
  have hall := fun x hx => raised_applySystemEvents (x := x) hx h
  -- a bare address is paid under its own text, which is not the foundation's
  have hbare : ∀ e ∈ events, ∀ account ∈ e.action.accounts, startsWith account "0x" = false →
      validateAddress account = .ok () ∧
        (balanceIn state.1 account).toNat < (balanceIn state'.1 account).toNat := by
    intro e he account haccount hstarts
    have hne : account ≠ foundationFeeAddress := by
      rintro rfl
      cases hstarts
    obtain ⟨hvalid, _, hraised⟩ := hall account hne
    obtain ⟨p, hp, rfl⟩ := exists_payment_of_account haccount
    obtain ⟨_, ⟨_, haddress⟩ | ⟨hnone, _⟩⟩ := payee_cases (hvalid e he) p hp
    · refine ⟨haddress, hraised.mpr ⟨e, he, p, hp, ?_⟩⟩
      exact (normalizeAddress_of_bare haddress hstarts).1
    · rw [hnone] at haccount
      cases haccount
  refine ⟨⟨fun hspendable e he account haccount => ?_, fun hstarts x hraised => ?_⟩, ?_⟩
  · by_contra hno
    rw [Bool.not_eq_true] at hno
    obtain ⟨haddress, hraised⟩ := hbare e he account haccount hno
    have hx := hspendable account hraised
    rw [← (normalizeAddress_of_bare haddress hno).1,
      spendable_iff_of_validateAddress haddress, hno] at hx
    cases hx
  · by_cases hx : x = foundationFeeAddress
    · rw [hx]
      exact spendable_foundation
    obtain ⟨hvalid, _, hiff⟩ := hall x hx
    obtain ⟨e, he, p, hp, rfl⟩ := hiff.mp hraised
    obtain ⟨_, ⟨haccount, haddress⟩ | ⟨_, ⟨_, _, hsigned⟩ | hreward⟩⟩ :=
      payee_cases (hvalid e he) p hp
    · exact (spendable_iff_of_validateAddress haddress).mpr (hstarts e he _ haccount)
    · exact spendable_of_verifySignature hsigned
    · exact spendable_of_validateRewardAddress hreward
  · intro e he account haccount hstarts
    obtain ⟨haddress, hraised⟩ := hbare e he account haccount hstarts
    refine ⟨hraised, fun chainId tx hsender => ?_⟩
    apply not_authentic_of_validateAddress haddress hstarts
    rw [hsender, (normalizeAddress_of_bare haddress hstarts).1]

end

/-! ### A grant to an address without `0x` -/

namespace Grant

attribute [local instance] Devnet.primitives

/-- An account as `validate_address` also accepts it. -/
def bare : String := "7e5f4552091a69125d5dfcb7b8c2659029395bdf"

/-- The foundation distributes 5 units. -/
def event (address : String) : ScheduledEvent :=
  ⟨"grant", 1, .treasuryDistribution [⟨address, 5⟩]⟩

def state : Balances × Finset String := (HashMap.ofList [(foundationFeeAddress, 10)], ∅)

/-- The distribution to `account`. -/
def paid (account : String) : Balances × Finset String :=
  ((state.1.insert foundationFeeAddress 5).insert account 5, {"grant"})

lemma executes : applySystemEvents [event bare] 1 state = .ok (paid bare) ∧
    applySystemEvents [event ("0x" ++ bare)] 1 state = .ok (paid ("0x" ++ bare)) := by
  constructor <;> decide

/-- With `0x` the receiver can spend the grant. -/
theorem event_payees_spendable_iff_grant :
    (balanceIn state.1 ("0x" ++ bare)).toNat
        < (balanceIn (paid ("0x" ++ bare)).1 ("0x" ++ bare)).toNat ∧
      Spendable ("0x" ++ bare) := by
  have hraised : (balanceIn state.1 ("0x" ++ bare)).toNat
      < (balanceIn (paid ("0x" ++ bare)).1 ("0x" ++ bare)).toNat := by decide
  refine ⟨hraised, ?_⟩
  apply (event_payees_spendable_iff _ 1 state _ executes.2).1.mpr _ _ hraised
  intro e he account haccount
  rw [List.mem_singleton.mp he] at haccount
  rw [List.mem_singleton.mp haccount]
  decide

/-- Without it the event is valid and is executed, and credits a text that is no sender's. -/
theorem grant_not_spendable :
    (event bare).validate = .ok () ∧ applySystemEvents [event bare] 1 state = .ok (paid bare) ∧
      (balanceIn (paid bare).1 bare).toNat = 5 ∧ ¬ Spendable bare := by
  refine ⟨by decide, executes.1, by decide, ?_⟩
  rintro (⟨hlength, _⟩ | ⟨digits, hbare, _⟩)
  · exact absurd hlength (by decide)
  · have hstarts : startsWith bare "0x" = true := by
      rw [hbare]
      exact startsWith_append _ _
    exact absurd hstarts (by decide)

end Grant

end IeumChain
