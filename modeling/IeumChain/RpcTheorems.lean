import IeumChain.Rpc
import IeumChain.AddressTheorems

/-!
# Addresses over RPC and in the ledger

The RPC layer writes `0x` in front of every address, the ledger only normalises addresses that
have it already. So the two mean the same account exactly for an address that is spelled the way
the RPC layer spells it and whose loaded wallet, if there is one, has that address
(`rpc_agrees_iff`). The accounts of validators, 64 digits without `0x`, are out of reach.
-/

namespace IeumChain

open Lib

/-! ## What a transfer does to each account -/

/-- The accounts after a transfer: amount and fee leave the sender, the amount reaches `receiver`,
the fee is shared by the producer and the foundation. Any of the four may coincide. -/
def Shifts (producer : String) (tx : Transaction) (receiver : String)
    (balances balances' : Balances) : Prop :=
  ∀ x, (balanceIn balances' x).toNat + (if x = tx.sender then tx.amount.toNat + tx.fee.toNat else 0)
    = (balanceIn balances x).toNat + (if x = receiver then tx.amount.toNat else 0) +
      (if x = producer then tx.fee.toNat - tx.fee.toNat * 2000 / 10000 else 0) +
      (if x = foundationFeeAddress then tx.fee.toNat * 2000 / 10000 else 0)

lemma Transfers.shifts {producer : String} {tx : Transaction} {balances balances' : Balances}
    (h : Transfers producer tx balances balances') :
    Shifts producer tx tx.receiver balances balances' := by
  intro x
  obtain ⟨total, received, share, b₁, b₂, m₁, m₂, htotal, hfunds, rfl, hreceived, hshare,
    hproducer, hfoundation⟩ := h.moved
  have htotal' := U128.checkedAdd_eq_some.mp htotal
  have hreceived' := U128.checkedAdd_eq_some.mp hreceived
  have hfunds' : total.toNat ≤ (balanceIn balances tx.sender).toNat := BitVec.le_def.mp hfunds
  have hdebit := U128.toNat_sub hfunds'
  -- the entries are written one after the other: read them back from the last
  have hfoundation' := balanceIn_creditBalance hfoundation x
  have hproducer' := balanceIn_creditBalance hproducer x
  rw [U128.toNat_sub (foundationFee_le hshare), toNat_foundationFee hshare] at hproducer'
  rw [toNat_foundationFee hshare] at hfoundation'
  rw [balanceIn_insert] at hproducer' hreceived'
  by_cases hreceiver : x = tx.receiver
  · subst hreceiver
    rw [if_pos rfl] at hproducer' ⊢
    by_cases hsender : tx.receiver = tx.sender
    · rw [if_pos hsender] at hreceived' ⊢
      rw [← hsender] at hdebit hreceived' hfunds'
      omega
    · rw [if_neg hsender] at hreceived' ⊢
      omega
  · rw [if_neg hreceiver, balanceIn_insert] at hproducer'
    rw [if_neg hreceiver]
    by_cases hsender : x = tx.sender
    · rw [if_pos hsender] at hproducer' ⊢
      rw [← hsender] at hdebit hproducer' hfunds'
      omega
    · rw [if_neg hsender] at hproducer' ⊢
      omega

/-! ## Spellings -/

/-- One `0x`, then no capital letter. -/
def RpcSpelled (address : String) : Prop :=
  ∃ digits, address = "0x" ++ digits ∧ startsWith digits "0x" = false ∧
    toAsciiLowercase digits = digits

lemma length_trim0xChars_le (cs : List Char) : (trim0xChars cs).length ≤ cs.length := by
  fun_induction trim0xChars cs with
  | case1 rest ih =>
    simp only [List.length_cons]
    omega
  | case2 => exact le_rfl

lemma trimStart0x_of_startsWith {s : String} (h : startsWith s "0x" = false) :
    trimStart0x s = s := by
  have hchars : trim0xChars s.toList = s.toList := by
    rw [trim0xChars.eq_2]
    intro rest heq
    rw [startsWith, heq] at h
    simp at h
  rw [trimStart0x, hchars, String.ofList_toList]

lemma length_toAsciiLowercase (s : String) : (toAsciiLowercase s).length = s.length := by
  rw [← String.length_toList, ← String.length_toList, toAsciiLowercase, String.toList_ofList,
    List.length_map]

/-- The RPC layer leaves exactly its own spelling as it is. -/
lemma Rpc.normalizeAddress_eq_self_iff {address : String} :
    Rpc.normalizeAddress address = address ↔ RpcSpelled address := by
  constructor
  · intro h
    refine ⟨toAsciiLowercase (trimStart0x address), h.symm, ?_,
      toAsciiLowercase_toAsciiLowercase _⟩
    -- a second `0x` would have been removed, and what is removed makes the text shorter
    by_contra hstarts
    rw [Bool.not_eq_false] at hstarts
    set digits := toAsciiLowercase (trimStart0x address) with hdigits
    obtain ⟨rest, hrest⟩ : ∃ rest, digits = "0x" ++ rest :=
      ⟨_, stripPrefix_eq_some (if_pos hstarts)⟩
    have htrim : trimStart0x address = trimStart0x rest := by
      rw [← h, Rpc.normalizeAddress, ← hdigits, trimStart0x_append, hrest, trimStart0x_append]
    have hle := length_trim0xChars_le rest.toList
    have hlength : digits.length = (trim0xChars rest.toList).length := by
      rw [hdigits, length_toAsciiLowercase, htrim, trimStart0x, ← String.length_toList,
        String.toList_ofList]
    rw [hrest, String.length_append, ← String.length_toList (s := rest),
      show "0x".length = 2 from rfl] at hlength
    omega
  · rintro ⟨digits, rfl, hstarts, hlower⟩
    rw [Rpc.normalizeAddress, trimStart0x_append, trimStart0x_of_startsWith hstarts, hlower]

lemma toAsciiLowercase_hexEncode (bs : Bytes) : toAsciiLowercase (hexEncode bs) = hexEncode bs := by
  have hdigit : ∀ n < 16, (hexDigit n).toLower = hexDigit n := by decide
  have hpair : ∀ b : UInt8, (hexPair b).map Char.toLower = hexPair b := by
    intro b
    have hb := b.toNat_lt
    simp only [hexPair, List.map_cons, List.map_nil, hdigit _ (show b.toNat / 16 < 16 by omega),
      hdigit _ (show b.toNat % 16 < 16 by omega)]
  rw [toAsciiLowercase, hexEncode, String.toList_ofList, List.map_flatMap]
  simp only [hpair]

section
variable [Primitives]

/-- The address of a wallet is spelled the way of the RPC layer. -/
lemma AccountWallet.rpcSpelled_address (w : AccountWallet) : RpcSpelled w.address :=
  ⟨_, rfl, startsWith_hexEncode '0' [] (b := 'x') (by decide), toAsciiLowercase_hexEncode _⟩

namespace Rpc

/-- An address means itself exactly when it is spelled the way of the RPC layer and the wallet
loaded under it, if there is one, is its own. -/
lemma resolveLedgerAddress_eq_self_iff {state : RpcState} {address : String} :
    resolveLedgerAddress state address = address ↔ RpcSpelled address ∧
      ∀ wallet, state.wallets.lookup address = some wallet → wallet.address = address := by
  rw [resolveLedgerAddress]
  constructor
  · intro h
    cases hwallet : state.wallets.lookup (normalizeAddress address) with
    | none =>
      rw [hwallet] at h
      have hself : normalizeAddress address = address := h
      rw [hself] at hwallet
      exact ⟨normalizeAddress_eq_self_iff.mp hself, fun wallet hlookup =>
        absurd (hlookup.symm.trans hwallet) (by simp)⟩
    | some wallet =>
      rw [hwallet] at h
      have hown : wallet.address = address := h
      -- the wallet's address is in RPC spelling, so the table was asked for the address itself
      have hspelled : RpcSpelled address := hown ▸ wallet.rpcSpelled_address
      rw [normalizeAddress_eq_self_iff.mpr hspelled] at hwallet
      refine ⟨hspelled, fun other hother => ?_⟩
      rw [hwallet] at hother
      rw [← Option.some.inj hother]
      exact hown
  · rintro ⟨hspelled, hown⟩
    rw [normalizeAddress_eq_self_iff.mpr hspelled]
    cases hwallet : state.wallets.lookup address with
    | none => rfl
    | some wallet => exact hown wallet hwallet

/-! ## Requests -/

lemma ethGetBalance_string (state : RpcState) (address : String) (rest : List Param) :
    ethGetBalance state (.string address :: rest)
      = .ok (quantity (state.chain.balanceOf (resolveLedgerAddress state address)).toNat) := rfl

lemma ethGetTransactionCount_string (state : RpcState) (address : String) (rest : List Param) :
    ethGetTransactionCount state (.string address :: rest)
      = .ok (quantity (state.chain.nextNonce (resolveLedgerAddress state address)).toNat) := rfl

/-- The transfer of a request pays the account its `to` resolves to. -/
lemma receiver_of_transferOf {state : RpcState} {field : String → Option String}
    {rest : List Param} {address : String} {tx : Transaction} (hto : field "to" = some address)
    (h : transferOf state (.object field :: rest) = .ok tx) :
    tx.receiver = resolveLedgerAddress state address := by
  simp only [transferOf, coded, bind_eq_ok, mapError_eq_ok, okOr_eq_ok, pure_eq_ok] at h
  obtain ⟨field', hfield, _, _, receiver, hreceiver, _, _, _, _, _, _, _, _, _, _, _, _, rfl⟩ := h
  have hsame : field = field' := Option.some.inj hfield
  rw [← hsame, hto] at hreceiver
  rw [Option.some.inj hreceiver]
  rfl

/-- An accepted request put its transfer into the pool. -/
lemma sendTransaction_eq_ok {state state' : RpcState} {params : List Param} {hash : String}
    (h : sendTransaction state params = (.ok hash, state')) :
    ∃ tx, transferOf state params = .ok tx ∧ state.pool.add tx = (.ok (), state'.pool) ∧
      hash = "0x" ++ tx.id := by
  unfold sendTransaction at h
  split at h
  next => cases h
  next tx htx =>
    refine ⟨tx, htx, ?_⟩
    split at h
    next => cases h
    next pool hpool =>
      cases h
      exact ⟨hpool, rfl⟩

end Rpc

/-! ## Reachable ledgers -/

/-- A ledger built from initial balances or a genesis configuration, restored from its state, or
extended by a block. -/
inductive Blockchain.Reachable : Blockchain → Prop
  | new (chainId : UInt64) (initialBalances : List (String × U128)) :
    Reachable (withChainId chainId initialBalances)
  | genesis {config : GenesisConfig} {c : Blockchain} (h : fromGenesis config = .ok c) : Reachable c
  | restore {c c' : Blockchain} (hc : Reachable c)
    (h : fromSnapshotWithEvents c.chainId c.genesisCommitment c.tipHeight c.tipHash c.balances
      c.nextNonces c.executedEvents = .ok c') : Reachable c'
  | apply {c c' : Blockchain} {block : Block} (hc : Reachable c)
    (h : c.applyBlock block = .ok c') : Reachable c'

/-- Wherever the transfer is executed, its amount goes to the account of this address. -/
def CreditsExactly (tx : Transaction) (address : String) : Prop :=
  ∀ chainId producer balances nonces balances' nonces',
    applyTransaction chainId producer (balances, nonces) tx = .ok (balances', nonces') →
      Shifts producer tx address balances balances'

namespace Rpc

/-- RPC and ledger mean the same account by the address: its balance and next nonce are reported,
and a transfer to it that is accepted credits it. -/
structure Agrees (state : RpcState) (address : String) : Prop where
  balance : ∀ rest, ethGetBalance state (.string address :: rest)
    = .ok (quantity (state.chain.balanceOf address).toNat)
  count : ∀ rest, ethGetTransactionCount state (.string address :: rest)
    = .ok (quantity (state.chain.nextNonce address).toNat)
  credits : ∀ field rest hash state', field "to" = some address →
    sendTransaction state (.object field :: rest) = (.ok hash, state') →
      ∃ tx, state.pool.add tx = (.ok (), state'.pool) ∧ hash = "0x" ++ tx.id ∧
        CreditsExactly tx address

lemma agrees_of_resolve {state : RpcState} {address : String}
    (h : resolveLedgerAddress state address = address) : Agrees state address where
  balance rest := by rw [ethGetBalance_string, h]
  count rest := by rw [ethGetTransactionCount_string, h]
  credits field rest hash state' hto hsend := by
    obtain ⟨tx, htx, hadd, hhash⟩ := sendTransaction_eq_ok hsend
    refine ⟨tx, hadd, hhash, ?_⟩
    intro chainId producer balances nonces balances' nonces' happly
    have hshifts := (applyTransaction_eq_ok happly).2.2.2.1.shifts
    rwa [receiver_of_transferOf hto htx, h] at hshifts

/-- **RPC and ledger agree on an address exactly when it is in RPC spelling.** For every table of
loaded wallets and every address, the two agree on all reachable ledgers with an entry under the
address exactly when it is `0x` and lower case and the wallet loaded under it, if there is one,
has this address. -/
theorem rpc_agrees_iff (wallets : HashMap String AccountWallet) (address : String) :
    (∀ chain pool, chain.Reachable → address ∈ chain.balances ∨ address ∈ chain.nextNonces →
      Agrees ⟨chain, pool, wallets⟩ address) ↔
    RpcSpelled address ∧
      ∀ wallet, wallets.lookup address = some wallet → wallet.address = address := by
  constructor
  · intro h
    -- one coin under the address, and none anywhere else
    set chain := Blockchain.withChainId 1 [(address, 1)] with hchain
    have hbalance : ∀ x, chain.balanceOf x = if x = address then 1 else 0 :=
      fun x => balanceIn_insert ∅ address x 1
    have hentry : address ∈ chain.balances :=
      Finmap.mem_insert (s := (∅ : Balances)).mpr (.inl rfl)
    have hagrees := (h chain Mempool.default (.new 1 _) (.inl hentry)).balance []
    rw [ethGetBalance_string, hbalance, hbalance, if_pos rfl] at hagrees
    have hself : resolveLedgerAddress ⟨chain, Mempool.default, wallets⟩ address = address ↔ _ :=
      resolveLedgerAddress_eq_self_iff
    apply hself.mp
    by_contra hne
    rw [if_neg hne] at hagrees
    exact absurd (Except.ok.inj hagrees) (by decide)
  · rintro h chain pool _ _
    exact agrees_of_resolve (resolveLedgerAddress_eq_self_iff.mpr h)

end Rpc

end

section
attribute [local instance] Checksum.primitives

/-- The genesis balance of a validator is not found over RPC, whichever faucet is loaded. -/
theorem Rpc.validator_balance_hidden : ∃ chain,
    Blockchain.fromGenesis Checksum.genesis = .ok chain ∧ Devnet.validator ∈ chain.balances ∧
      chain.balanceOf Devnet.validator = 1000 ∧ ∀ faucet : AccountWallet,
        ethGetBalance ⟨chain, Mempool.default, HashMap.ofList [(faucet.address, faucet)]⟩
          [.string Devnet.validator] = .ok "0x0" := by
  have hbalance : ∀ x, Checksum.chain.balanceOf x = if x = Devnet.validator then 1000 else 0 :=
    fun x => balanceIn_insert ∅ Devnet.validator x 1000
  have hnormalize : normalizeAddress Devnet.validator = "0x" ++ Devnet.validator := by
    rw [normalizeAddress, Devnet.validator, trimStart0x_hexEncode, toAsciiLowercase_hexEncode]
  have hlength : textLen Devnet.validator = 64 := textLen_hexEncode _
  have hlonger : textLen ("0x" ++ Devnet.validator) = 66 := by
    rw [textLen, textBytes_append, List.length_append]
    exact congrArg (2 + ·) hlength
  have hne : "0x" ++ Devnet.validator ≠ Devnet.validator := by
    intro heq
    rw [heq, hlength] at hlonger
    omega
  refine ⟨Checksum.chain, Checksum.fromGenesis_genesis,
    Finmap.mem_insert (s := (∅ : Balances)).mpr (.inl rfl), by rw [hbalance, if_pos rfl], ?_⟩
  intro faucet
  -- a wallet's address has 20 bytes, the validator's 32
  have hfaucet : "0x" ++ Devnet.validator ≠ faucet.address := by
    intro heq
    have hshort : textLen faucet.address = 42 := by
      rw [AccountWallet.address, ethereumAddress, textLen, textBytes_append, List.length_append]
      show 2 + textLen (hexEncode _) = 42
      rw [textLen_hexEncode, List.length_drop, (keccak256 _).property]
    rw [← heq, hlonger] at hshort
    omega
  have hnone : (HashMap.ofList [(faucet.address, faucet)]).lookup ("0x" ++ Devnet.validator)
      = none := by
    have hlookup := HashMap.lookup_insert (∅ : HashMap String AccountWallet) faucet.address
      ("0x" ++ Devnet.validator) faucet
    rwa [if_neg hfaucet, Finmap.lookup_empty] at hlookup
  rw [ethGetBalance_string, resolveLedgerAddress, hnormalize, hnone, Option.map_none,
    Option.getD_none, hbalance, if_neg hne]
  rfl

end

end IeumChain
