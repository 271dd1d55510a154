import IeumChain.RlpTheorems
import IeumChain.Devnet

/-!
# Embedded Ethereum transactions bind the chain and the transfer

Chain id and recovery id are read from one field of the raw transaction. A raw transaction that is
accepted for one chain id is accepted for no other (`decodeLegacy_chainId`), and it stands for one
ledger transaction only. What a wallet encodes and signs by EIP-155 comes out with its fields and
its sender (`raw_transaction_round_trip`). A native signature covers no chain id, so it is good on
every chain (`replay_rejected_iff`).
-/

namespace IeumChain

open Lib

/-! ## Reading the fields back -/

lemma valueU64_minimalBytes (n : UInt64) (name : String) :
    valueU64 (Rlp.minimalBytes 8 n.toNat) name = .ok n := by
  rw [valueU64, bind_eq_ok]
  refine ⟨(), ensure_eq_ok.mpr (Rlp.length_minimalBytes 8 n.toNat), ?_⟩
  rw [Rlp.beNat_minimalBytes n.toNat_lt, UInt64.ofNat_toNat]
  rfl

lemma valueU128_minimalBytes (n : U128) (name : String) :
    valueU128 (Rlp.minimalBytes 16 n.toNat) name = .ok n := by
  rw [valueU128, bind_eq_ok]
  refine ⟨(), ensure_eq_ok.mpr (Rlp.length_minimalBytes 16 n.toNat), ?_⟩
  rw [Rlp.beNat_minimalBytes n.isLt, BitVec.ofNat_toNat, BitVec.setWidth_eq]
  rfl

/-- Leading zeros are as many as are missing without them. -/
lemma replicate_append_dropWhile (l : Bytes) :
    List.replicate (l.length - (l.dropWhile (· == 0)).length) 0 ++ l.dropWhile (· == 0) = l := by
  induction l with
  | nil => rfl
  | cons b l ih =>
    by_cases hb : b = 0
    · have hle : (l.dropWhile (· == 0)).length ≤ l.length := l.length_dropWhile_le _
      rw [List.dropWhile_cons_of_pos (by simpa using hb), List.length_cons,
        Nat.succ_sub hle, List.replicate_succ, List.cons_append, ih, hb]
    · rw [List.dropWhile_cons_of_neg (by simpa using hb), Nat.sub_self]
      rfl

/-- A scalar as a wallet writes it: all its bytes, or those behind the leading zeros. -/
def Written (scalar written : Bytes) : Prop :=
  written = scalar ∨ written = scalar.dropWhile (· == 0)

lemma Written.length_le {scalar written : Bytes} (h : Written scalar written) :
    written.length ≤ scalar.length := by
  rcases h with rfl | rfl
  · exact le_rfl
  · exact scalar.length_dropWhile_le _

lemma paddedScalar_written {scalar written : Bytes} (hlen : scalar.length = 32)
    (h : Written scalar written) (name : String) : paddedScalar written name = .ok scalar := by
  rw [paddedScalar, bind_eq_ok]
  refine ⟨(), ensure_eq_ok.mpr (hlen ▸ h.length_le), ?_⟩
  rcases h with rfl | rfl
  · rw [hlen]
    rfl
  · have hpad := replicate_append_dropWhile scalar
    rw [hlen] at hpad
    rw [hpad]
    rfl

/-! ## The encoding of a wallet -/

/-- A transfer a wallet signs by EIP-155, with the two scalars and the recovery id of the
signature. -/
structure Eip155 where
  nonce : UInt64
  gasPrice : UInt64
  gasLimit : UInt64
  receiver : Bytes
  amount : U128
  chainId : UInt64
  r : Bytes
  s : Bytes
  recoveryId : Fin 2
  length_receiver : receiver.length = 20
  chainId_fits : 36 + 2 * chainId.toNat < 2 ^ 64
  length_r : r.length = 32
  length_s : s.length = 32

namespace Eip155
variable (t : Eip155)

/-- The payload that is signed. -/
def signing : Bytes :=
  legacySigning t.nonce t.gasPrice t.gasLimit t.receiver t.amount t.chainId

/-- The field that holds chain id and recovery id. -/
def v : UInt64 := UInt64.ofNat (35 + 2 * t.chainId.toNat + t.recoveryId)

/-- The raw transaction: the nine fields, with the scalars as they are written. -/
def raw (r s : Bytes) : Bytes :=
  Rlp.encodeList
    [Rlp.encodeNat 8 t.nonce.toNat, Rlp.encodeNat 8 t.gasPrice.toNat,
      Rlp.encodeNat 8 t.gasLimit.toNat, Rlp.encodeBytes t.receiver,
      Rlp.encodeNat 16 t.amount.toNat, Rlp.encodeBytes [], Rlp.encodeNat 8 t.v.toNat,
      Rlp.encodeBytes r, Rlp.encodeBytes s]

/-- The strings of the raw transaction. -/
def fields (r s : Bytes) : List Bytes :=
  [Rlp.minimalBytes 8 t.nonce.toNat, Rlp.minimalBytes 8 t.gasPrice.toNat,
    Rlp.minimalBytes 8 t.gasLimit.toNat, t.receiver, Rlp.minimalBytes 16 t.amount.toNat, [],
    Rlp.minimalBytes 8 t.v.toNat, r, s]

lemma raw_eq (r s : Bytes) : t.raw r s = Rlp.encodeList ((t.fields r s).map Rlp.encodeBytes) := by
  simp only [raw, fields, Rlp.encodeNat_eq, List.map_cons, List.map_nil]

/-- Every field has at most 32 bytes, which is all the decoder needs to know. -/
lemma length_fields_le {r s : Bytes} (hr : Written t.r r) (hs : Written t.s s) :
    ∀ value ∈ t.fields r s, value.length ≤ 32 := by
  have h8 : ∀ n : UInt64, (Rlp.minimalBytes 8 n.toNat).length ≤ 32 := fun n =>
    (Rlp.length_minimalBytes 8 n.toNat).trans (by decide)
  have h16 : (Rlp.minimalBytes 16 t.amount.toNat).length ≤ 32 :=
    (Rlp.length_minimalBytes 16 t.amount.toNat).trans (by decide)
  have hreceiver : t.receiver.length ≤ 32 := by
    rw [t.length_receiver]
    decide
  simp only [fields, List.forall_mem_cons]
  exact ⟨h8 _, h8 _, h8 _, hreceiver, h16, by simp, h8 _, t.length_r ▸ hr.length_le,
    t.length_s ▸ hs.length_le, by simp⟩

lemma decodeList_raw {r s : Bytes} (hr : Written t.r r) (hs : Written t.s s) :
    Rlp.decodeList (t.raw r s) = .ok (t.fields r s) := by
  have hshort := t.length_fields_le hr hs
  rw [raw_eq]
  apply Rlp.decodeList_encodeList
  have hlen := Rlp.length_encodeList_le hshort
  have hnine : (t.fields r s).length = 9 := rfl
  rw [hnine] at hlen
  omega

/-- Chain id and recovery id are read back from their field. -/
lemma split_v : 35 ≤ t.v ∧ (t.v - 35) / 2 = t.chainId ∧ ((t.v - 35) % 2).toNat = t.recoveryId := by
  have hfits := t.chainId_fits
  have hrecovery := t.recoveryId.isLt
  have hnat : t.v.toNat = 35 + 2 * t.chainId.toNat + t.recoveryId := by
    rw [v, UInt64.toNat_ofNat', Nat.mod_eq_of_lt (by omega)]
  have hle : (35 : UInt64) ≤ t.v := by
    rw [UInt64.le_iff_toNat_le, hnat]
    show 35 ≤ _
    omega
  have hsub : (t.v - 35).toNat = 2 * t.chainId.toNat + t.recoveryId := by
    rw [UInt64.toNat_sub_of_le _ _ hle, hnat]
    show _ - 35 = _
    omega
  refine ⟨hle, ?_, ?_⟩
  · rw [← UInt64.toNat_inj, UInt64.toNat_div, hsub]
    show _ / 2 = _
    omega
  · rw [UInt64.toNat_mod, hsub]
    show _ % 2 = _
    omega

/-- The product of two 64-bit integers is a 128-bit integer. -/
lemma checkedMul_gas : U128.checkedMul (BitVec.ofNat 128 t.gasPrice.toNat)
    (BitVec.ofNat 128 t.gasLimit.toNat)
      = some (BitVec.ofNat 128 (t.gasPrice.toNat * t.gasLimit.toNat)) := by
  have hprice := t.gasPrice.toNat_lt
  have hlimit := t.gasLimit.toNat_lt
  have hproduct : t.gasPrice.toNat * t.gasLimit.toNat < 2 ^ 64 * 2 ^ 64 :=
    Nat.mul_lt_mul_of_lt_of_lt hprice hlimit
  rw [U128.checkedMul_eq_some, BitVec.toNat_ofNat, BitVec.toNat_ofNat, BitVec.toNat_ofNat,
    Nat.mod_eq_of_lt (a := t.gasPrice.toNat) (by omega),
    Nat.mod_eq_of_lt (a := t.gasLimit.toNat) (by omega), Nat.mod_eq_of_lt (by omega)]

end Eip155

section
variable [Primitives]

/-! ## What an accepted raw transaction fixes -/

/-- The chain id is part of the raw transaction. -/
lemma decodeLegacy_chainId {rawHex : String} {chainId chainId' : UInt64} {tx tx' : Transaction}
    (h : decodeLegacy rawHex chainId = .ok tx) (h' : decodeLegacy rawHex chainId' = .ok tx') :
    chainId = chainId' := by
  simp only [decodeLegacy, bind_eq_ok, okOr_eq_ok, ensure_eq_ok] at h h'
  obtain ⟨raw, hraw, fields, hfields, ⟨f0, f1, f2, f3, f4, f5, f6, f7, f8⟩, hnine, _, _, _, _, _, _,
    _, _, _, _, _, _, v, hv, _, _, _, hchain, _⟩ := h
  obtain ⟨raw', hraw', fields', hfields', ⟨g0, g1, g2, g3, g4, g5, g6, g7, g8⟩, hnine', _, _, _, _,
    _, _, _, _, _, _, _, _, v', hv', _, _, _, hchain', _⟩ := h'
  obtain rfl := Option.some.inj (hraw.symm.trans hraw')
  obtain rfl := Except.ok.inj (hfields.symm.trans hfields')
  have hsame := Except.ok.inj (hnine.symm.trans hnine')
  simp only [Prod.mk.injEq] at hsame
  obtain ⟨_, _, _, _, _, _, rfl, _⟩ := hsame
  obtain rfl := Except.ok.inj (hv.symm.trans hv')
  exact hchain.symm.trans hchain'

/-- A transaction passes when it is the decoding of the text it carries. -/
lemma verifyEmbedded_decodes {tx : Transaction} {chainId : UInt64}
    (h : verifyEmbedded tx chainId = .ok ()) :
    ∃ raw, stripPrefix tx.signature "ethraw:" = some raw ∧ decodeLegacy raw chainId = .ok tx := by
  simp only [verifyEmbedded, bind_eq_ok, okOr_eq_ok, ensure_eq_ok] at h
  obtain ⟨raw, hraw, _, _, _, _, ⟨_, _, _, _, _, _, _, _, _⟩, _, _, _, _, _, decoded, hdecode,
    heq⟩ := h
  exact ⟨raw, hraw, heq ▸ hdecode⟩

/-- Transactions that carry one raw transaction and pass, for whatever chain ids, are one
transaction on one chain. -/
lemma verifyEmbedded_unique {tx tx' : Transaction} {chainId chainId' : UInt64}
    (hsignature : tx'.signature = tx.signature) (h : verifyEmbedded tx chainId = .ok ())
    (h' : verifyEmbedded tx' chainId' = .ok ()) : chainId = chainId' ∧ tx = tx' := by
  obtain ⟨raw, hraw, hdecode⟩ := verifyEmbedded_decodes h
  obtain ⟨raw', hraw', hdecode'⟩ := verifyEmbedded_decodes h'
  rw [hsignature, hraw] at hraw'
  obtain rfl := Option.some.inj hraw'
  obtain rfl := decodeLegacy_chainId hdecode hdecode'
  exact ⟨rfl, Except.ok.inj (hdecode.symm.trans hdecode')⟩

/-! ## The round trip -/

namespace Eip155
variable (t : Eip155)

/-- The key with the public point `point` signed the payload: the signature is well formed, and
the point is recovered from it. -/
def SignedBy (point : Bytes) : Prop :=
  Primitives.ecdsaSignature (t.r ++ t.s) = true ∧
    Primitives.ecdsaRecover (keccak256 t.signing).val (t.r ++ t.s) t.recoveryId = some point

/-- The ledger transaction the raw transaction stands for. -/
def transaction (point r s : Bytes) : Transaction :=
  { sender := ethereumAddress point
    receiver := "0x" ++ hexEncode t.receiver
    amount := t.amount
    fee := BitVec.ofNat 128 (t.gasPrice.toNat * t.gasLimit.toNat)
    nonce := t.nonce
    signature := "ethraw:" ++ hexEncode (t.raw r s) }

lemma decodeLegacy_raw {point r s : Bytes} (hsigned : t.SignedBy point) (hr : Written t.r r)
    (hs : Written t.s s) {rawHex : String}
    (hhex : hexDecode (trimStart0x rawHex) = some (t.raw r s)) :
    decodeLegacy rawHex t.chainId = .ok (t.transaction point r s) := by
  obtain ⟨hv, hchainId, hrecoveryId⟩ := t.split_v
  obtain ⟨hsignature, hrecover⟩ := hsigned
  simp only [decodeLegacy, bind_eq_ok, okOr_eq_ok, ensure_eq_ok]
  refine ⟨t.raw r s, hhex, t.fields r s, t.decodeList_raw hr hs, _, rfl,
    t.nonce, valueU64_minimalBytes _ _, t.gasPrice, valueU64_minimalBytes _ _,
    t.gasLimit, valueU64_minimalBytes _ _, (), t.length_receiver,
    t.amount, valueU128_minimalBytes _ _, (), rfl, t.v, valueU64_minimalBytes _ _, (), hv,
    (), hchainId, t.r, paddedScalar_written t.length_r hr _,
    t.s, paddedScalar_written t.length_s hs _, (), hsignature, point, ?_,
    _, t.checkedMul_gas, rfl⟩
  rw [hchainId, hrecoveryId]
  exact hrecover

/-- The transaction passes the check of the ledger. -/
lemma verifyEmbedded_raw {point r s : Bytes} (hsigned : t.SignedBy point) (hr : Written t.r r)
    (hs : Written t.s s) : verifyEmbedded (t.transaction point r s) t.chainId = .ok () := by
  have hstrip : stripPrefix (t.transaction point r s).signature "ethraw:"
      = some (hexEncode (t.raw r s)) := stripPrefix_append _ _
  have hdecode := t.decodeLegacy_raw hsigned hr hs
    (by rw [trimStart0x_hexEncode, hexDecode_hexEncode])
  simp only [verifyEmbedded, bind_eq_ok, okOr_eq_ok, ensure_eq_ok]
  exact ⟨_, hstrip, _, hexDecode_hexEncode _, _, t.decodeList_raw hr hs, _, rfl, t.v,
    valueU64_minimalBytes _ _, (), t.split_v.1, _, hdecode, rfl⟩

end Eip155

/-- **Ethereum raw transactions round-trip.** What a wallet encodes and the key of `point` signs
decodes to the signed transfer with the address of that key as sender, with or without `0x`, and
passes the check of the ledger. No other transfer passes with this signature, and no other chain
accepts it. -/
theorem raw_transaction_round_trip (t : Eip155) (point r s : Bytes) (hsigned : t.SignedBy point)
    (hr : Written t.r r) (hs : Written t.s s) :
    ∃ tx, decodeLegacy (hexEncode (t.raw r s)) t.chainId = .ok tx ∧
      decodeLegacy ("0x" ++ hexEncode (t.raw r s)) t.chainId = .ok tx ∧
      (tx.nonce = t.nonce ∧ tx.receiver = "0x" ++ hexEncode t.receiver ∧ tx.amount = t.amount ∧
        tx.fee.toNat = t.gasPrice.toNat * t.gasLimit.toNat ∧
        tx.sender = ethereumAddress point) ∧
      verifyEmbedded tx t.chainId = .ok () ∧
      (∀ tx' : Transaction, tx'.signature = tx.signature →
        tx'.sender ≠ tx.sender ∨ tx'.receiver ≠ tx.receiver ∨ tx'.amount ≠ tx.amount ∨
          tx'.fee ≠ tx.fee ∨ tx'.nonce ≠ tx.nonce →
        ∃ e, verifyEmbedded tx' t.chainId = .error e) ∧
      ∀ chainId ≠ t.chainId,
        (∃ e, decodeLegacy (hexEncode (t.raw r s)) chainId = .error e) ∧
          ∃ e, verifyEmbedded tx chainId = .error e := by
  have hhex : hexDecode (trimStart0x (hexEncode (t.raw r s))) = some (t.raw r s) := by
    rw [trimStart0x_hexEncode, hexDecode_hexEncode]
  have hdecode := t.decodeLegacy_raw hsigned hr hs hhex
  have hverify := t.verifyEmbedded_raw hsigned hr hs
  refine ⟨t.transaction point r s, hdecode, ?_, ⟨rfl, rfl, rfl, ?_, rfl⟩, hverify, ?_, ?_⟩
  · apply t.decodeLegacy_raw hsigned hr hs
    rw [trimStart0x_append, trimStart0x_hexEncode, hexDecode_hexEncode]
  · have hprice := t.gasPrice.toNat_lt
    have hlimit := t.gasLimit.toNat_lt
    have hproduct : t.gasPrice.toNat * t.gasLimit.toNat < 2 ^ 64 * 2 ^ 64 :=
      Nat.mul_lt_mul_of_lt_of_lt hprice hlimit
    exact Nat.mod_eq_of_lt (by omega)
  · -- the signature determines the signed fields and the chain
    intro tx' hsignature hother
    apply exists_error
    intro _ hverify'
    obtain ⟨_, rfl⟩ := verifyEmbedded_unique hsignature hverify hverify'
    simp at hother
  · intro chainId hne
    constructor
    · apply exists_error
      intro tx' hdecode'
      exact hne (decodeLegacy_chainId hdecode' hdecode)
    · apply exists_error
      intro _ hverify'
      exact hne (verifyEmbedded_unique rfl hverify hverify').1.symm

/-! ## Replay on another chain -/

/-- Every transaction of a batch that is applied passed its check. -/
lemma authenticate_of_applyTransactions {chainId : UInt64} {producer : String}
    {txs : List Transaction} {state state' : Balances × Nonces}
    (h : applyTransactions chainId txs producer state = .ok state') :
    ∀ tx ∈ txs, authenticate chainId tx = .ok () :=
  foldlM_forall (f := applyTransaction chainId producer) _
    (fun _ _ _ hstep => (applyTransaction_eq_ok hstep).1) h

/-- **Only raw transactions are bound to their chain.** A transaction that one chain accepted is
refused by the check of a chain with another id exactly when it carries an Ethereum raw
transaction. -/
theorem replay_rejected_iff (c c' : Blockchain) (hne : c.chainId ≠ c'.chainId)
    (txs : List Transaction) (producer : String) (state state' : Balances × Nonces)
    (h : applyTransactions c.chainId txs producer state = .ok state') (tx : Transaction)
    (htx : tx ∈ txs) :
    (∃ e, authenticate c'.chainId tx = .error e) ↔ startsWith tx.signature "ethraw:" = true := by
  have haccepted := authenticate_of_applyTransactions h tx htx
  constructor
  · rintro ⟨e, hrefused⟩
    by_contra hnative
    -- the check of a native signature does not look at the chain id
    rw [authenticate, if_neg hnative] at haccepted hrefused
    rw [haccepted] at hrefused
    cases hrefused
  · intro hraw
    rw [authenticate, if_pos hraw] at haccepted ⊢
    apply exists_error
    intro _ haccepted'
    exact hne (verifyEmbedded_unique rfl haccepted haccepted').1

end

/-! ### The signature of the key 1 -/

namespace KeyOne

/-- The public point of the private key 1. -/
def point : Bytes :=
  4 :: (beBytes 32 0x79be667ef9dcbbac55a06295ce870b07029bfcdb2dce28d959f2815b16f81798 ++
    beBytes 32 0x483ada7726a3c4655da4fbfc0e1108a8fd17b448a68554199c47d08ffb10d4b8)

/-- 100 coins to an address, signed with a scalar `r` that starts with a zero byte. -/
def transfer : Eip155 where
  nonce := 0
  gasPrice := 1
  gasLimit := 21000
  receiver := List.replicate 20 2
  amount := 100
  chainId := 31337
  r := beBytes 32 0xe3ae1974566ca06cc516d47e0fb165a674a3dabcfca15e722f0e3450f45889
  s := beBytes 32 0x120ae959c00f06880ce9e8b88713919ce3074bb61ead39614df214c03d28cd91
  recoveryId := 1
  length_receiver := rfl
  chainId_fits := by decide
  length_r := length_beBytes 32 _
  length_s := length_beBytes 32 _

/-- The Keccak digest of the payload. -/
def digest : Bytes :=
  beBytes 32 0x3696db42c2aeac0fdb6ed2e2c73e47c8afb29a36759af60b362c9af413fd9999

/-- The two Keccak digests and the recovery of the signature. -/
@[reducible] def primitives : Primitives where
  sha256 bytes := ⟨Sha256.hash bytes, Sha256.length_hash bytes⟩
  keccak256 bytes :=
    if bytes == point.drop 1 then
      ⟨beBytes 32 0xc0a6c424ac7157ae408398df7e5f4552091a69125d5dfcb7b8c2659029395bdf,
        length_beBytes 32 _⟩
    else ⟨digest, length_beBytes 32 _⟩
  ed25519Key _ := false
  ed25519Verify _ _ _ := false
  secp256k1Key bytes := if bytes == point then some point else none
  ecdsaSignature bytes := bytes == transfer.r ++ transfer.s
  ecdsaVerify _ _ _ := false
  ecdsaRecover hash signature recoveryId :=
    if hash == digest && signature == transfer.r ++ transfer.s && recoveryId == 1 then some point
    else none
  peerKey _ := none
  peerIdOf _ := ""
  peerVerify _ _ _ := false

attribute [local instance] primitives

lemma signedBy : transfer.SignedBy point := by
  refine ⟨?_, ?_⟩ <;> decide

/-- The transfer of the key 1, with the zero byte of `r` left out. -/
theorem raw_transaction_round_trip_key_one :
    ∃ tx, decodeLegacy
        (hexEncode (transfer.raw (transfer.r.dropWhile (· == 0)) transfer.s)) 31337 = .ok tx ∧
      tx.sender = "0x7e5f4552091a69125d5dfcb7b8c2659029395bdf" ∧ tx.amount = 100 ∧
      verifyEmbedded tx 31337 = .ok () := by
  obtain ⟨tx, hdecode, _, ⟨_, _, hamount, _, hsender⟩, hverify, _⟩ :=
    raw_transaction_round_trip transfer point _ _ signedBy (.inr rfl) (.inl rfl)
  refine ⟨tx, hdecode, ?_, hamount, hverify⟩
  rw [hsender]
  decide

end KeyOne

section
attribute [local instance] Devnet.primitives

/-- The chain of the two keys under another id. -/
def otherChain : Blockchain := { Devnet.chain with chainId := 2 }

lemma transfer_not_raw : ¬ startsWith Devnet.transfer.signature "ethraw:" = true := by
  have h : startsWith Devnet.transfer.signature "ethraw:" = false :=
    startsWith_hexEncode 'e' ['h', 'r', 'a', 'w', ':'] (b := 't') (by decide)
  rw [h]
  decide

/-- The transfer alone is a batch that the first chain applies. -/
lemma transfer_batch_applies :
    ∃ state, applyTransactions Devnet.chain.chainId [Devnet.transfer] Devnet.validator
      (Devnet.chain.balances, Devnet.chain.nextNonces) = .ok state := by
  obtain ⟨balances, happlies⟩ := Devnet.transfer_applies
  exact ⟨_, foldlM_cons_eq_ok.mpr ⟨_, happlies, rfl⟩⟩

/-- The transfer is applied by the first chain, and the check of the second accepts it too. -/
theorem replay_accepted :
    Devnet.chain.chainId ≠ otherChain.chainId ∧
      (∃ state, applyTransactions Devnet.chain.chainId [Devnet.transfer] Devnet.validator
        (Devnet.chain.balances, Devnet.chain.nextNonces) = .ok state) ∧
      authenticate otherChain.chainId Devnet.transfer = .ok () := by
  refine ⟨by decide, transfer_batch_applies, ?_⟩
  have hauthentic := Devnet.transfer_authentic
  rw [authenticate, if_neg transfer_not_raw] at hauthentic ⊢
  exact hauthentic

/-- A transfer with a plain signature is not refused on another chain. -/
theorem replay_rejected_iff_transfer :
    ¬ ∃ e, authenticate otherChain.chainId Devnet.transfer = .error e := by
  obtain ⟨state, happlies⟩ := transfer_batch_applies
  have hiff := replay_rejected_iff Devnet.chain otherChain (by decide) [Devnet.transfer]
    Devnet.validator _ state happlies Devnet.transfer List.mem_cons_self
  intro hrefused
  exact transfer_not_raw (hiff.mp hrefused)

end

end IeumChain
