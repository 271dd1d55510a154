import IeumChain.MempoolTheorems

/-!
# The order of a drained batch

`drain` takes the transactions of the highest fees, whoever sent them, and looks at the nonce only
between equal fees. A block executes the transactions of a sender in the order of their nonces.
The two agree on exactly the pools in which no sender offers more for a later nonce than for an
earlier one (`drains_in_order_iff`).
-/

namespace IeumChain

open Lib

namespace Mempool

/-! ## What `drain` returns -/

/-- The order of `drain` over natural numbers. -/
lemma drainOrder_iff {left right : Transaction} : DrainOrder left right ↔
    right.fee.toNat < left.fee.toNat ∨
      (right.fee.toNat = left.fee.toNat ∧ left.nonce.toNat ≤ right.nonce.toNat) := by
  rw [DrainOrder, BitVec.lt_def, BitVec.toNat_inj, UInt64.le_iff_toNat_le]

instance : Std.Total DrainOrder where
  total left right := by
    simp only [drainOrder_iff]
    omega

instance : IsTrans Transaction DrainOrder where
  trans a b c hab hbc := by
    simp only [drainOrder_iff] at *
    omega

/-- The queue in the order of `drain`. -/
def ranked (p : Mempool) : List Transaction := p.transactions.insertionSort DrainOrder

lemma ranked_perm (p : Mempool) : p.ranked.Perm p.transactions := List.perm_insertionSort _ _

lemma ranked_pairwise (p : Mempool) : p.ranked.Pairwise DrainOrder :=
  List.pairwise_insertionSort _ _

/-- Two held transactions are ranked one before the other. -/
lemma rel_or_rel {p : Mempool} {r : Transaction → Transaction → Prop} (h : p.ranked.Pairwise r)
    {a b : Transaction} (ha : a ∈ p.transactions) (hb : b ∈ p.transactions) (hne : a ≠ b) :
    r a b ∨ r b a := by
  have : Std.Symm fun a b => r a b ∨ r b a := ⟨fun _ _ => Or.symm⟩
  have hsymmetric : p.ranked.Pairwise fun a b => r a b ∨ r b a := h.imp Or.inl
  exact hsymmetric.forall (p.ranked_perm.mem_iff.mpr ha) (p.ranked_perm.mem_iff.mpr hb) hne

section
variable [Primitives]

/-- The loop of `drain` cuts the queue after `count` transactions. -/
lemma takeFirst_eq (count : ℕ) : ∀ p : Mempool,
    (takeFirst count p).1 = p.transactions.take count ∧
      (takeFirst count p).2.transactions = p.transactions.drop count := by
  induction count with
  | zero => exact fun p => ⟨rfl, rfl⟩
  | succ count ih =>
    intro p
    rw [takeFirst]
    split
    next h =>
      obtain ⟨tx, rest, hqueue⟩ := List.exists_cons_of_length_pos h
      obtain ⟨htake, hdrop⟩ := ih (p.removeAt ⟨0, h⟩).2
      have hremoved : (p.removeAt ⟨0, h⟩).1 = tx ∧ (p.removeAt ⟨0, h⟩).2.transactions = rest := by
        simp [removeAt, hqueue]
      rw [hremoved.2] at htake hdrop
      have hcut : p.transactions.take (count + 1) = tx :: rest.take count ∧
          p.transactions.drop (count + 1) = rest.drop count := by
        rw [hqueue]
        exact ⟨rfl, rfl⟩
      rw [hcut.1, hcut.2, ← hremoved.1]
      exact ⟨congrArg _ htake, hdrop⟩
    next h =>
      have hempty : p.transactions = [] := List.length_eq_zero_iff.mp (Nat.eq_zero_of_not_pos h)
      rw [hempty]
      exact ⟨rfl, rfl⟩

/-- `drain` returns the first of the ranked transactions and leaves the others. -/
lemma drain_eq (p : Mempool) (maxCount : ℕ) :
    (p.drain maxCount).1 = p.ranked.take maxCount ∧
      (p.drain maxCount).2.transactions = p.ranked.drop maxCount :=
  takeFirst_eq maxCount _

/-! ## The order of the nonces -/

/-- Of two transactions of one sender, the first has the lower nonce. -/
def NonceOrder (first second : Transaction) : Prop :=
  first.sender = second.sender → first.nonce < second.nonce

/-- However many transactions are drained, those of each sender come with increasing nonces, and
none is drained while one of its sender with a smaller nonce stays. -/
def DrainsInOrder (p : Mempool) : Prop :=
  ∀ maxCount, (p.drain maxCount).1.Pairwise NonceOrder ∧
    ∀ tx ∈ (p.drain maxCount).1, ∀ left ∈ (p.drain maxCount).2.transactions,
      left.sender = tx.sender → ¬ left.nonce < tx.nonce

/-- No sender offers a higher fee for a later nonce than for an earlier one. -/
def FeesFollowNonces (p : Mempool) : Prop :=
  ∀ earlier ∈ p.transactions, ∀ later ∈ p.transactions, earlier.sender = later.sender →
    earlier.nonce < later.nonce → later.fee ≤ earlier.fee

/-- Where the fees follow the nonces, the order of `drain` is that of the nonces. -/
lemma FeesFollowNonces.pairwise {p : Mempool} (h : p.FeesFollowNonces) (hindexed : p.Indexed ∅) :
    p.ranked.Pairwise NonceOrder := by
  have hslots : p.ranked.Pairwise fun a b => a.slot ≠ b.slot :=
    List.pairwise_map.mp ((p.ranked_perm.map _).nodup_iff.mpr hindexed.slots_nodup)
  refine (p.ranked_pairwise.and hslots).imp_of_mem ?_
  rintro first second hfirst hsecond ⟨horder, hslot⟩ hsender
  have hne : first.nonce.toNat ≠ second.nonce.toNat := fun heq =>
    hslot (Prod.ext hsender (UInt64.toNat_inj.mp heq))
  rw [UInt64.lt_iff_toNat_lt]
  by_contra hge
  -- the second has the lower nonce, so its fee is not lower, and the nonces decide
  have hfee := h second (p.ranked_perm.mem_iff.mp hsecond) first
    (p.ranked_perm.mem_iff.mp hfirst) hsender.symm (UInt64.lt_iff_toNat_lt.mpr (by omega))
  rw [BitVec.le_def] at hfee
  rw [drainOrder_iff] at horder
  omega

/-- A pool drains in order exactly when the fees follow the nonces. -/
lemma drainsInOrder_iff {p : Mempool} (hindexed : p.Indexed ∅) :
    p.DrainsInOrder ↔ p.FeesFollowNonces := by
  constructor
  · intro h earlier hearlier later hlater hsender hnonce
    -- drained at once, the whole queue is in both orders
    have hall := (h p.ranked.length).1
    rw [(p.drain_eq _).1, List.take_length] at hall
    rw [UInt64.lt_iff_toNat_lt] at hnonce
    have hne : earlier ≠ later := by
      rintro rfl
      omega
    rw [BitVec.le_def]
    rcases rel_or_rel (p.ranked_pairwise.and hall) hearlier hlater hne with
      ⟨horder, _⟩ | ⟨_, hnonces⟩
    · rw [drainOrder_iff] at horder
      omega
    · have hbefore := UInt64.lt_iff_toNat_lt.mp (hnonces hsender.symm)
      omega
  · intro h maxCount
    have hordered := h.pairwise hindexed
    rw [← List.take_append_drop maxCount p.ranked, List.pairwise_append] at hordered
    obtain ⟨htaken, _, hleft⟩ := hordered
    rw [(p.drain_eq maxCount).1, (p.drain_eq maxCount).2]
    refine ⟨htaken, fun tx htx left hmem hsender hlower => ?_⟩
    have hhigher := hleft tx htx left hmem hsender.symm
    rw [UInt64.lt_iff_toNat_lt] at hlower hhigher
    omega

/-- **A batch is executable exactly when the fees follow the nonces.** After any calls on a new
pool, every drained batch has the transactions of each sender in the order of their nonces, with
no smaller nonce left behind, exactly when no sender offers more for a later nonce. -/
theorem drains_in_order_iff (maxTransactions maxBytes : UInt64) (calls : List Call)
    (hfits : AllFit (withLimits maxTransactions maxBytes) calls) (pool : Mempool)
    (hpool : pool = (withLimits maxTransactions maxBytes).run calls) :
    pool.DrainsInOrder ↔ pool.FeesFollowNonces := by
  obtain ⟨hexact, _⟩ := (exact_withLimits maxTransactions maxBytes).run calls hfits
  rw [hpool]
  exact drainsInOrder_iff hexact.toIndexed

/-- Two transactions that come into a new pool with room for both are held. -/
lemma run_add_add {maxTransactions maxBytes : UInt64} {a b : Transaction} (hid : a.id ≠ b.id)
    (hslot : a.slot ≠ b.slot) (hcount : 2 ≤ maxTransactions.toNat)
    (hbytes : a.jsonSize + b.jsonSize ≤ maxBytes.toNat) (hpos : 0 < maxBytes.toNat) :
    ((withLimits maxTransactions maxBytes).run [.add a, .add b]).Exact ∧
      ((withLimits maxTransactions maxBytes).run [.add a, .add b]).transactions = [a, b] := by
  have hlimits : (withLimits maxTransactions maxBytes).maxTransactions = maxTransactions ∧
      (withLimits maxTransactions maxBytes).maxBytes = maxBytes :=
    ⟨max_one_of_pos (by omega), max_one_of_pos hpos⟩
  obtain ⟨q, hq, hexact, hheld, _⟩ := foldl_add [a, b] (exact_withLimits maxTransactions maxBytes)
    ⟨by simpa [withLimits] using hid, by simpa [withLimits] using hslot,
      by rw [hlimits.1]; exact hcount, by rw [hlimits.2]; simpa [withLimits] using hbytes⟩
  have hrun : (withLimits maxTransactions maxBytes).run [.add a, .add b] = q := hq
  rw [hrun]
  exact ⟨hexact, hheld⟩

end

section
attribute [local instance] Devnet.primitives

/-- The validator's next transfer, for a higher fee. -/
def urgent : Transaction :=
  { Devnet.transfer with
    fee := 50
    nonce := 1
    signature := Devnet.signature
      0x515c9e44b0a7f985dcc81dff81e29de503d42447878177f03dd6c800f7e9f5df
      0x4e7a3a7c6cdb8c3851c63ff3cb38f1401bc95c3e070d6c082d25f92d09c3d604 }

/-- The transfer and another transaction in a pool with the default limits. -/
lemma default_add_add (tx : Transaction)
    (hid : Sha256.hash Devnet.transfer.idPreimage ≠ Sha256.hash tx.idPreimage)
    (hslot : Devnet.transfer.slot ≠ tx.slot)
    (hbytes : Devnet.transfer.jsonSize + tx.jsonSize ≤ 1000) :
    (Mempool.default.run [.add Devnet.transfer, .add tx]).Exact ∧
      (Mempool.default.run [.add Devnet.transfer, .add tx]).transactions = [Devnet.transfer, tx] :=
  run_add_add (fun heq => hid (hexEncode_inj heq)) hslot (by decide) (hbytes.trans (by decide))
    (by decide)

/-- The two transfers have different ids and fit in a thousand bytes. -/
lemma transfer_urgent : Sha256.hash Devnet.transfer.idPreimage ≠ Sha256.hash urgent.idPreimage ∧
    Devnet.transfer.slot ≠ urgent.slot ∧ Devnet.transfer.jsonSize + urgent.jsonSize ≤ 1000 :=
  ⟨by decide +kernel, fun heq => absurd (congrArg Prod.snd heq) (by decide), by decide +kernel⟩

/-- The later transfer is drained before the earlier one. -/
theorem drains_out_of_order :
    ¬ (Mempool.default.run [.add Devnet.transfer, .add urgent]).DrainsInOrder := by
  obtain ⟨hid, hslot, hbytes⟩ := transfer_urgent
  obtain ⟨hexact, hheld⟩ := default_add_add urgent hid hslot hbytes
  rw [drainsInOrder_iff hexact.toIndexed]
  intro h
  have hfee := h Devnet.transfer (by simp [hheld]) urgent (by simp [hheld]) rfl (by decide)
  exact absurd hfee (by decide)

/-- The transfers of two senders are drained in order. -/
theorem drains_in_order_iff_two_senders :
    AllFit Mempool.default [.add Devnet.transfer, .add Devnet.overdraft] ∧
      (Mempool.default.run [.add Devnet.transfer, .add Devnet.overdraft]).DrainsInOrder := by
  have hfits : AllFit Mempool.default [.add Devnet.transfer, .add Devnet.overdraft] :=
    allFit_of_lt _ (exact_withLimits _ _) (by decide)
  have hsender : Devnet.transfer.sender ≠ Devnet.overdraft.sender :=
    Devnet.user_ne_validator.symm
  obtain ⟨_, hheld⟩ := default_add_add Devnet.overdraft (by decide +kernel)
    (fun heq => hsender (congrArg Prod.fst heq)) (by decide +kernel)
  refine ⟨hfits, (drains_in_order_iff 10000 (16 * 1024 * 1024) _ hfits _ rfl).mpr ?_⟩
  intro earlier hearlier later hlater heq hnonce
  have hheld' : (withLimits 10000 (16 * 1024 * 1024)).run
      [.add Devnet.transfer, .add Devnet.overdraft] = Mempool.default.run _ := rfl
  rw [hheld', hheld] at hearlier hlater
  simp only [List.mem_cons, List.not_mem_nil, or_false] at hearlier hlater
  rcases hearlier with rfl | rfl <;> rcases hlater with rfl | rfl
  · exact absurd hnonce (by decide)
  · exact absurd heq hsender
  · exact absurd heq.symm hsender
  · exact absurd hnonce (by decide)

end

end Mempool

end IeumChain
