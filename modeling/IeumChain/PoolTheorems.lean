import IeumChain.DrainTheorems

/-!
# What the pool keeps and what it gives up

`retain_valid` and `drain` neither lose nor double a transaction: what the first adds again is
added without rejection or eviction, and what the second returns can be added again
(`maintenance_keeps`). Eviction is by the lowest fee, whatever the newcomer pays. It spares the
transactions that pay more than the newcomer exactly when they leave room for it
(`evicts_cheaper_iff`).
-/

namespace IeumChain

open Lib

namespace Mempool

/-- A predicate without a state keeps what satisfies it. -/
lemma retained_pure (p : Mempool) (keep : Transaction → Bool) :
    p.retained (fun _ => keep) = p.transactions.filter keep := by
  have hfst : (fun entry : Transaction × ℕ => keep entry.1) = keep ∘ Prod.fst := rfl
  rw [retained, hfst, ← List.filter_map, List.zipIdx_map_fst]

/-! ## Dearer transactions -/

/-- The transactions that pay more than the newcomer, but for the one it replaces. -/
def dearer (p : Mempool) (tx : Transaction) : List Transaction :=
  p.transactions.filter fun other => other.slot ≠ tx.slot ∧ tx.fee < other.fee

lemma mem_dearer {p : Mempool} {tx other : Transaction} : other ∈ p.dearer tx ↔
    other ∈ p.transactions ∧ other.slot ≠ tx.slot ∧ tx.fee < other.fee := by
  rw [dearer, List.mem_filter, decide_eq_true_iff]

lemma heldBytes_subperm {l l' : List Transaction} (h : l.Subperm l') :
    heldBytes l ≤ heldBytes l' := by
  obtain ⟨m, hperm, hsub⟩ := h
  rw [← heldBytes_perm hperm]
  exact heldBytes_sublist hsub

section
variable [Primitives]

/-! ## Adding one after the other -/

/-- Add the transactions one after the other. -/
def addAll (p : Mempool) (txs : List Transaction) : Mempool :=
  txs.foldl (fun q tx => (q.add tx).2) p

/-- No transaction is rejected, and each is stored behind the queue, from which nothing goes. -/
def AllStored (p : Mempool) (txs : List Transaction) : Prop :=
  ∀ done tx rest, txs = done ++ tx :: rest →
    (p.addAll done).transactions = p.transactions ++ done ∧
      (p.addAll done).add tx = (.ok (), (p.addAll done).push tx)

lemma Exact.allStored {p : Mempool} (h : p.Exact) {txs : List Transaction}
    (hroom : p.Appendable txs) : p.AllStored txs := by
  rintro done
  induction done generalizing p txs with
  | nil =>
    rintro tx rest rfl
    exact ⟨(List.append_nil _).symm, (h.add_next hroom).1⟩
  | cons first done ih =>
    rintro tx rest rfl
    obtain ⟨hadd, hstored, hrest⟩ := h.add_next hroom
    have hcons : p.addAll (first :: done) = (p.push first).addAll done := by
      rw [addAll, List.foldl_cons, hadd, addAll]
    obtain ⟨hqueue, hlast⟩ := ih hstored hrest tx rest rfl
    rw [hcons]
    refine ⟨?_, hlast⟩
    rw [hqueue, Mempool.push, List.append_assoc, List.singleton_append]

/-- Any part of a queue can be taken out and added again. -/
lemma Exact.appendable {p q : Mempool} (h : p.Exact)
    (hlimits : q.maxTransactions = p.maxTransactions ∧ q.maxBytes = p.maxBytes)
    {txs : List Transaction} (hperm : (q.transactions ++ txs).Subperm p.transactions) :
    q.Appendable txs := by
  obtain ⟨l, hl, hsub⟩ := hperm
  constructor
  · exact (hl.map _).nodup_iff.mp ((hsub.map _).nodup h.ids_nodup)
  · exact (hl.map _).nodup_iff.mp ((hsub.map _).nodup h.slots_nodup)
  · rw [hlimits.1, ← hl.length_eq]
    exact hsub.length_le.trans h.length_le
  · rw [hlimits.2, ← heldBytes_perm hl]
    exact (heldBytes_sublist hsub).trans (h.totalBytes_eq.ge.trans h.totalBytes_le)

/-- An empty pool with the limits of a pool. -/
lemma Exact.withLimits_eq {p : Mempool} (h : p.Exact) :
    (withLimits p.maxTransactions p.maxBytes).maxTransactions = p.maxTransactions ∧
      (withLimits p.maxTransactions p.maxBytes).maxBytes = p.maxBytes :=
  ⟨max_one_of_pos h.maxTransactions_pos, max_one_of_pos h.maxBytes_pos⟩

/-! ## Keeping and draining -/

/-- **Pool maintenance keeps what it should.** After any calls on a new pool, `retain_valid` leaves
the transactions that the predicate kept, in their order, and rejects and evicts none of them. For
every count `drain` cuts the pool into that many transactions, or all of them, and the others, none
of which has a higher fee than a returned one; and the returned transactions, in any order, are
added again without rejection or eviction, which restores the pool. -/
theorem maintenance_keeps (maxTransactions maxBytes : UInt64) (calls : List Call)
    (hfits : AllFit (withLimits maxTransactions maxBytes) calls) (pool : Mempool)
    (hpool : pool = (withLimits maxTransactions maxBytes).run calls) :
    (∀ valid, (pool.retainValid valid).transactions = pool.retained valid ∧
      (withLimits pool.maxTransactions pool.maxBytes).AllStored (pool.retained valid)) ∧
    (∀ keep : Transaction → Bool,
      (pool.retainValid fun _ => keep).transactions = pool.transactions.filter keep) ∧
    ∀ maxCount,
      (pool.drain maxCount).1.length = min maxCount pool.transactions.length ∧
      ((pool.drain maxCount).1 ++ (pool.drain maxCount).2.transactions).Perm pool.transactions ∧
      (∀ tx ∈ (pool.drain maxCount).1, ∀ left ∈ (pool.drain maxCount).2.transactions,
        left.fee ≤ tx.fee) ∧
      ∀ again, again.Perm (pool.drain maxCount).1 →
        (pool.drain maxCount).2.AllStored again ∧
          ((pool.drain maxCount).2.addAll again).transactions.Perm pool.transactions := by
  obtain ⟨hexact, _⟩ := (exact_withLimits maxTransactions maxBytes).run calls hfits
  rw [← hpool] at hexact
  refine ⟨fun valid => ?_, fun keep => ?_, fun maxCount => ?_⟩
  · -- what is retained was held together, so it is stored again as a whole
    refine ⟨(hexact.retainValid valid).2.1, (exact_withLimits _ _).allStored ?_⟩
    exact hexact.appendable hexact.withLimits_eq (pool.retained_sublist valid).subperm
  · rw [(hexact.retainValid fun _ => keep).2.1, retained_pure]
  · obtain ⟨htaken, hleft⟩ := pool.drain_eq maxCount
    obtain ⟨hdrained, hlimits⟩ := hexact.drain maxCount
    have hcut := List.take_append_drop maxCount pool.ranked
    have hperm : ((pool.drain maxCount).1 ++ (pool.drain maxCount).2.transactions).Perm
        pool.transactions := by
      rw [htaken, hleft, hcut]
      exact pool.ranked_perm
    refine ⟨?_, hperm, ?_, fun again hagain => ?_⟩
    · rw [htaken, List.length_take, pool.ranked_perm.length_eq]
    · intro tx htx left hmem
      have hordered := pool.ranked_pairwise
      rw [← hcut, List.pairwise_append] at hordered
      rw [htaken] at htx
      rw [hleft] at hmem
      have horder := drainOrder_iff.mp (hordered.2.2 tx htx left hmem)
      rw [BitVec.le_def]
      omega
    · -- left and drained together are the pool as it was, which was within the limits
      have hback : ((pool.drain maxCount).2.transactions ++ again).Perm pool.transactions :=
        (List.perm_append_comm.trans (hagain.append_right _)).trans hperm
      have hroom := hexact.appendable hlimits hback.subperm
      refine ⟨hdrained.allStored hroom, ?_⟩
      obtain ⟨q, hq, _, hqueue, _⟩ := foldl_add again hdrained hroom
      rw [addAll, hq, hqueue]
      exact hback

/-! ## Eviction -/

lemma Indexed.nodup {p : Mempool} {stale : Set (String × UInt64)} (h : p.Indexed stale) :
    p.transactions.Nodup := List.Nodup.of_map _ h.ids_nodup

/-- A full pool has transactions that are not in a list which leaves room. -/
lemma Overfull.exists_notMem {q : Mempool} {stale : Set (String × UInt64)} (h : q.Indexed stale)
    {size : ℕ} (hfull : q.Overfull size) {l : List Transaction}
    (hlength : l.length < q.maxTransactions.toNat) (hbytes : heldBytes l + size ≤ q.maxBytes.toNat) :
    ∃ other ∈ q.transactions, other ∉ l := by
  by_contra! hall
  have hsub : q.transactions.Subperm l := List.subperm_of_subset h.nodup hall
  have hcount := hsub.length_le
  have hheld := heldBytes_subperm hsub
  rw [← h.totalBytes_eq] at hheld
  unfold Overfull saturatingAdd at hfull
  omega

/-- Where a list of transactions leaves room and every other one is cheaper than each of them, the
eviction loop does not come to the list. -/
lemma Indexed.evict_spares {p : Mempool} {stale : Set (String × UInt64)} (h : p.Indexed stale)
    {size : ℕ} {l : List Transaction} (hheld : l ⊆ p.transactions)
    (hcheaper : ∀ other ∈ p.transactions, other ∉ l → ∀ tx ∈ l, other.fee.toNat < tx.fee.toNat)
    (hlength : l.length < p.maxTransactions.toNat)
    (hbytes : heldBytes l + size ≤ p.maxBytes.toNat) : l ⊆ (p.evict size).transactions := by
  have hend : Sheds p (p.evict size) ∧ (p.evict size).Indexed stale ∧
      l ⊆ (p.evict size).transactions := by
    apply evict_induction (P := fun q => Sheds p q ∧ q.Indexed stale ∧ l ⊆ q.transactions)
    · rintro q hfull position hposition ⟨hsheds, hindexed, hstill⟩
      refine ⟨hsheds.trans (sheds_removeAt q position), hindexed.removeAt position, ?_⟩
      -- the removed transaction costs no more than one outside the list
      obtain ⟨other, hother, hout⟩ := Overfull.exists_notMem hindexed hfull
        (hlength.trans_eq (congrArg _ hsheds.maxTransactions.symm))
        (hbytes.trans_eq (congrArg _ hsheds.maxBytes.symm))
      obtain ⟨place, hplace⟩ := List.mem_iff_get.mp hother
      have hmin := List.le_of_mem_argmin (List.mem_finRange place) hposition
      have hgone : q.transactions[position] ∉ l := by
        intro hin
        have hlt := hcheaper other (hsheds.transactions.subset hother) hout _ hin
        have hfee : q.transactions[place] = other := hplace
        rw [hfee] at hmin
        omega
      intro tx htx
      have hperm := List.getElem_cons_eraseIdx_perm position.isLt
      rcases List.mem_cons.mp (hperm.mem_iff.mpr (hstill htx)) with heq | hleft
      · exact absurd (heq ▸ htx) hgone
      · exact hleft
    · exact ⟨Sheds.refl p, h, hheld⟩
  exact hend.2.2

/-- **Eviction favours fees exactly when the dearer transactions leave room.** After any calls on a
new pool, an `add` that succeeds evicts no transaction with a higher fee than the newcomer's, but
for the one it replaces, exactly when those with a higher fee are fewer than the pool may hold and
leave enough bytes for the newcomer. -/
theorem evicts_cheaper_iff (maxTransactions maxBytes : UInt64) (calls : List Call)
    (hfits : AllFit (withLimits maxTransactions maxBytes) calls) (pool : Mempool)
    (hpool : pool = (withLimits maxTransactions maxBytes).run calls) (tx : Transaction)
    (hfit : pool.Fits tx) (hadd : (pool.add tx).1 = .ok ()) :
    (∀ gone ∈ pool.transactions, gone.slot ≠ tx.slot → gone ∉ (pool.add tx).2.transactions →
      gone.fee ≤ tx.fee) ↔
    (pool.dearer tx).length < pool.maxTransactions.toNat ∧
      heldBytes (pool.dearer tx) + tx.jsonSize ≤ pool.maxBytes.toNat := by
  obtain ⟨hexact, _⟩ := (exact_withLimits maxTransactions maxBytes).run calls hfits
  rw [← hpool] at hexact
  -- `base` is the pool without the transaction that the new one replaces
  obtain ⟨e, hfail, _⟩ | ⟨base, hstored, hbase, hindexed, hqueue, _, hsize⟩ :=
    add_base hexact.toIndexed tx
  · rw [hfail] at hadd
    cases hadd
  have hheld : ∀ other, other ∈ base.transactions ↔
      other ∈ pool.transactions ∧ other.slot ≠ tx.slot := by
    intro other
    rw [hqueue, List.mem_filter, decide_eq_true_iff]
  have hkept : ∀ other, other.slot ≠ tx.slot → (other ∈ (pool.add tx).2.transactions ↔
      other ∈ (base.evict tx.jsonSize).transactions) := by
    intro other hslot
    rw [hstored, push, List.mem_append, List.mem_singleton]
    have hne : other ≠ tx := fun heq => hslot (congrArg _ heq)
    simp only [hne, or_false]
  constructor
  · intro hcheaper
    have hsheds := hbase.trans (sheds_evict base tx.jsonSize)
    -- everything dearer was kept, and so it fits next to the new transaction
    have hstill : pool.dearer tx ⊆ (base.evict tx.jsonSize).transactions := by
      intro other hother
      obtain ⟨hmem, hslot, hfee⟩ := mem_dearer.mp hother
      rw [← hkept other hslot]
      by_contra hgone
      have hle := hcheaper other hmem hslot hgone
      rw [BitVec.lt_def] at hfee
      rw [BitVec.le_def] at hle
      omega
    have hsub : (pool.dearer tx).Subperm (base.evict tx.jsonSize).transactions :=
      List.subperm_of_subset (hexact.nodup.filter _) hstill
    have hcount := hsub.length_le
    have hbytes := heldBytes_subperm hsub
    have hroom := not_overfull_evict hindexed (hbase.maxTransactions ▸ hexact.maxTransactions_pos)
      (hbase.maxBytes ▸ hsize)
    have hlimit := pool.maxBytes.toNat_lt
    have hall := heldBytes_sublist hsheds.transactions
    unfold Overfull saturatingAdd at hroom
    rw [hsheds.maxTransactions, hsheds.maxBytes, (hindexed.evict _).totalBytes_eq] at hroom
    unfold Fits at hfit
    omega
  · rintro ⟨hlength, hbytes⟩ gone hgone hslot hlost
    -- eviction takes the cheapest first, so it stops before the dearer ones while these have room
    have hspared : pool.dearer tx ⊆ (base.evict tx.jsonSize).transactions := by
      apply hindexed.evict_spares
      · intro other hother
        obtain ⟨hmem, hother, _⟩ := mem_dearer.mp hother
        exact (hheld other).mpr ⟨hmem, hother⟩
      · intro other hother hcheap dear hdear
        obtain ⟨hmem, hslot⟩ := (hheld other).mp hother
        obtain ⟨_, _, hfee⟩ := mem_dearer.mp hdear
        have hle : ¬ tx.fee < other.fee := fun hlt => hcheap (mem_dearer.mpr ⟨hmem, hslot, hlt⟩)
        rw [BitVec.lt_def] at hfee hle
        omega
      · rw [hbase.maxTransactions]
        exact hlength
      · rw [hbase.maxBytes]
        exact hbytes
    rw [hkept gone hslot] at hlost
    by_contra hdear
    apply hlost
    apply hspared
    refine mem_dearer.mpr ⟨hgone, hslot, ?_⟩
    rw [BitVec.lt_def]
    rw [BitVec.le_def] at hdear
    omega

end

section
attribute [local instance] Devnet.primitives

/-- What is drained from the pool of two transfers goes back into it. -/
theorem maintenance_keeps_default :
    AllFit Mempool.default devnetCalls ∧
      ((Mempool.default.run devnetCalls).drain 1).2.AllStored
        ((Mempool.default.run devnetCalls).drain 1).1 := by
  have hfits : AllFit Mempool.default devnetCalls :=
    allFit_of_lt devnetCalls (exact_withLimits _ _) (by decide)
  have hkeeps := maintenance_keeps 10000 (16 * 1024 * 1024) devnetCalls hfits _ rfl
  exact ⟨hfits, ((hkeeps.2.2 1).2.2.2 _ (List.Perm.refl _)).1⟩

/-- A pool that has room for one transaction and holds it. -/
def single (held : Transaction) : Mempool := (withLimits 1 1000).run [.add held]

lemma single_add {held tx : Transaction}
    (hid : Sha256.hash held.idPreimage ≠ Sha256.hash tx.idPreimage) (hslot : held.slot ≠ tx.slot)
    (hbytes : held.jsonSize + tx.jsonSize ≤ 1000) :
    (single held).transactions = [held] ∧ ((single held).add tx).1 = .ok () ∧
      ((single held).add tx).2.transactions = [tx] := by
  have hlimit : (withLimits 1 1000).maxBytes.toNat = 1000 := by decide
  have hplace : 1 ≤ (withLimits 1 1000).maxTransactions.toNat := by decide
  obtain ⟨q, hq, hexact, hheld, hcount, hlimits⟩ := foldl_add [held] (exact_withLimits 1 1000)
    ⟨List.nodup_singleton _, List.nodup_singleton _, hplace, by
      rw [hlimit, withLimits, List.nil_append, heldBytes_cons, heldBytes_nil]
      omega⟩
  have hsingle : single held = q := hq
  have hone : q.transactions = [held] := hheld
  have hsize : tx.jsonSize ≤ q.maxBytes.toNat := by
    rw [hlimits, hlimit]
    omega
  have hfresh : tx.id ∉ q.ids := by
    rw [hexact.mem_ids, hone]
    rintro ⟨other, hother, heq⟩
    rw [List.mem_singleton.mp hother] at heq
    exact hid (hexEncode_inj heq)
  have hfree : ∀ other ∈ q.transactions, other.slot ≠ tx.slot := by
    rw [hone]
    intro other hother
    rw [List.mem_singleton.mp hother]
    exact hslot
  have hadd := add_of_fresh hexact.toIndexed hfresh hfree hsize
  -- the one place has to be free
  have hroom := not_overfull_evict hexact.toIndexed hexact.maxTransactions_pos hsize
  rw [Overfull, (sheds_evict q _).maxTransactions, hcount] at hroom
  have hempty : (q.evict tx.jsonSize).transactions = [] :=
    List.length_eq_zero_iff.mp (Nat.lt_one_iff.mp (not_le.mp (not_or.mp hroom).1))
  rw [hsingle, hadd, push, hempty]
  exact ⟨hone, rfl, rfl⟩

/-- The dearer transfer takes the one place. -/
theorem evicts_cheaper_iff_single :
    AllFit (withLimits 1 1000) [.add Devnet.transfer] ∧
      (single Devnet.transfer).Fits urgent ∧ ((single Devnet.transfer).add urgent).1 = .ok () ∧
      ((single Devnet.transfer).dearer urgent).length
        < (single Devnet.transfer).maxTransactions.toNat := by
  obtain ⟨hid, hslot, hbytes⟩ := transfer_urgent
  obtain ⟨hheld, hadd, hleft⟩ := single_add hid hslot hbytes
  have hfits : AllFit (withLimits 1 1000) [.add Devnet.transfer] :=
    allFit_of_lt _ (exact_withLimits _ _) (by decide)
  have hlimits := (exact_withLimits 1 1000).run _ hfits
  have hmax : (single Devnet.transfer).maxBytes.toNat ≠ 2 ^ 64 - 1 := by
    rw [single, hlimits.2.2]
    decide
  have hfit : (single Devnet.transfer).Fits urgent := fun heq => absurd heq hmax
  refine ⟨hfits, hfit, hadd, ?_⟩
  refine ((evicts_cheaper_iff 1 1000 _ hfits _ rfl urgent hfit hadd).mp ?_).1
  intro gone hgone _ _
  have hgone' : gone ∈ (single Devnet.transfer).transactions := hgone
  rw [hheld] at hgone'
  rw [List.mem_singleton.mp hgone']
  decide

/-- The cheaper transfer takes the one place from the dearer one. -/
theorem cheaper_evicts_dearer :
    ((single urgent).add Devnet.transfer).1 = .ok () ∧
      urgent ∈ (single urgent).transactions ∧ urgent.slot ≠ Devnet.transfer.slot ∧
      urgent ∉ ((single urgent).add Devnet.transfer).2.transactions ∧
      Devnet.transfer.fee < urgent.fee := by
  obtain ⟨hid, hslot, hbytes⟩ := transfer_urgent
  obtain ⟨hheld, hadd, hleft⟩ := single_add hid.symm hslot.symm ((Nat.add_comm _ _).trans_le hbytes)
  rw [hheld, hleft, List.mem_singleton, List.mem_singleton]
  refine ⟨hadd, rfl, hslot.symm, fun heq => hslot ?_, by decide⟩
  rw [heq]

end

end Mempool

end IeumChain
