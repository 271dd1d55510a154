import IeumChain.Devnet
import IeumChain.Mempool
import Mathlib.Tactic

/-!
# The fields of the pool agree

The ids, the index by sender and nonce and the byte count of a pool are computed along with its
queue, by four operations that update them in different orders. `Indexed` says that they describe
the queue. It names a set of stale slots, at which the index may say anything: `add` leaves one
behind while it evicts, the slot of the transaction it is about to store.

Removing a transaction from anywhere (`Indexed.remove`) and storing one (`Indexed.push`) are the
two facts the operations rest on. The main theorem puts them together for every run.
-/

namespace IeumChain

open Lib

namespace Mempool

/-- The bytes of JSON of a list of transactions. -/
def heldBytes (l : List Transaction) : ℕ := (l.map Transaction.jsonSize).sum

@[simp] lemma heldBytes_nil : heldBytes [] = 0 := rfl

@[simp] lemma heldBytes_cons (tx : Transaction) (l : List Transaction) :
    heldBytes (tx :: l) = tx.jsonSize + heldBytes l := by
  rw [heldBytes, List.map_cons, List.sum_cons, heldBytes]

@[simp] lemma heldBytes_append (l l' : List Transaction) :
    heldBytes (l ++ l') = heldBytes l + heldBytes l' := by
  rw [heldBytes, List.map_append, List.sum_append, heldBytes, heldBytes]

lemma heldBytes_perm {l l' : List Transaction} (h : l.Perm l') : heldBytes l = heldBytes l' :=
  (h.map _).sum_eq

lemma heldBytes_sublist {l l' : List Transaction} (h : l.Sublist l') :
    heldBytes l ≤ heldBytes l' := (h.map _).sum_le_sum fun _ _ => Nat.zero_le _

/-- Of transactions with slots of their own, one goes with its slot. -/
lemma eraseIdx_eq_filter : ∀ {l : List Transaction}, (l.map Transaction.slot).Nodup →
    ∀ position : Fin l.length,
      l.eraseIdx position = l.filter fun other => other.slot ≠ (l.get position).slot
  | [], _, position => position.elim0
  | tx :: rest, h, ⟨0, _⟩ => by
    rw [List.map_cons, List.nodup_cons] at h
    have hothers : rest.filter (fun other => other.slot ≠ tx.slot) = rest :=
      List.filter_eq_self.mpr fun other hother =>
        decide_eq_true fun heq => h.1 (heq ▸ List.mem_map_of_mem hother)
    simpa using hothers.symm
  | tx :: rest, h, ⟨position + 1, hlt⟩ => by
    rw [List.map_cons, List.nodup_cons] at h
    have hinner : position < rest.length := Nat.lt_of_succ_lt_succ hlt
    have hrest := eraseIdx_eq_filter h.2 ⟨position, hinner⟩
    have hfirst : tx.slot ≠ (rest.get ⟨position, hinner⟩).slot := fun heq =>
      h.1 (heq ▸ List.mem_map_of_mem (List.get_mem _ _))
    rw [List.eraseIdx_cons_succ, List.get_cons_succ, List.filter_cons_of_pos (by simpa using hfirst)]
    exact congrArg _ hrest

/-- A pool that lost transactions and nothing else. -/
structure Sheds (p q : Mempool) : Prop where
  transactions : q.transactions.Sublist p.transactions
  ids : q.ids ⊆ p.ids
  maxTransactions : q.maxTransactions = p.maxTransactions
  maxBytes : q.maxBytes = p.maxBytes

lemma Sheds.refl (p : Mempool) : Sheds p p := ⟨List.Sublist.refl _, subset_rfl, rfl, rfl⟩

lemma Sheds.trans {p q r : Mempool} (h : Sheds p q) (h' : Sheds q r) : Sheds p r where
  transactions := h'.transactions.trans h.transactions
  ids := h'.ids.trans h.ids
  maxTransactions := h'.maxTransactions.trans h.maxTransactions
  maxBytes := h'.maxBytes.trans h.maxBytes

lemma retained_sublist (p : Mempool) (valid : ℕ → Transaction → Bool) :
    (p.retained valid).Sublist p.transactions := by
  have hkept := (List.filter_sublist (p := fun entry => valid entry.2 entry.1)
    (l := p.transactions.zipIdx)).map Prod.fst
  rwa [List.zipIdx_map_fst] at hkept

lemma max_one_of_pos {n : UInt64} (h : 0 < n.toNat) : max n 1 = n := by
  apply UInt64.toNat_inj.mp
  rw [UInt64.toNat_max]
  exact max_eq_left h

section
variable [Primitives]

/-- The fields beside the queue describe the queue, but for the index at the stale slots. -/
structure Indexed (p : Mempool) (stale : Set (String × UInt64)) : Prop where
  /-- No two transactions have the same id. -/
  ids_nodup : (p.transactions.map Transaction.id).Nodup
  /-- No two transactions have the same sender and nonce. -/
  slots_nodup : (p.transactions.map Transaction.slot).Nodup
  mem_ids : ∀ id, id ∈ p.ids ↔ ∃ tx ∈ p.transactions, tx.id = id
  lookup_slot : ∀ slot ∉ stale, ∀ id, p.senderNonce.lookup slot = some id ↔
    ∃ tx ∈ p.transactions, tx.slot = slot ∧ tx.id = id
  totalBytes_eq : p.totalBytes = heldBytes p.transactions

namespace Indexed
variable {p q : Mempool} {stale : Set (String × UInt64)} {tx : Transaction}

/-- The order of the queue does not matter. -/
lemma perm (h : p.Indexed stale) {l : List Transaction} (hl : l.Perm p.transactions) :
    Indexed { p with transactions := l } stale where
  ids_nodup := (hl.map _).nodup_iff.mpr h.ids_nodup
  slots_nodup := (hl.map _).nodup_iff.mpr h.slots_nodup
  mem_ids id := by simp only [hl.mem_iff, h.mem_ids]
  lookup_slot slot hslot id := by simp only [hl.mem_iff, h.lookup_slot slot hslot]
  totalBytes_eq := h.totalBytes_eq.trans (heldBytes_perm hl).symm

/-- A transaction goes, with its id and its bytes. The index entry at its slot goes too, unless
that slot is stale from then on. -/
lemma remove (h : p.Indexed stale) {rest : List Transaction} {stale' : Set (String × UInt64)}
    (hrest : (tx :: rest).Perm p.transactions) (htransactions : q.transactions = rest)
    (hids : q.ids = p.ids.erase tx.id) (hbytes : q.totalBytes = p.totalBytes - tx.jsonSize)
    (hindex : ∀ slot ∉ stale', slot ∉ stale ∧
      q.senderNonce.lookup slot = if slot = tx.slot then none else p.senderNonce.lookup slot) :
    q.Indexed stale' := by
  have hsplit := h.perm hrest
  have hid := hsplit.ids_nodup
  have hslot := hsplit.slots_nodup
  simp only [List.map_cons, List.nodup_cons, List.mem_map, not_exists, not_and] at hid hslot
  refine ⟨htransactions ▸ hid.2, htransactions ▸ hslot.2, fun id => ?_, fun slot hs id => ?_, ?_⟩
  · rw [hids, htransactions, Finset.mem_erase, hsplit.mem_ids]
    constructor
    · rintro ⟨hne, other, hmem, rfl⟩
      obtain rfl | hmem := List.mem_cons.mp hmem
      · exact absurd rfl hne
      · exact ⟨other, hmem, rfl⟩
    · rintro ⟨other, hmem, rfl⟩
      exact ⟨hid.1 other hmem, other, List.mem_cons_of_mem _ hmem, rfl⟩
  · obtain ⟨hfresh, hlookup⟩ := hindex slot hs
    rw [hlookup, htransactions]
    split
    · rename_i heq
      simp only [reduceCtorEq, false_iff, not_exists, not_and]
      intro other hmem hother
      exact absurd (hother.trans heq) (hslot.1 other hmem)
    · rename_i hne
      rw [hsplit.lookup_slot slot hfresh]
      constructor
      · rintro ⟨other, hmem, hother, hvalue⟩
        obtain rfl | hmem := List.mem_cons.mp hmem
        · exact absurd hother.symm hne
        · exact ⟨other, hmem, hother, hvalue⟩
      · rintro ⟨other, hmem, hother, hvalue⟩
        exact ⟨other, List.mem_cons_of_mem _ hmem, hother, hvalue⟩
  · have htotal := hsplit.totalBytes_eq
    rw [heldBytes_cons] at htotal
    rw [hbytes, htransactions, htotal]
    omega

/-- `remove_at` leaves no trace of the transaction. -/
lemma removeAt (h : p.Indexed stale) (position : Fin p.transactions.length) :
    (p.removeAt position).2.Indexed stale := by
  refine h.remove (List.getElem_cons_eraseIdx_perm position.isLt) rfl rfl rfl fun slot hs => ?_
  refine ⟨hs, ?_⟩
  split
  · rename_i heq
    rw [heq]
    exact Finmap.lookup_erase _ _
  · rename_i hne
    exact Finmap.lookup_erase_ne hne

/-- A new transaction whose slot is the only stale one is stored. -/
lemma push (h : p.Indexed {tx.slot}) (hid : tx.id ∉ p.ids)
    (hslot : ∀ other ∈ p.transactions, other.slot ≠ tx.slot)
    (hfit : p.totalBytes + tx.jsonSize < 2 ^ 64) : (p.push tx).Indexed ∅ := by
  have hmem : ∀ other, other ∈ (p.push tx).transactions ↔ other ∈ p.transactions ∨ other = tx := by
    intro other
    rw [Mempool.push, List.mem_append, List.mem_singleton]
  refine ⟨?_, ?_, fun id => ?_, fun slot _ id => ?_, ?_⟩
  · rw [h.mem_ids] at hid
    simp only [Mempool.push, List.map_append, List.map_cons, List.map_nil]
    exact List.nodup_append.mpr ⟨h.ids_nodup, List.nodup_singleton _, by simpa using hid⟩
  · simp only [Mempool.push, List.map_append, List.map_cons, List.map_nil]
    exact List.nodup_append.mpr ⟨h.slots_nodup, List.nodup_singleton _, by simpa using hslot⟩
  · simp only [hmem, or_and_right, exists_or, exists_eq_left, ← h.mem_ids]
    rw [Mempool.push, Finset.mem_insert, or_comm, eq_comm]
  · simp only [hmem, or_and_right, exists_or, exists_eq_left]
    rw [Mempool.push, HashMap.lookup_insert]
    split
    · rename_i heq
      subst heq
      have hnone : ¬ ∃ other ∈ p.transactions, other.slot = tx.slot ∧ other.id = id := by
        rintro ⟨other, hother, hs, _⟩
        exact hslot other hother hs
      simp only [hnone, false_or, true_and, Option.some.injEq]
    · rename_i hne
      have hother : ¬ (tx.slot = slot ∧ tx.id = id) := fun hs => hne hs.1.symm
      rw [h.lookup_slot slot hne]
      simp only [hother, or_false]
  · have htotal := h.totalBytes_eq
    simp only [Mempool.push, saturatingAdd, heldBytes_append, heldBytes_cons, heldBytes_nil]
    omega

end Indexed

/-! ## Transactions that leave -/

lemma sheds_removeAt (p : Mempool) (position : Fin p.transactions.length) :
    Sheds p (p.removeAt position).2 :=
  ⟨List.eraseIdx_sublist _ _, Finset.erase_subset _ _, rfl, rfl⟩

/-- A round of eviction removes one transaction of the lowest fee from a full pool. -/
lemma evictOne_eq_some {p q : Mempool} {size : ℕ} (h : p.evictOne size = some q) :
    p.Overfull size ∧ ∃ position ∈ p.cheapest, q = (p.removeAt position).2 := by
  unfold evictOne at h
  split at h
  next hfull =>
    obtain ⟨position, hposition, rfl⟩ := Option.map_eq_some_iff.mp h
    exact ⟨hfull, position, hposition, rfl⟩
  next => exact absurd h (by simp)

/-- Whatever every round of eviction keeps holds at its end. -/
lemma evict_induction {size : ℕ} {P : Mempool → Prop}
    (step : ∀ p, p.Overfull size → ∀ position ∈ p.cheapest, P p → P (p.removeAt position).2)
    {p : Mempool} (h : P p) : P (p.evict size) := by
  induction p using evict.induct size with
  | case1 p hend =>
    rw [evict, hend]
    exact h
  | case2 p q hround ih =>
    obtain ⟨hfull, position, hposition, rfl⟩ := evictOne_eq_some hround
    rw [evict, hround]
    exact ih (step p hfull position hposition h)

lemma sheds_evict (p : Mempool) (size : ℕ) : Sheds p (p.evict size) :=
  evict_induction (P := Sheds p)
    (fun q _ position _ hq => hq.trans (sheds_removeAt q position)) (Sheds.refl p)

lemma Indexed.evict {p : Mempool} {stale : Set (String × UInt64)} (h : p.Indexed stale)
    (size : ℕ) : (p.evict size).Indexed stale :=
  evict_induction (P := fun q => q.Indexed stale)
    (fun _ _ position _ hq => hq.removeAt position) h

/-- The loop ends where it has no further round. -/
lemma evictOne_evict (p : Mempool) (size : ℕ) : (p.evict size).evictOne size = none := by
  induction p using evict.induct size with
  | case1 p hend =>
    rw [evict, hend]
    exact hend
  | case2 p q hround ih =>
    rw [evict, hround]
    exact ih

/-- No sequence of rounds goes on for ever. -/
lemma evictOne_wellFounded (size : ℕ) (pools : ℕ → Mempool) :
    ∃ n, (pools n).evictOne size ≠ some (pools (n + 1)) := by
  by_contra! hrounds
  -- after n rounds, n transactions are gone
  have hlength : ∀ n, (pools n).transactions.length + n = (pools 0).transactions.length := by
    intro n
    induction n with
    | zero => rfl
    | succ n ih =>
      have := length_evictOne (hrounds n)
      omega
  have := hlength ((pools 0).transactions.length + 1)
  omega

/-- After the loop there is room for a transaction that fits an empty pool. -/
lemma not_overfull_evict {p : Mempool} {stale : Set (String × UInt64)} {size : ℕ}
    (h : p.Indexed stale) (hslots : 0 < p.maxTransactions.toNat)
    (hsize : size ≤ p.maxBytes.toNat) : ¬ (p.evict size).Overfull size := by
  have hsheds := sheds_evict p size
  have hend := evictOne_evict p size
  intro hfull
  rw [evictOne, if_pos hfull, Option.map_eq_none_iff, cheapest, List.argmin_eq_none,
    List.finRange_eq_nil_iff] at hend
  -- the pool is empty, so that neither limit is in the way
  have hnil := List.length_eq_zero_iff.mp hend
  have hbytes := (h.evict size).totalBytes_eq
  rw [hnil, heldBytes_nil] at hbytes
  rw [Overfull, hend, hbytes, hsheds.maxTransactions, hsheds.maxBytes, saturatingAdd] at hfull
  omega

/-- How `add` treats a sender and nonce that are taken: the index names a transaction that is
held, and that transaction stays or goes. -/
lemma replacePrevious_cases {p : Mempool} (h : p.Indexed ∅) (tx : Transaction) :
    (p.replacePrevious tx = (.ok (), p) ∧ ∀ other ∈ p.transactions, other.slot ≠ tx.slot) ∨
    (∃ e, p.replacePrevious tx = (.error e, p) ∧ e ≠ indexCorrupted) ∨
    ∃ position : Fin p.transactions.length, (p.transactions.get position).slot = tx.slot ∧
      p.replacePrevious tx = (.ok (),
        { p with totalBytes := p.totalBytes - (p.transactions.get position).jsonSize
                 ids := p.ids.erase (p.transactions.get position).id
                 transactions := p.transactions.eraseIdx position }) := by
  have hindex := h.lookup_slot tx.slot (Set.notMem_empty _)
  rw [replacePrevious]
  cases hlookup : p.senderNonce.lookup tx.slot with
  | none =>
    refine .inl ⟨rfl, fun other hother hslot => ?_⟩
    have hheld := (hindex other.id).mpr ⟨other, hother, hslot, rfl⟩
    rw [hlookup] at hheld
    exact absurd hheld (by simp)
  | some previousId =>
    obtain ⟨previous, hprevious, hslot, hid⟩ := (hindex previousId).mp hlookup
    cases hfind : p.transactions.findFinIdx? fun existing => existing.id == previousId with
    | none =>
      have := List.findFinIdx?_eq_none_iff.mp hfind previous hprevious
      exact absurd hid (by simpa using this)
    | some position =>
      obtain ⟨hposition, _⟩ := List.findFinIdx?_eq_some_iff.mp hfind
      have hposition : (p.transactions.get position).id = previousId := by simpa using hposition
      -- ids are unique, so that the position is that of the transaction the index names
      have hsame : p.transactions.get position = previous :=
        List.inj_on_of_nodup_map h.ids_nodup (List.get_mem _ _) hprevious
          (hposition.trans hid.symm)
      refine .inr ?_
      simp only [hfind]
      split
      · exact .inl ⟨_, rfl, by decide⟩
      · refine .inr ⟨position, hsame ▸ hslot, ?_⟩
        rw [hposition]
        rfl

/-- What `add` does to a pool whose fields agree: it fails and changes nothing, or it stores the
transaction after the evictions from the pool without the one that had the slot. -/
lemma add_base {p : Mempool} (h : p.Indexed ∅) (tx : Transaction) :
    (∃ e, p.add tx = (.error e, p) ∧ e ≠ indexCorrupted) ∨
    ∃ base, p.add tx = (.ok (), (base.evict tx.jsonSize).push tx) ∧ Sheds p base ∧
      base.Indexed {tx.slot} ∧
      base.transactions = p.transactions.filter (fun other => other.slot ≠ tx.slot) ∧
      tx.id ∉ p.ids ∧ tx.jsonSize ≤ p.maxBytes.toNat := by
  rw [add]
  split_ifs with hid hsize
  · exact .inl ⟨_, rfl, by decide⟩
  · exact .inl ⟨_, rfl, by decide⟩
  obtain ⟨hkeep, hslot⟩ | ⟨e, herror, he⟩ | ⟨position, hslot, hgone⟩ :=
    replacePrevious_cases h tx
  · refine .inr ⟨p, by rw [hkeep], Sheds.refl p, ?_, ?_, hid, not_lt.mp hsize⟩
    · exact ⟨h.ids_nodup, h.slots_nodup, h.mem_ids, fun slot _ => h.lookup_slot slot (by simp),
        h.totalBytes_eq⟩
    · exact (List.filter_eq_self.mpr fun other hother => decide_eq_true (hslot other hother)).symm
  · exact .inl ⟨e, by rw [herror], he⟩
  · -- the transaction with the slot goes, and its index entry is left behind
    refine .inr ⟨_, by rw [hgone], ?_, ?_, ?_, hid, not_lt.mp hsize⟩
    · exact ⟨List.eraseIdx_sublist _ _, Finset.erase_subset _ _, rfl, rfl⟩
    · refine h.remove (List.getElem_cons_eraseIdx_perm position.isLt) rfl rfl rfl
        fun slot hother => ⟨Set.notMem_empty _, ?_⟩
      have hne : slot ≠ p.transactions[position].slot := fun heq => hother (heq.trans hslot)
      exact (if_neg hne).symm
    · rw [← hslot]
      exact eraseIdx_eq_filter h.slots_nodup position

/-- What a stored transaction finds: room, and nobody with its id or its slot. -/
lemma add_cases {p : Mempool} (h : p.Indexed ∅) (hslots : 0 < p.maxTransactions.toNat)
    (tx : Transaction) :
    (∃ e, p.add tx = (.error e, p) ∧ e ≠ indexCorrupted) ∨
    ∃ q, p.add tx = (.ok (), q.push tx) ∧ Sheds p q ∧ q.Indexed {tx.slot} ∧ tx.id ∉ q.ids ∧
      (∀ other ∈ q.transactions, other.slot ≠ tx.slot) ∧ ¬ q.Overfull tx.jsonSize := by
  obtain hfail | ⟨base, hstored, hbase, hindexed, hqueue, hid, hsize⟩ := add_base h tx
  · exact .inl hfail
  have hsheds := sheds_evict base tx.jsonSize
  refine .inr ⟨_, hstored, hbase.trans hsheds, hindexed.evict _,
    fun hmem => hid ((hbase.trans hsheds).ids hmem), fun other hother => ?_, ?_⟩
  · have hmem := hsheds.transactions.subset hother
    rw [hqueue] at hmem
    exact of_decide_eq_true (List.mem_filter.mp hmem).2
  · refine not_overfull_evict hindexed ?_ ?_
    · rw [hbase.maxTransactions]
      exact hslots
    · rw [hbase.maxBytes]
      exact hsize

/-- A new transaction that fits an empty pool is stored after the evictions. -/
lemma add_of_fresh {p : Mempool} (h : p.Indexed ∅) {tx : Transaction} (hid : tx.id ∉ p.ids)
    (hslot : ∀ other ∈ p.transactions, other.slot ≠ tx.slot)
    (hsize : tx.jsonSize ≤ p.maxBytes.toNat) :
    p.add tx = (.ok (), (p.evict tx.jsonSize).push tx) := by
  have hfree : p.senderNonce.lookup tx.slot = none := by
    rw [Option.eq_none_iff_forall_ne_some]
    intro id hlookup
    obtain ⟨other, hother, heq, _⟩ := (h.lookup_slot tx.slot (Set.notMem_empty _) id).mp hlookup
    exact hslot other hother heq
  rw [add, if_neg hid, if_neg (not_lt.mpr hsize), replacePrevious, hfree]

/-- A new transaction for which there is room is stored, and nothing goes. -/
lemma add_of_room {p : Mempool} (h : p.Indexed ∅) {tx : Transaction} (hid : tx.id ∉ p.ids)
    (hslot : ∀ other ∈ p.transactions, other.slot ≠ tx.slot)
    (hlength : p.transactions.length < p.maxTransactions.toNat)
    (hbytes : p.totalBytes + tx.jsonSize ≤ p.maxBytes.toNat) :
    p.add tx = (.ok (), p.push tx) := by
  have hroom : ¬ p.Overfull tx.jsonSize := by
    rw [Overfull, saturatingAdd]
    omega
  have hend : p.evictOne tx.jsonSize = none := if_neg hroom
  rw [add_of_fresh h hid hslot (by omega), evict, hend]

/-! ## The invariant -/

/-- The fields beside the queue describe the queue, and the pool is within its limits. -/
structure Exact (p : Mempool) : Prop extends Indexed p ∅ where
  maxTransactions_pos : 0 < p.maxTransactions.toNat
  maxBytes_pos : 0 < p.maxBytes.toNat
  length_le : p.transactions.length ≤ p.maxTransactions.toNat
  totalBytes_le : p.totalBytes ≤ p.maxBytes.toNat

lemma exact_withLimits (maxTransactions maxBytes : UInt64) :
    (withLimits maxTransactions maxBytes).Exact where
  ids_nodup := List.nodup_nil
  slots_nodup := List.nodup_nil
  mem_ids id := by simp [withLimits]
  lookup_slot slot _ id := by simp [withLimits]
  totalBytes_eq := rfl
  maxTransactions_pos := by
    rw [withLimits, UInt64.toNat_max]
    exact lt_max_of_lt_right Nat.one_pos
  maxBytes_pos := by
    rw [withLimits, UInt64.toNat_max]
    exact lt_max_of_lt_right Nat.one_pos
  length_le := Nat.zero_le _
  totalBytes_le := Nat.zero_le _

/-- The byte count does not saturate when the transaction is stored next. Only a pool whose byte
limit is the largest `usize` asks for this, and there it says that what the pool holds fits the
address space; every other limit is below the value that saturation stops at. -/
def Fits (p : Mempool) (tx : Transaction) : Prop :=
  p.maxBytes.toNat = 2 ^ 64 - 1 → heldBytes p.transactions + tx.jsonSize < 2 ^ 64

namespace Exact
variable {p : Mempool}

/-- A transaction that is stored where there is room keeps the invariant. -/
lemma push (hpos : 0 < p.maxBytes.toNat) {tx : Transaction} (h : p.Indexed {tx.slot})
    (hid : tx.id ∉ p.ids) (hslot : ∀ other ∈ p.transactions, other.slot ≠ tx.slot)
    (hroom : ¬ p.Overfull tx.jsonSize) (hfits : p.Fits tx) : (p.push tx).Exact := by
  have hlimit := p.maxBytes.toNat_lt
  have htotal := h.totalBytes_eq
  have hle : p.transactions.length < p.maxTransactions.toNat ∧
      p.totalBytes + tx.jsonSize ≤ p.maxBytes.toNat := by
    simp only [Overfull, saturatingAdd, not_or, not_le, not_lt] at hroom
    unfold Fits at hfits
    omega
  refine ⟨h.push hid hslot (by omega), Nat.zero_lt_of_lt hle.1, hpos, ?_, ?_⟩
  · rw [Mempool.push, List.length_append]
    exact hle.1
  · exact (min_le_left _ _).trans hle.2

/-- `add` keeps the invariant. -/
lemma add (h : p.Exact) {tx : Transaction} (hfits : p.Fits tx) : (p.add tx).2.Exact := by
  obtain ⟨e, hfail, _⟩ | ⟨q, hstored, hsheds, hindexed, hid, hslot, hroom⟩ :=
    add_cases h.toIndexed h.maxTransactions_pos tx
  · rw [hfail]
    exact h
  · rw [hstored]
    refine push ?_ hindexed hid hslot hroom fun hmax => ?_
    · rw [hsheds.maxBytes]
      exact h.maxBytes_pos
    · have hheld := heldBytes_sublist hsheds.transactions
      have := hfits (hsheds.maxBytes ▸ hmax)
      omega

/-- `remove_at` keeps the invariant. -/
lemma removeAt (h : p.Exact) (position : Fin p.transactions.length) :
    (p.removeAt position).2.Exact where
  toIndexed := h.toIndexed.removeAt position
  maxTransactions_pos := h.maxTransactions_pos
  maxBytes_pos := h.maxBytes_pos
  length_le := (sheds_removeAt p position).transactions.length_le.trans h.length_le
  totalBytes_le := (Nat.sub_le _ _).trans h.totalBytes_le

/-- The loop of `drain` keeps the invariant. -/
lemma takeFirst (count : ℕ) : ∀ {p : Mempool}, p.Exact →
    (takeFirst count p).2.Exact ∧ (takeFirst count p).2.maxTransactions = p.maxTransactions ∧
      (takeFirst count p).2.maxBytes = p.maxBytes := by
  induction count with
  | zero => exact fun h => ⟨h, rfl, rfl⟩
  | succ count ih =>
    intro p h
    rw [Mempool.takeFirst]
    split
    · exact ih (h.removeAt _)
    · exact ⟨h, rfl, rfl⟩

/-- `drain` keeps the invariant. -/
lemma drain (h : p.Exact) (maxCount : ℕ) :
    (p.drain maxCount).2.Exact ∧ (p.drain maxCount).2.maxTransactions = p.maxTransactions ∧
      (p.drain maxCount).2.maxBytes = p.maxBytes := by
  have hsort := List.perm_insertionSort DrainOrder p.transactions
  exact takeFirst maxCount ⟨h.toIndexed.perm hsort, h.maxTransactions_pos, h.maxBytes_pos,
    hsort.length_eq.trans_le h.length_le, h.totalBytes_le⟩

end Exact

/-- The queue with the transactions `todo` behind it would still be that of a pool. -/
structure Appendable (p : Mempool) (todo : List Transaction) : Prop where
  ids : ((p.transactions ++ todo).map Transaction.id).Nodup
  slots : ((p.transactions ++ todo).map Transaction.slot).Nodup
  length : (p.transactions ++ todo).length ≤ p.maxTransactions.toNat
  bytes : heldBytes (p.transactions ++ todo) ≤ p.maxBytes.toNat

/-- The first of several transactions is stored, nothing goes, and there is room for the others. -/
lemma Exact.add_next {p : Mempool} (h : p.Exact) {tx : Transaction} {rest : List Transaction}
    (hroom : p.Appendable (tx :: rest)) :
    p.add tx = (.ok (), p.push tx) ∧ (p.push tx).Exact ∧ (p.push tx).Appendable rest := by
  obtain ⟨hids, hslots, hlength, hbytes⟩ := hroom
  have hqueue : (p.push tx).transactions ++ rest = p.transactions ++ tx :: rest := by
    rw [Mempool.push, List.append_assoc, List.singleton_append]
  have hid : tx.id ∉ p.ids := by
    rw [h.mem_ids]
    rintro ⟨other, hother, heq⟩
    rw [List.map_append, List.nodup_append] at hids
    exact hids.2.2 _ (List.mem_map_of_mem hother) _ (by simp) heq
  have hslot : ∀ other ∈ p.transactions, other.slot ≠ tx.slot := by
    intro other hother
    rw [List.map_append, List.nodup_append] at hslots
    exact hslots.2.2 _ (List.mem_map_of_mem hother) _ (by simp)
  have hlimit := p.maxBytes.toNat_lt
  have htotal := h.totalBytes_eq
  have hfree : p.transactions.length < p.maxTransactions.toNat ∧
      p.totalBytes + tx.jsonSize ≤ p.maxBytes.toNat := by
    rw [List.length_append, List.length_cons] at hlength
    rw [heldBytes_append, heldBytes_cons] at hbytes
    omega
  have hadd := add_of_room h.toIndexed hid hslot hfree.1 hfree.2
  have hstored : (p.add tx).2.Exact := h.add fun _ => by omega
  rw [hadd] at hstored
  exact ⟨hadd, hstored, hqueue ▸ hids, hqueue ▸ hslots, hqueue ▸ hlength, hqueue ▸ hbytes⟩

/-- Transactions with new ids and slots, for all of which there is room, are stored one after the
other. -/
lemma foldl_add (todo : List Transaction) : ∀ {p : Mempool}, p.Exact → p.Appendable todo →
    ∃ q, todo.foldl (fun q tx => (q.add tx).2) p = q ∧ q.Exact ∧
      q.transactions = p.transactions ++ todo ∧ q.maxTransactions = p.maxTransactions ∧
      q.maxBytes = p.maxBytes := by
  induction todo with
  | nil => exact fun {p} h _ => ⟨p, rfl, h, (List.append_nil _).symm, rfl, rfl⟩
  | cons tx rest ih =>
    intro p h hroom
    obtain ⟨hadd, hstored, hrest⟩ := h.add_next hroom
    obtain ⟨q, hq, hexact, hqueue, hlimits⟩ := ih hstored hrest
    rw [List.foldl_cons, hadd]
    refine ⟨q, hq, hexact, ?_, hlimits⟩
    rw [hqueue, Mempool.push, List.append_assoc, List.singleton_append]

/-- `retain_valid` keeps the invariant: what it adds again was within the limits before. -/
lemma Exact.retainValid {p : Mempool} (h : p.Exact) (valid : ℕ → Transaction → Bool) :
    (p.retainValid valid).Exact ∧ (p.retainValid valid).transactions = p.retained valid ∧
      (p.retainValid valid).maxTransactions = p.maxTransactions ∧
      (p.retainValid valid).maxBytes = p.maxBytes := by
  have hkept := p.retained_sublist valid
  have hstart : withLimits p.maxTransactions p.maxBytes
      = { p with transactions := [], ids := ∅, senderNonce := ∅, totalBytes := 0 } := by
    rw [withLimits, max_one_of_pos h.maxTransactions_pos, max_one_of_pos h.maxBytes_pos]
  have hexact := exact_withLimits p.maxTransactions p.maxBytes
  rw [hstart] at hexact
  obtain ⟨q, hq, hall⟩ := foldl_add (p.retained valid) hexact
    ⟨(hkept.map _).nodup h.ids_nodup, (hkept.map _).nodup h.slots_nodup,
      hkept.length_le.trans h.length_le,
      (heldBytes_sublist hkept).trans (h.totalBytes_eq.ge.trans h.totalBytes_le)⟩
  rw [Mempool.retainValid, hstart, hq]
  exact hall

/-! ## Runs -/

/-- The byte count does not saturate in the call. -/
def FitsCall (p : Mempool) : Call → Prop
  | .add tx => p.Fits tx
  | _ => True

/-- The byte count does not saturate in any call of a run. -/
def AllFit : Mempool → List Call → Prop
  | _, [] => True
  | p, c :: rest => p.FitsCall c ∧ AllFit (p.call c) rest

/-- A call keeps the invariant and the limits. -/
lemma Exact.call {p : Mempool} (h : p.Exact) {c : Call} (hfits : p.FitsCall c) :
    (p.call c).Exact ∧ (p.call c).maxTransactions = p.maxTransactions ∧
      (p.call c).maxBytes = p.maxBytes := by
  cases c with
  | add tx =>
    refine ⟨h.add hfits, ?_⟩
    rw [Mempool.call]
    obtain ⟨e, hfail, _⟩ | ⟨q, hstored, hsheds, _⟩ :=
      add_cases h.toIndexed h.maxTransactions_pos tx
    · rw [hfail]
      exact ⟨rfl, rfl⟩
    · rw [hstored]
      exact ⟨hsheds.maxTransactions, hsheds.maxBytes⟩
  | drain maxCount => exact h.drain maxCount
  | retainValid valid =>
    obtain ⟨hexact, _, hlimits⟩ := h.retainValid valid
    exact ⟨hexact, hlimits⟩

lemma Exact.run (calls : List Call) : ∀ {p : Mempool}, p.Exact → AllFit p calls →
    (p.run calls).Exact ∧ (p.run calls).maxTransactions = p.maxTransactions ∧
      (p.run calls).maxBytes = p.maxBytes := by
  induction calls with
  | nil => exact fun h _ => ⟨h, rfl, rfl⟩
  | cons c rest ih =>
    intro p h hfits
    obtain ⟨hcall, hcount, hbytes⟩ := h.call hfits.1
    obtain ⟨hrest, hcount', hbytes'⟩ := ih hcall hfits.2
    exact ⟨hrest, hcount'.trans hcount, hbytes'.trans hbytes⟩

/-- Below the largest byte limit, no run saturates the count. -/
lemma allFit_of_lt (calls : List Call) : ∀ {p : Mempool}, p.Exact →
    p.maxBytes.toNat < 2 ^ 64 - 1 → AllFit p calls := by
  induction calls with
  | nil => exact fun _ _ => trivial
  | cons c rest ih =>
    intro p h hlimit
    have hfits : p.FitsCall c := by
      cases c with
      | add tx => exact fun hmax => absurd hmax hlimit.ne
      | drain _ => trivial
      | retainValid _ => trivial
    obtain ⟨hcall, _, hbytes⟩ := h.call hfits
    exact ⟨hfits, ih hcall (hbytes ▸ hlimit)⟩

/-- **The fields of the pool agree.** After any calls on a new pool its ids are those of the held
transactions, each of which has its own, its index maps each held sender and nonce to the id of the
one transaction that has them, its byte count is the sum of their JSON sizes, and both limits are
kept. An `add` that fails changes nothing and never finds the index corrupted, and no eviction goes
on for ever. -/
theorem fields_agree (maxTransactions maxBytes : UInt64) (calls : List Call)
    (hfits : AllFit (withLimits maxTransactions maxBytes) calls) (pool : Mempool)
    (hpool : pool = (withLimits maxTransactions maxBytes).run calls) :
    pool.Exact ∧ pool.maxTransactions = max maxTransactions 1 ∧ pool.maxBytes = max maxBytes 1 ∧
    (∀ tx e, (pool.add tx).1 = .error e → (pool.add tx).2 = pool ∧ e ≠ indexCorrupted) ∧
    ∀ (size : ℕ) (pools : ℕ → Mempool), ∃ n, (pools n).evictOne size ≠ some (pools (n + 1)) := by
  obtain ⟨hexact, hcount, hbytes⟩ :=
    (exact_withLimits maxTransactions maxBytes).run calls hfits
  rw [← hpool] at hexact hcount hbytes
  refine ⟨hexact, hcount, hbytes, fun tx e hadd => ?_, evictOne_wellFounded⟩
  obtain ⟨e', hfail, he⟩ | ⟨q, hstored, _⟩ :=
    add_cases hexact.toIndexed hexact.maxTransactions_pos tx
  · rw [hfail] at hadd ⊢
    exact ⟨rfl, by rwa [← Except.error.inj hadd]⟩
  · rw [hstored] at hadd
    exact absurd hadd (by simp)

end

section
attribute [local instance] Devnet.primitives

/-- Two transfers come in, the first goes into a block, and the others are looked at again. -/
def devnetCalls : List Call :=
  [.add Devnet.transfer, .add Devnet.overdraft, .drain 1, .retainValid fun asked _ => asked < 5]

/-- A pool with the default limits. -/
theorem fields_agree_default :
    AllFit Mempool.default devnetCalls ∧ (Mempool.default.run devnetCalls).Exact := by
  have hfits : AllFit Mempool.default devnetCalls :=
    allFit_of_lt devnetCalls (exact_withLimits _ _) (by decide)
  exact ⟨hfits, (fields_agree 10000 (16 * 1024 * 1024) devnetCalls hfits _ rfl).1⟩

end

end Mempool

end IeumChain
