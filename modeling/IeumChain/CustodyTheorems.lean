import IeumChain.DrainTheorems
import IeumChain.Proposer

/-!
# What the pool owes

A transaction that `drain` takes out of the pool is owed until a call on the pool excuses it.

* `Excuses` lists the excuses: another transaction has its sender and nonce, there is no room, or
  the finalised chain refuses it. Each is about a single call and the pool before it.
* An `add` that leaves a transaction outside always has one of the first two
  (`displaces_of_gone`), a purge the third (`heldIn_install`), and a `drain` returns whatever it
  does not leave in the pool (`heldIn_drain`).
* `owed` collects what a sequence of calls took out and did not excuse.
-/

namespace IeumChain

open Lib

variable [Primitives]

/-- The list has a transaction with the id: pools and nodes know a transaction by its id. -/
def Transaction.HeldIn (t : Transaction) (l : List Transaction) : Prop := ∃ tx ∈ l, tx.id = t.id

/-- The chain refuses every transaction with the id. -/
def Blockchain.Outdates (chain : Blockchain) (t : Transaction) : Prop :=
  ∀ tx : Transaction, tx.id = t.id → chain.admits tx = false

namespace Transaction
variable {t tx : Transaction} {l l' : List Transaction}

lemma heldIn_of_mem (h : t ∈ l) : t.HeldIn l := ⟨t, h, rfl⟩

lemma HeldIn.congr (h : t.HeldIn l) (hid : t.id = tx.id) : tx.HeldIn l := by
  obtain ⟨own, hown, hownid⟩ := h
  exact ⟨own, hown, hownid.trans hid⟩

lemma HeldIn.mono (h : t.HeldIn l) (hsub : l ⊆ l') : t.HeldIn l' := by
  obtain ⟨tx, htx, hid⟩ := h
  exact ⟨tx, hsub htx, hid⟩

lemma heldIn_cons : t.HeldIn (tx :: l) ↔ tx.id = t.id ∨ t.HeldIn l := by
  simp only [HeldIn, List.mem_cons, or_and_right, exists_or, exists_eq_left]

lemma heldIn_append : t.HeldIn (l ++ l') ↔ t.HeldIn l ∨ t.HeldIn l' := by
  simp only [HeldIn, List.mem_append, or_and_right, exists_or]

end Transaction

namespace Mempool
variable {p : Mempool} {t tx : Transaction}

/-! ## Why `add` leaves a transaction outside -/

/-- Of the held transactions and the new one, another has the sender and nonce of `t`. -/
def Contested (p : Mempool) (tx t : Transaction) : Prop :=
  ∃ own ∈ tx :: p.transactions, own.id = t.id ∧
    ∃ rival ∈ tx :: p.transactions, rival.id ≠ t.id ∧ rival.slot = own.slot

/-- The new transaction is too large for the pool, or does not fit beside those it holds. -/
def NoRoom (p : Mempool) (tx : Transaction) : Prop :=
  p.maxBytes.toNat < tx.jsonSize ∨ (p.replacePrevious tx).2.Overfull tx.jsonSize

/-- After `add` the pool does not hold `t`, and for one of the two reasons. -/
structure Displaces (p : Mempool) (tx t : Transaction) : Prop where
  gone : ¬ t.HeldIn (p.add tx).2.transactions
  reason : p.Contested tx t ∨ p.NoRoom tx

lemma heldIn_iff_mem_ids {stale : Set (String × UInt64)} (h : p.Indexed stale) :
    t.HeldIn p.transactions ↔ t.id ∈ p.ids := (h.mem_ids t.id).symm

/-- Where there is room nothing is evicted. -/
lemma evict_of_room {size : ℕ} (h : ¬ p.Overfull size) : p.evict size = p := by
  have hend : p.evictOne size = none := if_neg h
  rw [evict, hend]

/-- A free sender and nonce: nothing makes way. -/
lemma replacePrevious_of_free (h : p.Indexed ∅)
    (hfree : ∀ other ∈ p.transactions, other.slot ≠ tx.slot) :
    p.replacePrevious tx = (.ok (), p) := by
  have hlookup : p.senderNonce.lookup tx.slot = none := by
    rw [Option.eq_none_iff_forall_ne_some]
    intro id hlookup
    obtain ⟨other, hother, hslot, _⟩ := (h.lookup_slot tx.slot (Set.notMem_empty _) id).mp hlookup
    exact hfree other hother hslot
  rw [replacePrevious, hlookup]

/-- Making way for a transaction does not touch one with another sender or nonce. -/
lemma heldIn_replacePrevious (h : p.Indexed ∅) {own : Transaction} (hown : own ∈ p.transactions)
    (hslot : own.slot ≠ tx.slot) : own ∈ (p.replacePrevious tx).2.transactions := by
  obtain ⟨hkeep, _⟩ | ⟨e, hfail, _⟩ | ⟨position, htaken, hgone⟩ := replacePrevious_cases h tx
  · rw [hkeep]
    exact hown
  · rw [hfail]
    exact hown
  · rw [hgone]
    refine List.mem_eraseIdx_iff_getElem?.mpr ?_
    obtain ⟨i, hi⟩ := List.mem_iff_getElem?.mp hown
    refine ⟨i, fun heq => hslot ?_, hi⟩
    rw [heq, List.getElem?_eq_getElem position.isLt] at hi
    rw [← htaken]
    exact congrArg Transaction.slot (Option.some.inj hi).symm

/-- A transaction that `add` leaves outside, be it the new one or one that was held, has a
reason. -/
lemma displaces_of_gone (h : p.Indexed ∅) (hbefore : t.HeldIn (tx :: p.transactions))
    (hgone : ¬ t.HeldIn (p.add tx).2.transactions) : p.Displaces tx t := by
  refine ⟨hgone, ?_⟩
  by_contra! hno
  obtain ⟨hcontest, hroom⟩ := hno
  obtain ⟨hsize, hfull⟩ := not_or.mp hroom
  apply hgone
  by_cases hid : tx.id ∈ p.ids
  · -- the new one is held already
    rw [add, if_pos hid]
    rcases Transaction.heldIn_cons.mp hbefore with heq | hheld
    · exact (heldIn_iff_mem_ids h).mpr (heq ▸ hid)
    · exact hheld
  rw [add, if_neg hid, if_neg hsize]
  -- nothing is evicted, so that only the sender and nonce can stand in the way
  rcases Transaction.heldIn_cons.mp hbefore with heq | hheld
  · have hfree : ∀ other ∈ p.transactions, other.slot ≠ tx.slot := by
      intro other hother hslot
      refine hcontest ⟨tx, List.mem_cons_self, heq, other, List.mem_cons_of_mem _ hother, ?_, hslot⟩
      intro hsame
      exact hid ((h.mem_ids _).mpr ⟨other, hother, hsame.trans heq.symm⟩)
    rw [replacePrevious_of_free h hfree]
    exact ⟨tx, List.mem_append_right _ (List.mem_singleton_self tx), heq⟩
  · obtain ⟨own, hown, hownid⟩ := hheld
    have hslot : own.slot ≠ tx.slot := by
      intro hsame
      refine hcontest ⟨own, List.mem_cons_of_mem _ hown, hownid, tx, List.mem_cons_self, ?_,
        hsame.symm⟩
      intro heq
      exact hid ((h.mem_ids _).mpr ⟨own, hown, hownid.trans heq.symm⟩)
    have hstays := heldIn_replacePrevious h hown hslot
    rcases hreplace : p.replacePrevious tx with ⟨_ | ⟨⟩, q⟩ <;> rw [hreplace] at hstays hfull
    · exact ⟨own, hstays, hownid⟩
    · dsimp only
      rw [evict_of_room hfull]
      exact ⟨own, List.mem_append_left _ hstays, hownid⟩

/-! ## What the other calls take out -/

/-- `drain` returns what it does not leave in the pool. -/
lemma heldIn_drain (h : t.HeldIn p.transactions) (limit : ℕ) :
    t.HeldIn (p.drain limit).1 ∨ t.HeldIn (p.drain limit).2.transactions := by
  obtain ⟨htaken, hleft⟩ := p.drain_eq limit
  rw [htaken, hleft, ← Transaction.heldIn_append, List.take_append_drop]
  exact h.mono p.ranked_perm.symm.subset

omit [Primitives] in
/-- A predicate without a state keeps what it holds of. -/
lemma retained_eq_filter (p : Mempool) (valid : Transaction → Bool) :
    p.retained (fun _ tx => valid tx) = p.transactions.filter valid := by
  have hfilter := List.filter_map (f := Prod.fst) (p := valid) (l := p.transactions.zipIdx)
  rw [List.zipIdx_map_fst] at hfilter
  exact hfilter.symm

/-- The purge keeps what the chain admits. -/
lemma heldIn_install (hexact : p.Exact) (h : t.HeldIn p.transactions) (chain : Blockchain) :
    t.HeldIn (p.call (PoolCall.install chain).toCall).transactions ∨
      ∃ tx ∈ p.transactions, tx.id = t.id ∧ chain.admits tx = false := by
  obtain ⟨tx, htx, hid⟩ := h
  cases hadmits : chain.admits tx with
  | false => exact .inr ⟨tx, htx, hid, hadmits⟩
  | true =>
    refine .inl ⟨tx, ?_, hid⟩
    show tx ∈ (p.retainValid fun _ tx => chain.admits tx).transactions
    rw [(hexact.retainValid _).2.1, retained_eq_filter]
    exact List.mem_filter.mpr ⟨htx, hadmits⟩

end Mempool

/-! ## Accounts -/

/-- The transactions a call takes out of the pool for its caller. -/
def PoolCall.takes (p : Mempool) : PoolCall → List Transaction
  | .drain limit => (p.drain limit).1
  | _ => []

/-- What excuses the absence of `t` after a call: a full pool or another transaction with its
sender and nonce, when it was held or is given back, and a finalised chain that refuses it. -/
def PoolCall.Excuses (p : Mempool) (t : Transaction) : PoolCall → Prop
  | .add tx => t.HeldIn p.transactions ∧ p.Displaces tx t
  | .restore tx => t.HeldIn (tx :: p.transactions) ∧ p.Displaces tx t
  | .drain _ => False
  | .install chain =>
    (∃ tx ∈ p.transactions, tx.id = t.id ∧ chain.admits tx = false) ∨ chain.Outdates t

/-- The pool and the transactions owed, after one more call. -/
def PoolCall.track (account : Mempool × Set Transaction) (c : PoolCall) :
    Mempool × Set Transaction :=
  (account.1.call c.toCall,
    {t | t ∈ account.2 ∧ ¬ c.Excuses account.1 t ∨ t ∈ c.takes account.1})

/-- What the calls took out of the pool and did not excuse since. -/
def PoolCall.owed (p : Mempool) (calls : List PoolCall) : Set Transaction :=
  (calls.foldl track (p, ∅)).2

namespace PoolCall
variable {p : Mempool}

lemma foldl_track_fst (calls : List PoolCall) : ∀ account : Mempool × Set Transaction,
    (calls.foldl track account).1 = account.1.run (calls.map toCall) := by
  induction calls with
  | nil => exact fun account => rfl
  | cons c rest ih => exact fun account => ih (track account c)

/-- One more call. -/
lemma mem_owed_append {calls : List PoolCall} {c : PoolCall} {t : Transaction} :
    t ∈ owed p (calls ++ [c]) ↔
      (t ∈ owed p calls ∧ ¬ c.Excuses (p.run (calls.map toCall)) t) ∨
        t ∈ c.takes (p.run (calls.map toCall)) := by
  rw [owed, List.foldl_append, ← foldl_track_fst calls (p, ∅)]
  rfl

/-- The pool after calls on the default one is exact. -/
lemma exact_run (calls : List Mempool.Call) : (Mempool.default.run calls).Exact := by
  have hexact : Mempool.default.Exact := Mempool.exact_withLimits _ _
  exact (hexact.run calls (Mempool.allFit_of_lt calls hexact (by decide))).1

end PoolCall

end IeumChain
