import IeumChain.RebuildTheorems

/-!
# Nonces and replay protection

The nonce map against the whole history: for every sender, the nonces of its transactions in
chain order are `0, 1, 2, …` up to its next nonce (`NoncesCount`). One transaction extends the
history by one entry and the map by one step; blocks and runs follow by induction.
-/

namespace IeumChain

open Lib

/-- The transactions of one sender, in order. -/
def sentBy (address : String) (history : List Transaction) : List Transaction :=
  history.filter fun tx => tx.sender = address

/-- Every sender's nonces count up from 0 to its next nonce. -/
def NoncesCount (nonces : Nonces) (history : List Transaction) : Prop :=
  ∀ address, (sentBy address history).map (fun tx => tx.nonce.toNat)
    = List.range (nonceIn nonces address).toNat

lemma noncesCount_nil : NoncesCount ∅ [] := fun _ => rfl

lemma nonceIn_insert (nonces : Nonces) (sender address : String) (next : UInt64) :
    nonceIn (nonces.insert sender next) address
      = if address = sender then next else nonceIn nonces address := by
  unfold nonceIn
  rw [HashMap.lookup_insert]
  split <;> rfl

section
variable [Primitives]

/-- One transaction takes its sender's next nonce. -/
lemma NoncesCount.applyTransaction {chainId : UInt64} {producer : String} {tx : Transaction}
    {state state' : Balances × Nonces} {history : List Transaction}
    (hcount : NoncesCount state.2 history)
    (h : applyTransaction chainId producer state tx = .ok state') :
    NoncesCount state'.2 (history ++ [tx]) := by
  obtain ⟨_, _, hnonce, _, next, hnext, hnonces⟩ := applyTransaction_eq_ok h
  have hnext' : next.toNat = (nonceIn state.2 tx.sender).toNat + 1 := addOne_eq_ok.mp hnext
  intro address
  rw [hnonces, nonceIn_insert, sentBy, List.filter_append, List.map_append]
  have hold := hcount address
  rw [sentBy] at hold
  rw [hold]
  by_cases haddress : address = tx.sender
  · subst haddress
    rw [if_pos rfl, hnext', List.range_succ]
    simp [hnonce]
  · have hother : ¬ tx.sender = address := fun heq => haddress heq.symm
    rw [if_neg haddress]
    simp [hother]

lemma NoncesCount.applyTransactions {chainId : UInt64} {producer : String}
    {txs : List Transaction} :
    ∀ {state state' : Balances × Nonces} {history : List Transaction},
      NoncesCount state.2 history → applyTransactions chainId txs producer state = .ok state' →
      NoncesCount state'.2 (history ++ txs) := by
  induction txs with
  | nil =>
    intro state state' history hcount h
    cases h
    rwa [List.append_nil]
  | cons tx txs ih =>
    intro state state' history hcount h
    obtain ⟨mid, hmid, hrest⟩ := foldlM_cons_eq_ok.mp h
    have hall := ih (hcount.applyTransaction hmid) hrest
    rwa [List.append_assoc] at hall

namespace Blockchain

/-- All transactions of the ledger, in chain order. -/
def history (c : Blockchain) : List Transaction := c.blocks.flatMap Block.transactions

lemma noncesCount_applyBlock {c c' : Blockchain} {block : Block}
    (hcount : NoncesCount c.nextNonces c.history) (h : c.applyBlock block = .ok c') :
    NoncesCount c'.nextNonces c'.history := by
  obtain ⟨_, state, _, _, hstate, rfl⟩ := applyBlock_eq_ok.mp h
  obtain ⟨_, htxs, _⟩ := executeBlock_eq_ok.mp hstate
  have hblock := NoncesCount.applyTransactions hcount htxs
  simpa [history, withState] using hblock

/-- Along every run the nonce map counts the transactions of the chain. -/
lemma noncesCount_applyBlocks {chainId : UInt64} {initial : List (String × U128)}
    {blocks : List Block} {c : Blockchain}
    (h : (withChainId chainId initial).applyBlocks blocks = .ok c) :
    NoncesCount c.nextNonces c.history :=
  foldlM_induction (fun c => NoncesCount c.nextNonces c.history)
    (fun _ _ _ hcount hstep => noncesCount_applyBlock hcount hstep) blocks _ c noncesCount_nil h

end Blockchain

end

namespace NoncesCount
variable {nonces : Nonces} {history : List Transaction}

lemma length_eq (h : NoncesCount nonces history) (address : String) :
    (nonceIn nonces address).toNat = (sentBy address history).length := by
  have hlength := congrArg List.length (h address)
  rw [List.length_map, List.length_range] at hlength
  exact hlength.symm

lemma nonce_eq (h : NoncesCount nonces history) {address : String} {k : ℕ} {tx : Transaction}
    (hk : (sentBy address history)[k]? = some tx) : tx.nonce.toNat = k := by
  have hget := congrArg (fun l => l[k]?) (h address)
  simp only [List.getElem?_map, hk, Option.map_some] at hget
  rw [eq_comm, List.getElem?_eq_some_iff] at hget
  obtain ⟨_, hval⟩ := hget
  rw [List.getElem_range] at hval
  exact hval.symm

/-- No two places of the history hold the same sender and nonce. -/
lemma nodup (h : NoncesCount nonces history) :
    (history.map fun tx => (tx.sender, tx.nonce)).Nodup := by
  rw [List.nodup_iff_pairwise_ne, List.pairwise_map]
  -- a repeated pair would repeat within the list of its sender, which is a range
  have hsender : ∀ address,
      (sentBy address history).Pairwise fun tx tx' => tx.nonce ≠ tx'.nonce := by
    intro address
    have hrange : ((sentBy address history).map fun tx => tx.nonce.toNat).Nodup := by
      rw [h address]
      exact List.nodup_range
    rw [List.nodup_iff_pairwise_ne, List.pairwise_map] at hrange
    exact hrange.imp fun hne heq => hne (congrArg UInt64.toNat heq)
  clear h
  induction history with
  | nil => exact List.Pairwise.nil
  | cons tx rest ih =>
    refine List.Pairwise.cons ?_ (ih fun address => ?_)
    · intro tx' htx' heq
      obtain ⟨hs, hn⟩ := Prod.mk.inj heq
      have hpair := hsender tx.sender
      rw [sentBy, List.filter_cons_of_pos (by simp), List.pairwise_cons] at hpair
      exact hpair.1 tx' (List.mem_filter.mpr ⟨htx', by simp [hs]⟩) hn
    · have hpair := hsender address
      rw [sentBy, List.filter_cons] at hpair
      split at hpair
      · exact (List.pairwise_cons.mp hpair).2
      · exact hpair

end NoncesCount

/-- **Replay protection and nonce accounting.** In every ledger grown from `with_chain_id` the
next nonce of an address is the number of its transactions, the `k`-th of them has nonce `k`, no
sender and nonce occur twice, and a block with a committed transaction is refused. -/
theorem Blockchain.nonces_count [Primitives] (chainId : UInt64) (initial : List (String × U128))
    (blocks : List Block) (c : Blockchain)
    (h : (withChainId chainId initial).applyBlocks blocks = .ok c) :
    (∀ address, (c.nextNonce address).toNat = (sentBy address c.history).length) ∧
    (∀ (address : String) (k : ℕ) (tx : Transaction),
      (sentBy address c.history)[k]? = some tx → tx.nonce.toNat = k) ∧
    (c.history.map fun tx => (tx.sender, tx.nonce)).Nodup ∧
    (∀ tx ∈ c.history, ∀ block : Block, tx ∈ block.transactions →
      ∃ e, c.applyBlock block = .error e) := by
  have hcount := noncesCount_applyBlocks h
  refine ⟨hcount.length_eq, fun address k tx hk => hcount.nonce_eq hk, hcount.nodup, ?_⟩
  intro tx htx block hblock
  cases happly : c.applyBlock block with
  | error e => exact ⟨e, rfl⟩
  | ok c' =>
    exfalso
    -- the transaction would stand in the new history twice
    have hcount' := noncesCount_applyBlock hcount happly
    obtain ⟨_, state, _, _, _, rfl⟩ := applyBlock_eq_ok.mp happly
    have hnodup := hcount'.nodup
    simp only [history, withState_blocks, List.flatMap_append, List.flatMap_cons,
      List.flatMap_nil, List.append_nil, List.map_append] at hnodup
    have hdisjoint := List.disjoint_of_nodup_append hnodup
    exact hdisjoint (List.mem_map_of_mem htx) (List.mem_map_of_mem hblock)

section
attribute [local instance] Devnet.primitives

/-- After the block with one transfer its sender is at nonce 1, and the transfer is refused from
then on. -/
theorem Blockchain.nonces_count_paid :
    ∃ c, (withChainId 1 [(Devnet.validator, 1000)]).applyBlocks [Devnet.paid] = .ok c ∧
      c.history = [Devnet.transfer] ∧ (c.nextNonce Devnet.validator).toNat = 1 ∧
      ∀ block : Block, Devnet.transfer ∈ block.transactions →
        ∃ e, c.applyBlock block = .error e := by
  obtain ⟨c, hc, _⟩ := Devnet.paid_applies
  have hreplay : (withChainId 1 [(Devnet.validator, 1000)]).applyBlocks [Devnet.paid] = .ok c :=
    foldlM_cons_eq_ok.mpr ⟨c, hc, rfl⟩
  obtain ⟨hcount, _, _, hreplayed⟩ :=
    nonces_count 1 [(Devnet.validator, 1000)] [Devnet.paid] c hreplay
  have hhistory : c.history = [Devnet.transfer] := by
    obtain ⟨_, _, _, _, _, rfl⟩ := applyBlock_eq_ok.mp hc
    rfl
  refine ⟨c, hreplay, hhistory, ?_, hreplayed Devnet.transfer (by rw [hhistory]; simp)⟩
  rw [hcount, hhistory]
  simp [sentBy, Devnet.transfer]

end

end IeumChain
