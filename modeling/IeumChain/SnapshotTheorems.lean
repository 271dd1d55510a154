import IeumChain.Storage

/-!
# Snapshots

A chain restored from a snapshot holds one block, an anchor with the height and the hash of the
tip, and none of the history. The two chains are therefore never equal, but no block tells them
apart:

* `Alike` relates chains with the same chain id, the same height and hash at the tip and the same
  maps;
* an offered block is taken by both or by neither (`Alike.applyBlock_eq_ok`), and related chains
  stay related (`Alike.offerBlocks`);
* `snapshot_bisimulation`: so every chain agrees for ever with the chain its snapshot restores to.
-/

namespace IeumChain

open Lib

namespace Blockchain

/-- A snapshot at a digest becomes a chain of one block. -/
lemma fromSnapshotWithEvents_of_hex {hash : String} (htrim : trimStart0x hash = hash)
    (hlength : textLen hash = 64) (chainId : UInt64) (commitment : String) (height : UInt64)
    (balances : Balances) (nonces : Nonces) (executed : Finset String) :
    ∃ anchor : Block, anchor.height = height ∧ anchor.hash = hash ∧ anchor.timestamp = 0 ∧
      fromSnapshotWithEvents chainId commitment height hash balances nonces executed
        = .ok ⟨chainId, commitment, [anchor], balances, balances, nonces, executed⟩ := by
  simp only [fromSnapshotWithEvents, bind_eq_ok, ensure_eq_ok, htrim]
  exact ⟨_, rfl, rfl, rfl, (), hlength, rfl⟩

/-- A chain made from a snapshot holds an anchor with the time 0. -/
lemma fromSnapshotWithEvents_eq_ok {chainId : UInt64} {commitment hash : String}
    {height : UInt64} {balances : Balances} {nonces : Nonces} {executed : Finset String}
    {chain : Blockchain}
    (h : fromSnapshotWithEvents chainId commitment height hash balances nonces executed
      = .ok chain) :
    textLen (trimStart0x hash) = 64 ∧ chain.state = ⟨balances, nonces, executed⟩ ∧
      ∃ anchor, chain.blocks = [anchor] ∧ anchor.height = height ∧
        anchor.hash = trimStart0x hash ∧ anchor.timestamp = 0 := by
  simp only [fromSnapshotWithEvents, bind_eq_ok, ensure_eq_ok, pure_eq_ok] at h
  obtain ⟨_, hlength, rfl⟩ := h
  exact ⟨hlength, rfl, _, rfl, rfl, rfl, rfl⟩

/-! ## The relation -/

/-- What the next block links to. -/
def tip (c : Blockchain) : Option (UInt64 × String) :=
  c.blocks.getLast?.map fun block => (block.height, block.hash)

/-- Two chains that no block can tell apart. -/
structure Alike (c d : Blockchain) : Prop where
  chainId : c.chainId = d.chainId
  tip : c.tip = d.tip
  state : c.state = d.state

lemma Alike.symm {c d : Blockchain} (h : Alike c d) : Alike d c :=
  ⟨h.chainId.symm, h.tip.symm, h.state.symm⟩

lemma Alike.tipHeight_eq {c d : Blockchain} (h : Alike c d) : c.tipHeight = d.tipHeight := by
  have hheight := congrArg (Option.map Prod.fst) h.tip
  simp only [Blockchain.tip, Option.map_map] at hheight
  exact congrArg (Option.getD · 0) hheight

lemma Alike.tipHash_eq {c d : Blockchain} (h : Alike c d) : c.tipHash = d.tipHash := by
  have hhash := congrArg (Option.map Prod.snd) h.tip
  simp only [Blockchain.tip, Option.map_map] at hhash
  exact congrArg (Option.getD · "") hhash

lemma Alike.balances_eq {c d : Blockchain} (h : Alike c d) : c.balances = d.balances :=
  congrArg LedgerState.balances h.state

lemma Alike.nextNonces_eq {c d : Blockchain} (h : Alike c d) : c.nextNonces = d.nextNonces :=
  congrArg LedgerState.nextNonces h.state

lemma Alike.executedEvents_eq {c d : Blockchain} (h : Alike c d) :
    c.executedEvents = d.executedEvents := congrArg LedgerState.executedEvents h.state

variable [Primitives]

lemma Alike.stateHash_eq {c d : Blockchain} (h : Alike c d) : c.stateHash = d.stateHash := by
  simp only [stateHash, stateBytes, balanceOf, nextNonce, h.balances_eq, h.nextNonces_eq,
    h.executedEvents_eq]

/-! ## Offered blocks -/

/-- The chain after blocks were offered to it one after the other: those that cannot be applied
are passed over. -/
def offerBlocks (c : Blockchain) (blocks : List Block) : Blockchain :=
  blocks.foldl (fun c block => c.call (.applyBlock block)) c

/-- A block that one of the chains takes is taken by the other, and the chains stay alike. -/
lemma Alike.applyBlock_eq_ok {c d c' : Blockchain} {block : Block} (h : Alike c d)
    (hc : c.applyBlock block = .ok c') : ∃ d', d.applyBlock block = .ok d' ∧ Alike c' d' := by
  obtain ⟨previous, state, hlast, hlinks, hstate, rfl⟩ := Blockchain.applyBlock_eq_ok.mp hc
  have htip : d.tip = some (previous.height, previous.hash) := by
    rw [← h.tip, Blockchain.tip, hlast]
    rfl
  obtain ⟨previous', hlast', hsame⟩ := Option.map_eq_some_iff.mp htip
  obtain ⟨hheight, hhash⟩ := Prod.mk.inj hsame
  -- the link of the block reads height and hash of the last block only
  have hlinks' : Links previous' block :=
    ⟨by rw [hheight, hlinks.height], by rw [hhash, hlinks.previousHash], hlinks.hash⟩
  rw [h.chainId, h.state] at hstate
  refine ⟨_, Blockchain.applyBlock_eq_ok.mpr ⟨previous', state, hlast', hlinks', hstate, rfl⟩, ?_⟩
  refine ⟨h.chainId, ?_, rfl⟩
  simp [Blockchain.tip]

/-- Two chains that are alike accept the same blocks. -/
lemma Alike.isOk_applyBlock {c d : Blockchain} (h : Alike c d) (block : Block) :
    isOk (c.applyBlock block) = isOk (d.applyBlock block) := by
  rw [Bool.eq_iff_iff, isOk_iff, isOk_iff]
  constructor
  · rintro ⟨c', hc'⟩
    obtain ⟨d', hd', _⟩ := h.applyBlock_eq_ok hc'
    exact ⟨d', hd'⟩
  · rintro ⟨d', hd'⟩
    obtain ⟨c', hc', _⟩ := h.symm.applyBlock_eq_ok hd'
    exact ⟨c', hc'⟩

/-- Offering a block keeps two chains alike, whether they take it or not. -/
lemma Alike.call {c d : Blockchain} (h : Alike c d) (block : Block) :
    Alike (c.call (.applyBlock block)) (d.call (.applyBlock block)) := by
  have hboth := h.isOk_applyBlock block
  simp only [Blockchain.call]
  cases hc : c.applyBlock block with
  | ok c' =>
    obtain ⟨d', hd', halike⟩ := h.applyBlock_eq_ok hc
    rw [hd']
    exact halike
  | error e =>
    cases hd : d.applyBlock block with
    | ok d' => simp [hc, hd, isOk] at hboth
    | error e' => exact h

lemma Alike.offerBlocks {c d : Blockchain} (h : Alike c d) (blocks : List Block) :
    Alike (c.offerBlocks blocks) (d.offerBlocks blocks) :=
  List.foldl_rel h fun block _ _ _ hcd => hcd.call block

/-! ## Restoring -/

/-- The last block of a chain carries its own digest. -/
def TipHashed (c : Blockchain) : Prop :=
  ∃ block, c.blocks.getLast? = some block ∧ block.hash = block.calculateHash

/-- A block that was applied carries its own digest. -/
lemma tipHashed_applyBlock {c c' : Blockchain} {block : Block} (h : c.applyBlock block = .ok c') :
    TipHashed c' := by
  obtain ⟨_, _, _, hlinks, _, rfl⟩ := Blockchain.applyBlock_eq_ok.mp h
  exact ⟨block, by simp, hlinks.hash⟩

lemma TipHashed.call {c : Blockchain} (h : TipHashed c) (block : Block) :
    TipHashed (c.call (.applyBlock block)) := by
  simp only [Blockchain.call]
  cases hc : c.applyBlock block with
  | error e => exact h
  | ok c' => exact tipHashed_applyBlock hc

/-- A digest has 64 digits and no `0x` in front. -/
lemma TipHashed.tipHash {c : Blockchain} (h : TipHashed c) :
    trimStart0x c.tipHash = c.tipHash ∧ textLen c.tipHash = 64 := by
  obtain ⟨block, hlast, hhash⟩ := h
  rw [(tipHeight_of_getLast hlast).2, hhash]
  exact ⟨trimStart0x_hexEncode _, block.textLen_calculateHash⟩

/-- Every chain that grew from `with_chain_id` ends in a block with its own digest. -/
lemma tipHashed_offerBlocks (chainId : UInt64) (initial : List (String × U128))
    (blocks : List Block) : TipHashed ((withChainId chainId initial).offerBlocks blocks) := by
  unfold offerBlocks
  refine List.foldlRecOn blocks _ (motive := TipHashed) ⟨Block.genesis, rfl, rfl⟩ ?_
  intro c hc block _
  exact hc.call block

/-- The snapshot of a chain whose last block carries its digest restores to a chain that is alike,
under whatever genesis commitment. -/
lemma TipHashed.restore {c : Blockchain} (h : TipHashed c) (commitment : String) :
    let snapshot := StateSnapshot.fromChain c
    ∃ d, fromSnapshotWithEvents snapshot.chainId commitment snapshot.height snapshot.blockHash
        snapshot.balances snapshot.nextNonces snapshot.executedEvents = .ok d ∧ Alike c d := by
  obtain ⟨htrim, hlength⟩ := h.tipHash
  obtain ⟨block, hlast, _⟩ := h
  obtain ⟨anchor, hheight, hanchor, _, hd⟩ := fromSnapshotWithEvents_of_hex htrim hlength c.chainId
    commitment c.tipHeight c.balances c.nextNonces c.executedEvents
  refine ⟨_, hd, rfl, ?_, rfl⟩
  simp only [Blockchain.tip, hlast, List.getLast?_singleton, Option.map_some, hheight, hanchor,
    tipHeight_of_getLast hlast]

/-- **Snapshot restore is a bisimulation for block execution.** Let a chain grow from
`with_chain_id` by `apply_block`. Its snapshot restores to a chain, and whatever blocks are then
offered to both, the two agree on height and hash of the tip, on every balance and every nonce, on
the executed events and on the state hash, and the next block is applied by both or by neither. -/
theorem snapshot_bisimulation (chainId : UInt64) (initial : List (String × U128))
    (history : List Block) (commitment : String) :
    let c := (withChainId chainId initial).offerBlocks history
    let snapshot := StateSnapshot.fromChain c
    ∃ d, fromSnapshotWithEvents snapshot.chainId commitment snapshot.height snapshot.blockHash
        snapshot.balances snapshot.nextNonces snapshot.executedEvents = .ok d ∧
      ∀ offered : List Block,
        let c' := c.offerBlocks offered
        let d' := d.offerBlocks offered
        c'.tipHeight = d'.tipHeight ∧ c'.tipHash = d'.tipHash ∧
        (∀ address, c'.balanceOf address = d'.balanceOf address) ∧ c'.balances = d'.balances ∧
        (∀ address, c'.nextNonce address = d'.nextNonce address) ∧
        c'.nextNonces = d'.nextNonces ∧ c'.executedEvents = d'.executedEvents ∧
        c'.stateHash = d'.stateHash ∧
        ∀ block, isOk (c'.applyBlock block) = isOk (d'.applyBlock block) := by
  intro c snapshot
  obtain ⟨d, hd, halike⟩ := (tipHashed_offerBlocks chainId initial history).restore commitment
  refine ⟨d, hd, ?_⟩
  intro offered c' d'
  have h : Alike c' d' := halike.offerBlocks offered
  refine ⟨h.tipHeight_eq, h.tipHash_eq, ?_, h.balances_eq, ?_, h.nextNonces_eq,
    h.executedEvents_eq, h.stateHash_eq, h.isOk_applyBlock⟩
  · intro address
    rw [balanceOf, balanceOf, h.balances_eq]
  · intro address
    rw [nextNonce, nextNonce, h.nextNonces_eq]

end Blockchain

end IeumChain
