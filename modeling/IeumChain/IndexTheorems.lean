import IeumChain.BlockHashTheorems
import IeumChain.NonceTheorems
import IeumChain.Lib.Tally

/-!
# The indexes of the state store (`state_store.rs`)

`CanonicalState::from_chain` writes down where every transaction stands and what hash every height
has. The ledger itself looks both up by a scan. The scan stops at the first transaction with an id,
and the index holds the last one; they agree because no id occurs twice, which the nonces of the
whole chain rule out (`nodup_ids`), and no height does (`heights_applyBlocks`).
-/

namespace IeumChain

open Lib

section
variable [Primitives]

/-- `transaction_by_hash`: the first transaction with the id, its block and its place there. -/
def Blockchain.transactionByHash (c : Blockchain) (hash : String) :
    Option (Block × ℕ × Transaction) :=
  let hash := trimStart0x hash
  c.blocks.findSome? fun block =>
    (block.transactions.zipIdx.find? fun entry => entry.1.id == hash).map fun entry =>
      (block, entry.2, entry.1)

/-- The indexes of `CanonicalState`. A restart does not read them. -/
structure CanonicalIndexes where
  heightToHash : HashMap UInt64 String
  transactionIndex : HashMap String (UInt64 × ℕ)

/-- The indexes `CanonicalState::from_chain` fills. -/
def CanonicalIndexes.fromChain (chain : Blockchain) : CanonicalIndexes :=
  { heightToHash := HashMap.ofList (chain.blocks.map fun block => (block.height, block.hash))
    transactionIndex := chain.blocks.foldl (fun transactionIndex block =>
      block.transactions.zipIdx.foldl (fun transactionIndex entry =>
        transactionIndex.insert entry.1.id (block.height, entry.2)) transactionIndex) ∅ }

/-- What is inserted into the transaction index, in order. -/
def indexEntries (blocks : List Block) : List (String × UInt64 × ℕ) :=
  blocks.flatMap fun block =>
    block.transactions.zipIdx.map fun entry => (entry.1.id, block.height, entry.2)

lemma transactionIndex_eq (c : Blockchain) :
    (CanonicalIndexes.fromChain c).transactionIndex = HashMap.ofList (indexEntries c.blocks) := by
  show c.blocks.foldl _ ∅ = (indexEntries c.blocks).foldl _ ∅
  rw [indexEntries, List.foldl_flatMap]
  simp only [List.foldl_map]

lemma mem_indexEntries {blocks : List Block} {id : String} {height : UInt64} {index : ℕ} :
    (id, height, index) ∈ indexEntries blocks ↔
      ∃ block ∈ blocks, ∃ tx, block.transactions[index]? = some tx ∧ tx.id = id ∧
        block.height = height := by
  simp only [indexEntries, List.mem_flatMap, List.mem_map, Prod.exists,
    List.mk_mem_zipIdx_iff_getElem?, Prod.mk.injEq]
  constructor
  · rintro ⟨block, hblock, tx, place, hplace, rfl, rfl, rfl⟩
    exact ⟨block, hblock, tx, hplace, rfl, rfl⟩
  · rintro ⟨block, hblock, tx, hplace, rfl, rfl⟩
    exact ⟨block, hblock, tx, index, hplace, rfl, rfl, rfl⟩

/-! ## No id and no height occurs twice -/

/-- The ids of the index are those of the history. -/
lemma map_fst_indexEntries (c : Blockchain) :
    (indexEntries c.blocks).map Prod.fst = c.history.map Transaction.id := by
  rw [indexEntries, Blockchain.history, List.map_flatMap, List.map_flatMap]
  congr 1
  funext block
  rw [List.map_map]
  calc (block.transactions.zipIdx.map (Prod.fst ∘ fun entry => (entry.1.id, block.height, entry.2)))
      = (block.transactions.zipIdx.map Prod.fst).map Transaction.id := by
        rw [List.map_map]
        rfl
    _ = block.transactions.map Transaction.id := by rw [List.zipIdx_map_fst]

/-- Equal ids would be of equal transactions, and a sender uses a nonce once. -/
lemma nodup_ids {c : Blockchain} (hcount : NoncesCount c.nextNonces c.history)
    (hsized : ∀ tx ∈ c.history, tx.Sized)
    (hsha : CollisionFree fun bytes => ∃ tx ∈ c.history, bytes = tx.idPreimage) :
    (c.history.map Transaction.id).Nodup := by
  have hpairs := hcount.nodup
  rw [List.nodup_map_iff_inj_on (hpairs.of_map _)]
  intro tx htx tx' htx' hid
  have hpreimage := hsha.eq_of_hex ⟨tx, htx, rfl⟩ ⟨tx', htx', rfl⟩ hid
  exact idPreimage_inj (hsized tx htx) (hsized tx' htx') hpreimage

namespace Blockchain

/-- The blocks stand at the heights 0, 1, 2, and so on. -/
def CountsHeights (c : Blockchain) : Prop :=
  c.blocks.map (fun block => block.height.toNat) = List.range c.blocks.length

lemma CountsHeights.applyBlock {c c' : Blockchain} {block : Block} (h : c.CountsHeights)
    (happly : c.applyBlock block = .ok c') : c'.CountsHeights := by
  obtain ⟨previous, state, hlast, hlinks, _, rfl⟩ := applyBlock_eq_ok.mp happly
  obtain ⟨front, hfront⟩ := List.getLast?_eq_some_iff.mp hlast
  have hheights := h
  rw [CountsHeights, hfront, List.map_append, List.length_append, List.length_singleton,
    List.range_succ, List.map_singleton] at hheights
  have hprevious : previous.height.toNat = front.length := by
    have hsame := (List.append_inj' hheights rfl).2
    exact List.head_eq_of_cons_eq hsame
  have hblock : block.height.toNat = c.blocks.length := by
    rw [hlinks.height, hprevious, hfront, List.length_append, List.length_singleton]
  rw [CountsHeights, withState_blocks, List.map_append, List.map_singleton, h, List.length_append,
    List.length_singleton, List.range_succ, hblock]

lemma heights_applyBlocks {chainId : UInt64} {initial : List (String × U128)}
    {blocks : List Block} {c : Blockchain}
    (h : (withChainId chainId initial).applyBlocks blocks = .ok c) : c.CountsHeights := by
  have hstart : (withChainId chainId initial).CountsHeights := rfl
  exact foldlM_induction CountsHeights (fun _ _ _ hc hstep => hc.applyBlock hstep) blocks _ c
    hstart h

omit [Primitives] in
lemma CountsHeights.nodup {c : Blockchain} (h : c.CountsHeights) :
    (c.blocks.map Block.height).Nodup := by
  have hrange : (c.blocks.map fun block => block.height.toNat).Nodup := by
    rw [h]
    exact List.nodup_range
  exact List.Nodup.of_map UInt64.toNat (by rwa [List.map_map])

omit [Primitives] in
/-- There is one block of a height. -/
lemma CountsHeights.eq_of_height {c : Blockchain} (h : c.CountsHeights) {b b' : Block}
    (hb : b ∈ c.blocks) (hb' : b' ∈ c.blocks) (hheight : b.height = b'.height) : b = b' :=
  List.inj_on_of_nodup_map h.nodup hb hb' hheight

/-! ## The scans -/

/-- What the scan finds is in the chain. -/
lemma transactionByHash_eq_some {c : Blockchain} {hash : String} {b : Block} {index : ℕ}
    {tx : Transaction} (h : c.transactionByHash hash = some (b, index, tx)) :
    b ∈ c.blocks ∧ b.transactions[index]? = some tx ∧ tx.id = trimStart0x hash := by
  obtain ⟨block, hblock, hfound⟩ := List.exists_of_findSome?_eq_some h
  obtain ⟨⟨tx', index'⟩, hentry, heq⟩ := Option.map_eq_some_iff.mp hfound
  obtain ⟨rfl, rfl, rfl⟩ : block = b ∧ index' = index ∧ tx' = tx := by simpa using heq
  have hid := List.find?_some hentry
  have hmem := List.mem_of_find?_eq_some hentry
  exact ⟨hblock, List.mk_mem_zipIdx_iff_getElem?.mp hmem, by simpa using hid⟩

/-- The scan finds nothing only where there is nothing. -/
lemma transactionByHash_eq_none {c : Blockchain} {hash : String}
    (h : c.transactionByHash hash = none) {b : Block} (hb : b ∈ c.blocks) {index : ℕ}
    {tx : Transaction} (htx : b.transactions[index]? = some tx) : tx.id ≠ trimStart0x hash := by
  have hnone := List.findSome?_eq_none_iff.mp h b hb
  rw [Option.map_eq_none_iff, List.find?_eq_none] at hnone
  have hid := hnone (tx, index) (List.mk_mem_zipIdx_iff_getElem?.mpr htx)
  simpa using hid

/-! ## Agreement -/

/-- The index holds what the scan finds. -/
lemma lookup_transactionIndex {c : Blockchain} (hids : (c.history.map Transaction.id).Nodup)
    (hash : String) :
    (CanonicalIndexes.fromChain c).transactionIndex.lookup (trimStart0x hash)
      = (c.transactionByHash hash).map fun found => (found.1.height, found.2.1) := by
  have hkeys : ((indexEntries c.blocks).map Prod.fst).Nodup := by
    rwa [map_fst_indexEntries]
  rw [transactionIndex_eq]
  cases hscan : c.transactionByHash hash with
  | some found =>
    obtain ⟨b, index, tx⟩ := found
    obtain ⟨hb, htx, hid⟩ := transactionByHash_eq_some hscan
    rw [Option.map_some, HashMap.lookup_ofList hkeys, mem_indexEntries]
    exact ⟨b, hb, tx, htx, hid, rfl⟩
  | none =>
    rw [Option.map_none, Option.eq_none_iff_forall_ne_some]
    rintro ⟨height, index⟩ hlookup
    rw [HashMap.lookup_ofList hkeys, mem_indexEntries] at hlookup
    obtain ⟨b, hb, tx, htx, hid, _⟩ := hlookup
    exact transactionByHash_eq_none hscan hb htx hid

/-- Every height is mapped to the hash of its block. -/
lemma lookup_heightToHash {c : Blockchain} (h : c.CountsHeights) (height : UInt64) :
    (CanonicalIndexes.fromChain c).heightToHash.lookup height
      = (c.blockByHeight height).map Block.hash := by
  have hkeys : ((c.blocks.map fun block => (block.height, block.hash)).map Prod.fst).Nodup := by
    rw [List.map_map]
    exact h.nodup
  show (HashMap.ofList (c.blocks.map fun block => (block.height, block.hash))).lookup height = _
  cases hfind : c.blockByHeight height with
  | some b =>
    have hheight : b.height = height := by simpa using List.find?_some hfind
    rw [Option.map_some, HashMap.lookup_ofList hkeys, List.mem_map]
    exact ⟨b, List.mem_of_find?_eq_some hfind, by rw [hheight]⟩
  | none =>
    rw [Option.map_none, Option.eq_none_iff_forall_ne_some]
    intro hash hlookup
    rw [HashMap.lookup_ofList hkeys, List.mem_map] at hlookup
    obtain ⟨b, hb, heq⟩ := hlookup
    have hnone := List.find?_eq_none.mp hfind b hb
    rw [Prod.mk.injEq] at heq
    exact hnone (by simp [heq.1])

end Blockchain

/-- **The indexes agree with the scans.** Take any ledger grown from `with_chain_id`, without
collisions among what the ids of its transactions are hashes of. A scan for an id, with or without
`0x`, returns a block and a place exactly when the block is in the chain and the index has its
height and the place under the id; and every height is mapped to the hash of its block. -/
theorem canonical_indexes_agree (chainId : UInt64) (initial : List (String × U128))
    (blocks : List Block) (c : Blockchain)
    (h : (Blockchain.withChainId chainId initial).applyBlocks blocks = .ok c)
    (hsized : ∀ tx ∈ c.history, tx.Sized)
    (hsha : CollisionFree fun bytes => ∃ tx ∈ c.history, bytes = tx.idPreimage) :
    (∀ hash b index, (∃ tx, c.transactionByHash hash = some (b, index, tx)) ↔
      b ∈ c.blocks ∧ (CanonicalIndexes.fromChain c).transactionIndex.lookup (trimStart0x hash)
        = some (b.height, index)) ∧
      (∀ hash, (CanonicalIndexes.fromChain c).transactionIndex.lookup (trimStart0x hash)
        = (c.transactionByHash hash).map fun found => (found.1.height, found.2.1)) ∧
      ∀ height, (CanonicalIndexes.fromChain c).heightToHash.lookup height
        = (c.blockByHeight height).map Block.hash := by
  have hids := nodup_ids (Blockchain.noncesCount_applyBlocks h) hsized hsha
  have hheights := Blockchain.heights_applyBlocks h
  have hindex := Blockchain.lookup_transactionIndex hids
  refine ⟨fun hash b index => ?_, hindex, Blockchain.lookup_heightToHash hheights⟩
  rw [hindex hash, Option.map_eq_some_iff]
  constructor
  · rintro ⟨tx, hscan⟩
    obtain ⟨hb, _, _⟩ := Blockchain.transactionByHash_eq_some hscan
    exact ⟨hb, (b, index, tx), hscan, rfl⟩
  · rintro ⟨hb, ⟨b', index', tx⟩, hscan, heq⟩
    obtain ⟨hb', _, _⟩ := Blockchain.transactionByHash_eq_some hscan
    obtain ⟨hheight, rfl⟩ := Prod.mk.inj heq
    -- a height has one block
    obtain rfl := hheights.eq_of_height hb' hb hheight
    exact ⟨tx, hscan⟩

end

section
attribute [local instance] Devnet.primitives

/-- The transfer of the first block is found by its id, and stands in the index. -/
theorem canonical_indexes_agree_paid : ∃ c,
    (Blockchain.withChainId 1 [(Devnet.validator, 1000)]).applyBlocks [Devnet.paid] = .ok c ∧
      (∃ tx, c.transactionByHash ("0x" ++ Devnet.transfer.id) = some (Devnet.paid, 0, tx)) ∧
      (CanonicalIndexes.fromChain c).transactionIndex.lookup Devnet.transfer.id = some (1, 0) ∧
      (CanonicalIndexes.fromChain c).heightToHash.lookup 1 = some Devnet.paid.hash := by
  obtain ⟨c, hc, _⟩ := Devnet.paid_applies
  have hrun : (Blockchain.withChainId 1 [(Devnet.validator, 1000)]).applyBlocks [Devnet.paid]
      = .ok c := foldlM_cons_eq_ok.mpr ⟨c, hc, rfl⟩
  have hblocks : c.blocks = [Block.genesis, Devnet.paid] := by
    obtain ⟨_, _, _, _, _, rfl⟩ := Blockchain.applyBlock_eq_ok.mp hc
    rfl
  have hhistory : c.history = [Devnet.transfer] := by
    rw [Blockchain.history, hblocks]
    rfl
  have hsized : ∀ tx ∈ c.history, tx.Sized := by
    rw [hhistory]
    exact List.forall_mem_singleton.mpr sized_transfer
  have hsha : CollisionFree fun bytes => ∃ tx ∈ c.history, bytes = tx.idPreimage := by
    rw [hhistory]
    rintro x y ⟨tx, htx, rfl⟩ ⟨tx', htx', rfl⟩ _
    rw [List.mem_singleton.mp htx, List.mem_singleton.mp htx']
  obtain ⟨hscan, _, hheights⟩ := canonical_indexes_agree 1 [(Devnet.validator, 1000)] [Devnet.paid] c
    hrun hsized hsha
  have hid : trimStart0x ("0x" ++ Devnet.transfer.id) = Devnet.transfer.id := by
    rw [trimStart0x_append]
    exact trimStart0x_hexEncode _
  have hfound : ∃ tx, c.transactionByHash ("0x" ++ Devnet.transfer.id)
      = some (Devnet.paid, 0, tx) := by
    refine ⟨Devnet.transfer, ?_⟩
    have hgenesis : Block.genesis.transactions = [] := rfl
    have hpaid : Devnet.paid.transactions = [Devnet.transfer] := rfl
    rw [Blockchain.transactionByHash, hid, hblocks]
    simp [hgenesis, hpaid]
  refine ⟨c, hrun, hfound, ?_, ?_⟩
  · rw [← hid]
    exact ((hscan _ _ _).mp hfound).2
  · have hgenesis : Block.genesis.height = 0 := rfl
    have hpaid : Devnet.paid.height = 1 := rfl
    rw [hheights, Blockchain.blockByHeight, hblocks]
    simp [hgenesis, hpaid]

end

end IeumChain
