import IeumChain.Devnet

/-!
# Rebuilding a ledger

`verify_and_rebuild` walks over all blocks in one pass with checks of its own; `apply_block`
takes them one by one on copies of the maps. The two accept the same lists of blocks and compute
the same maps: the pass simulates the replay step by step (`rebuildFrom_eq_ok`), so that

* a ledger grown by `apply_block` is left as it is by a rebuild (`rebuild_applyBlocks`);
* a rebuild of an arbitrary ledger succeeds exactly when its blocks can be replayed
  (`rebuild_eq_ok`).
-/

namespace IeumChain

open Lib

namespace Blockchain
variable [Primitives]

/-- Apply blocks one after the other, up to the first error. -/
def applyBlocks (c : Blockchain) (blocks : List Block) : Result Blockchain :=
  blocks.foldlM applyBlock c

/-- A successful replay appends its blocks and changes nothing but the blocks and the maps. -/
lemma applyBlocks_eq_ok {blocks : List Block} :
    ∀ {c c' : Blockchain}, c.applyBlocks blocks = .ok c' →
      c' = { c with blocks := c.blocks ++ blocks }.withState c'.state := by
  induction blocks with
  | nil =>
    intro c c' h
    cases h
    rw [List.append_nil]
    rfl
  | cons block rest ih =>
    intro c c' h
    obtain ⟨mid, hmid, hrest⟩ := foldlM_cons_eq_ok.mp h
    obtain ⟨_, state, _, _, _, rfl⟩ := applyBlock_eq_ok.mp hmid
    refine (ih hrest).trans ?_
    simp [withState]

/-- The pass over the blocks simulates the replay: from the maps of a ledger whose tip is
`previous` it succeeds exactly when the replay does, with the maps of the replay. -/
lemma rebuildFrom_eq_ok {blocks : List Block} :
    ∀ {c : Blockchain} {previous : Block} {state : LedgerState} (index : ℕ),
      c.blocks.getLast? = some previous →
      (rebuildFrom c.chainId index previous blocks c.state = .ok state ↔
        ∃ c', c.applyBlocks blocks = .ok c' ∧ c'.state = state) := by
  induction blocks with
  | nil =>
    intro c previous state index _
    simp only [rebuildFrom, applyBlocks, List.foldlM_nil, pure_eq_ok, Except.ok.injEq]
    constructor
    · intro h
      exact ⟨c, rfl, h⟩
    · rintro ⟨c', rfl, h⟩
      exact h
  | cons block rest ih =>
    intro c previous state index hlast
    simp only [rebuildFrom, bind_eq_ok, ensure_eq_ok, addOne_eq_ok, applyBlocks,
      foldlM_cons_eq_ok]
    -- both sides check the link and execute the block; the rest starts from the same ledger
    constructor
    · rintro ⟨_, hhash, next, hnext, _, ⟨rfl, hprevious⟩, mid, hmid, hrest⟩
      let c₁ := { c with blocks := c.blocks ++ [block] }.withState mid
      have hlast₁ : c₁.blocks.getLast? = some block := by simp [c₁]
      obtain ⟨c', hc', hstate⟩ := (ih (c := c₁) (index + 1) hlast₁).mp hrest
      exact ⟨c', ⟨c₁, applyBlock_eq_ok.mpr
        ⟨previous, mid, hlast, ⟨hnext, hprevious, hhash⟩, hmid, rfl⟩, hc'⟩, hstate⟩
    · rintro ⟨c', ⟨c₁, hc₁, hc'⟩, hstate⟩
      obtain ⟨previous', mid, hlast', hlinks, hmid, rfl⟩ := applyBlock_eq_ok.mp hc₁
      obtain rfl : previous = previous' := Option.some.inj (hlast.symm.trans hlast')
      refine ⟨(), hlinks.hash, block.height, hlinks.height, (), ⟨rfl, hlinks.previousHash⟩,
        mid, hmid, ?_⟩
      have hlast₁ : ({ c with blocks := c.blocks ++ [block] }.withState mid).blocks.getLast?
          = some block := by simp
      exact (ih (index + 1) hlast₁).mpr ⟨c', hc', hstate⟩

/-- A rebuild succeeds exactly when the blocks start with the genesis block and the rest can be
replayed from it; the maps are those of the replay. -/
lemma rebuild_eq_ok {c : Blockchain} {initial : List (String × U128)}
    (hinitial : HashMap.ofList initial = c.initialBalances) {state : LedgerState} :
    c.rebuild = .ok state ↔
      c.blocks.head? = some Block.genesis ∧
        ∃ c', (withChainId c.chainId initial).applyBlocks c.blocks.tail = .ok c' ∧
          c'.state = state := by
  have hstart : (withChainId c.chainId initial).state = ⟨c.initialBalances, ∅, ∅⟩ := by
    rw [← hinitial]
    rfl
  have hlast : (withChainId c.chainId initial).blocks.getLast? = some Block.genesis := rfl
  have hsim : rebuildFrom _ 1 _ c.blocks.tail _ = .ok state ↔ _ := rebuildFrom_eq_ok 1 hlast
  rw [hstart] at hsim
  simp only [rebuild, bind_eq_ok, ensure_eq_ok]
  constructor
  · rintro ⟨_, hhead, _, _, hfrom⟩
    exact ⟨hhead, hsim.mp hfrom⟩
  · rintro ⟨hhead, hreplay⟩
    exact ⟨(), hhead, (), Block.genesis_hash, hsim.mpr hreplay⟩

lemma verifyAndRebuild_of_ok {c : Blockchain} {state : LedgerState} (h : c.rebuild = .ok state) :
    c.verifyAndRebuild = (.ok (), c.withState state) := by
  rw [verifyAndRebuild, h]

lemma verifyAndRebuild_fst {c : Blockchain} :
    c.verifyAndRebuild.1 = .ok () ↔ ∃ state, c.rebuild = .ok state := by
  unfold verifyAndRebuild
  cases c.rebuild <;> simp

lemma verifyAndRebuild_error {c : Blockchain} (h : c.verifyAndRebuild.1 ≠ .ok ()) :
    c.verifyAndRebuild.2 = c := by
  unfold verifyAndRebuild at h ⊢
  cases hr : c.rebuild with
  | ok state => simp [hr] at h
  | error e => rfl

/-- A ledger grown from `with_chain_id` is left as it is by a rebuild. -/
lemma rebuild_applyBlocks {chainId : UInt64} {initial : List (String × U128)}
    {blocks : List Block} {c : Blockchain}
    (h : (withChainId chainId initial).applyBlocks blocks = .ok c) :
    c.rebuild = .ok c.state := by
  have hc := applyBlocks_eq_ok h
  have hblocks : c.blocks = Block.genesis :: blocks := by rw [hc]; rfl
  have hchainId : c.chainId = chainId := by rw [hc]; rfl
  have hinitial : HashMap.ofList initial = c.initialBalances := by rw [hc]; rfl
  refine (rebuild_eq_ok hinitial).mpr ⟨by rw [hblocks]; rfl, c, ?_, rfl⟩
  rw [hchainId, hblocks]
  exact h

/-- **Incremental execution and full rebuild agree.** A ledger grown by `apply_block` passes
`verify_and_rebuild` unchanged. An arbitrary ledger passes it exactly when its blocks begin with
the genesis block and the others can be applied one by one to `with_chain_id`; it then has the
maps of that replay and is otherwise unchanged, and on an error it is wholly unchanged. -/
theorem verifyAndRebuild_agrees :
    (∀ (chainId : UInt64) (initial : List (String × U128)) (blocks : List Block)
        (c : Blockchain), (withChainId chainId initial).applyBlocks blocks = .ok c →
      c.verifyAndRebuild = (.ok (), c)) ∧
    ∀ (c : Blockchain) (initial : List (String × U128)),
      HashMap.ofList initial = c.initialBalances →
      (c.verifyAndRebuild.1 = .ok () ↔
        c.blocks.head? = some Block.genesis ∧
          ∃ replay, (withChainId c.chainId initial).applyBlocks c.blocks.tail = .ok replay) ∧
      (∀ replay, c.verifyAndRebuild.1 = .ok () →
        (withChainId c.chainId initial).applyBlocks c.blocks.tail = .ok replay →
        c.verifyAndRebuild.2 = c.withState replay.state) ∧
      (c.verifyAndRebuild.1 ≠ .ok () → c.verifyAndRebuild.2 = c) := by
  constructor
  · intro chainId initial blocks c h
    rw [verifyAndRebuild_of_ok (rebuild_applyBlocks h), withState_self]
  · intro c initial hinitial
    refine ⟨?_, ?_, verifyAndRebuild_error⟩
    · rw [verifyAndRebuild_fst]
      constructor
      · rintro ⟨state, hstate⟩
        obtain ⟨hhead, c', hc', _⟩ := (rebuild_eq_ok hinitial).mp hstate
        exact ⟨hhead, c', hc'⟩
      · rintro ⟨hhead, replay, hreplay⟩
        exact ⟨replay.state, (rebuild_eq_ok hinitial).mpr ⟨hhead, replay, hreplay, rfl⟩⟩
    · intro replay hok hreplay
      obtain ⟨state, hstate⟩ := verifyAndRebuild_fst.mp hok
      obtain ⟨_, c', hc', rfl⟩ := (rebuild_eq_ok hinitial).mp hstate
      obtain rfl : c' = replay := Except.ok.inj (hc'.symm.trans hreplay)
      rw [verifyAndRebuild_of_ok hstate]

end Blockchain

section
attribute [local instance] Devnet.primitives

/-- The ledger with one transfer passes the rebuild, and so it does when read from a file. -/
theorem Blockchain.verifyAndRebuild_paid :
    ∃ c, (withChainId 1 [(Devnet.validator, 1000)]).applyBlocks [Devnet.paid] = .ok c ∧
      c.verifyAndRebuild = (.ok (), c) ∧
      c.blocks.head? = some Block.genesis ∧ c.verifyAndRebuild.2 = c.withState c.state := by
  obtain ⟨c, hc, _⟩ := Devnet.paid_applies
  have hreplay : (withChainId 1 [(Devnet.validator, 1000)]).applyBlocks [Devnet.paid] = .ok c :=
    foldlM_cons_eq_ok.mpr ⟨c, hc, rfl⟩
  have hrebuild := verifyAndRebuild_agrees.1 1 [(Devnet.validator, 1000)] [Devnet.paid] c hreplay
  have hok : c.verifyAndRebuild.1 = .ok () := by rw [hrebuild]
  obtain ⟨_, _, _, _, _, hblock⟩ := applyBlock_eq_ok.mp hc
  have hchainId : c.chainId = 1 := by rw [hblock]; rfl
  have htail : c.blocks.tail = [Devnet.paid] := by rw [hblock]; rfl
  have hinitial : HashMap.ofList [(Devnet.validator, 1000)] = c.initialBalances := by
    rw [hblock]
    rfl
  obtain ⟨hiff, hsame, _⟩ := verifyAndRebuild_agrees.2 c [(Devnet.validator, 1000)] hinitial
  refine ⟨c, hreplay, hrebuild, (hiff.mp hok).1, hsame c hok ?_⟩
  rw [hchainId, htail]
  exact hreplay

end

end IeumChain
