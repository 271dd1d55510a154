import IeumChain.CheckpointTheorems
import IeumChain.Lib.Tally
import IeumChain.RebuildTheorems
import IeumChain.SnapshotTheorems

/-!
# The archive holds the history

* `Shelf` is the archive without files: the blocks of every rollover and the active ones. Which
  blocks begin a new active file depends on their periods and the lengths of their lines alone;
* `History` says that the files hold a shelf, with a checkpoint of the chain before every rollover,
  and `History.append` that an append keeps it;
* `archive_history`: so the files give back the blocks that were appended, in their order, and the
  latest checkpoint with the active blocks is the chain again.
-/

namespace IeumChain

open Lib Lib.Disk ArchiveStore

/-! ## The archive without files -/

/-- The blocks of every rollover, and the active ones. -/
structure Shelf where
  parts : List (List Block)
  active : List Block

namespace Shelf

/-- All blocks, as they were appended. -/
def blocks (shelf : Shelf) : List Block := shelf.parts.flatten ++ shelf.active

/-- The bytes of the active directory: the lines, and the period of the last block. -/
def bytes (codec : ArchiveCodec) (active : List Block) : ℕ :=
  textLen (recordsText codec active) +
    (active.getLast?.map fun last => textLen (periodOf last.timestamp)).getD 0

/-- A block that does not go behind the active ones. -/
def Full (codec : ArchiveCodec) (maxActiveBytes : UInt64) (active : List Block) (block : Block) :
    Prop :=
  ∃ last ∈ active.getLast?, periodOf last.timestamp ≠ periodOf block.timestamp ∨
    maxActiveBytes.toNat < bytes codec active + (blockRecord codec block).length

instance (codec : ArchiveCodec) (maxActiveBytes : UInt64) (active : List Block) (block : Block) :
    Decidable (Full codec maxActiveBytes active block) := by
  unfold Full
  infer_instance

def append (codec : ArchiveCodec) (maxActiveBytes : UInt64) (shelf : Shelf) (block : Block) :
    Shelf :=
  if Full codec maxActiveBytes shelf.active block then ⟨shelf.parts ++ [shelf.active], [block]⟩
  else ⟨shelf.parts, shelf.active ++ [block]⟩

def empty : Shelf := ⟨[], []⟩

/-- The archive of some blocks. -/
def ofBlocks (codec : ArchiveCodec) (maxActiveBytes : UInt64) (blocks : List Block) : Shelf :=
  blocks.foldl (append codec maxActiveBytes) empty

/-- The last block before each rollover. -/
def tips (shelf : Shelf) : List Block := shelf.parts.filterMap List.getLast?

/-- The name of the checkpoint with a block at its tip. -/
def tipName (tip : Block) : String := checkpointName (periodOf tip.timestamp) tip.height

lemma blocks_append (codec : ArchiveCodec) (maxActiveBytes : UInt64) (shelf : Shelf)
    (block : Block) : (shelf.append codec maxActiveBytes block).blocks = shelf.blocks ++ [block] := by
  unfold append
  split
  · simp [blocks]
  · simp [blocks]

lemma blocks_foldl (codec : ArchiveCodec) (maxActiveBytes : UInt64) (blocks : List Block) :
    ∀ shelf : Shelf, (blocks.foldl (append codec maxActiveBytes) shelf).blocks =
      shelf.blocks ++ blocks := by
  induction blocks with
  | nil => exact fun shelf => (List.append_nil _).symm
  | cons block blocks ih =>
    intro shelf
    rw [List.foldl_cons, ih, blocks_append, List.append_assoc]
    rfl

lemma blocks_ofBlocks (codec : ArchiveCodec) (maxActiveBytes : UInt64) (blocks : List Block) :
    (ofBlocks codec maxActiveBytes blocks).blocks = blocks := blocks_foldl _ _ blocks empty

lemma tips_sublist (shelf : Shelf) : shelf.tips.Sublist shelf.parts.flatten := by
  unfold tips
  induction shelf.parts with
  | nil => exact List.Sublist.slnil
  | cons part parts ih =>
    rw [List.flatten_cons]
    cases hlast : part.getLast? with
    | none =>
      rw [List.filterMap_cons_none hlast]
      exact ih.trans (List.sublist_append_right _ _)
    | some tip =>
      rw [List.filterMap_cons_some hlast]
      exact (List.singleton_sublist.mpr (List.mem_of_getLast? hlast)).append ih

end Shelf

/-! ## What an append leaves alone -/

lemma written_alone {before : HashMap ArchivePlace Bytes} {record : Bytes} {period : String}
    {place : ArchivePlace} (hother : IsOther place) :
    (written before record period).lookup place = before.lookup place := by
  obtain ⟨_, hblocks, hperiod⟩ := hother
  rw [written, lookup_insert_of_ne, lookup_insert_of_ne]
  · rintro rfl
    exact hblocks rfl
  · rintro rfl
    exact hperiod rfl

lemma written_checkpoint {before : HashMap ArchivePlace Bytes} {record : Bytes}
    {period name : String} : (written before record period).lookup (.checkpoints, name) =
      before.lookup (.checkpoints, name) := by
  rw [written, lookup_insert_of_ne (by simp), lookup_insert_of_ne (by simp)]

lemma written_period {before : HashMap ArchivePlace Bytes} {record : Bytes} {period : String} :
    (written before record period).lookup (.active, "period") = some (textBytes period) :=
  HashMap.lookup_insert_self _ _ _

section
variable [Primitives]

/-! ## Heights -/

namespace Blockchain

lemma applyBlocks_concat_eq_ok {blocks : List Block} {block : Block} {c c' : Blockchain} :
    c.applyBlocks (blocks ++ [block]) = .ok c' ↔
      ∃ mid, c.applyBlocks blocks = .ok mid ∧ mid.applyBlock block = .ok c' := by
  rw [applyBlocks, List.foldlM_append, bind_eq_ok]
  simp only [List.foldlM_cons, List.foldlM_nil, bind_pure]
  rfl

/-- Every block is above the tip and those before it. -/
lemma heights_rise {blocks : List Block} : ∀ {c c' : Blockchain}, c.applyBlocks blocks = .ok c' →
    (∀ block ∈ blocks, c.tipHeight < block.height) ∧
      blocks.Pairwise fun a b => a.height < b.height := by
  induction blocks with
  | nil => exact fun _ => ⟨by simp, List.Pairwise.nil⟩
  | cons block blocks ih =>
    intro c c' h
    obtain ⟨mid, hmid, hrest⟩ := foldlM_cons_eq_ok.mp h
    obtain ⟨htip, hnext⟩ := tipHeight_applyBlock hmid
    obtain ⟨habove, hpairwise⟩ := ih hrest
    have hblock : c.tipHeight < block.height := by
      rw [UInt64.lt_iff_toNat_lt, ← htip]
      omega
    rw [htip] at habove
    refine ⟨List.forall_mem_cons.mpr ⟨hblock, fun other hother => ?_⟩,
      List.pairwise_cons.mpr ⟨habove, hpairwise⟩⟩
    exact UInt64.lt_trans hblock (habove other hother)

/-- The last block that was applied is the tip. -/
lemma tip_applyBlocks {blocks : List Block} {c c' : Blockchain} {last : Block}
    (h : c.applyBlocks blocks = .ok c') (hlast : blocks.getLast? = some last) :
    c'.tipHeight = last.height ∧ c'.TipHashed := by
  obtain ⟨front, rfl⟩ := List.getLast?_eq_some_iff.mp hlast
  obtain ⟨mid, -, hstep⟩ := applyBlocks_concat_eq_ok.mp h
  exact ⟨(tipHeight_applyBlock hstep).1, tipHashed_applyBlock hstep⟩

/-- Chains that are alike stay alike. -/
lemma Alike.applyBlocks {blocks : List Block} : ∀ {c c' d : Blockchain}, Alike c d →
    c.applyBlocks blocks = .ok c' → ∃ d', d.applyBlocks blocks = .ok d' ∧ Alike c' d' := by
  induction blocks with
  | nil =>
    intro c c' d h hc
    cases hc
    exact ⟨d, rfl, h⟩
  | cons block blocks ih =>
    intro c c' d h hc
    obtain ⟨mid, hmid, hrest⟩ := foldlM_cons_eq_ok.mp hc
    obtain ⟨mid', hmid', halike⟩ := h.applyBlock_eq_ok hmid
    obtain ⟨d', hd', halike'⟩ := ih halike hrest
    exact ⟨d', foldlM_cons_eq_ok.mpr ⟨mid', hmid', hd'⟩, halike'⟩

end Blockchain

/-! ## The files of a shelf -/

/-- A checkpoint: the chain with a block at its tip. -/
structure IsBase (codec : ArchiveCodec) (first : Blockchain) (tip : Block) (base : Blockchain) :
    Prop where
  parse : codec.parseSnapshot (codec.snapshotJson (StateSnapshot.fromChain base)) =
    .ok (StateSnapshot.fromChain base)
  chainId : base.chainId = first.chainId
  hashed : base.TipHashed
  height : base.tipHeight = tip.height

/-- The checkpoint of a chain with a block at its tip. -/
def checkpointFile (codec : ArchiveCodec) (base : Block × Blockchain) : String × Bytes :=
  (Shelf.tipName base.1, codec.snapshotJson (StateSnapshot.fromChain base.2))

/-- The files hold a shelf, and the chains before its rollovers. -/
structure History (codec : ArchiveCodec) (first : Blockchain) (files : HashMap ArchivePlace Bytes)
    (shelf : Shelf) (bases : List (Block × Blockchain)) (chain : Blockchain) : Prop where
  archived : ∃ backups, Archived codec files backups shelf.active ∧
    backups.map Prod.snd = shelf.parts
  fresh : shelf.active = [] →
    shelf.parts = [] ∧ files.lookup (.active, "blocks.jsonl") = none
  period : files.lookup (.active, "period") =
    shelf.active.getLast?.map fun last => textBytes (periodOf last.timestamp)
  alone : ∀ place, IsOther place → files.lookup place = none
  tips : bases.map Prod.fst = shelf.tips
  isBase : ∀ base ∈ bases, IsBase codec first base.1 base.2
  checkpoint : ∀ name, files.lookup (.checkpoints, name) =
    (HashMap.ofList (bases.map (checkpointFile codec))).lookup name
  grown : ((bases.getLast?.map Prod.snd).getD first).applyBlocks shelf.active = .ok chain

namespace History
variable {listing : Listing ArchivePlace} {codec : ArchiveCodec} {first chain after : Blockchain}
  {files : HashMap ArchivePlace Bytes} {shelf : Shelf} {bases : List (Block × Blockchain)}
  {store : ArchiveStore} {block : Block}

/-- A new store. -/
lemma start (codec : ArchiveCodec) (first : Blockchain) :
    History codec first ∅ Shelf.empty [] first where
  archived := by
    have hnone : ∀ name, isBackup name → (((.backup, name) : ArchivePlace) ∈
        (∅ : HashMap ArchivePlace Bytes) ↔ name ∈ []) := by
      intro name _
      simp [Finmap.notMem_empty]
    exact ⟨[], ⟨⟨List.nodup_nil, hnone, by simp, by simp, by simp⟩, .inr ⟨rfl, rfl⟩,
      by simp [Shelf.empty]⟩, rfl⟩
  fresh := fun _ => ⟨rfl, rfl⟩
  period := rfl
  alone := fun _ _ => rfl
  tips := rfl
  isBase := by simp
  checkpoint := fun _ => rfl
  grown := rfl

lemma storedPeriod (h : History codec first files shelf bases chain) :
    storedPeriod files = .ok (shelf.active.getLast?.map fun last => periodOf last.timestamp) := by
  unfold ArchiveStore.storedPeriod
  rw [h.period]
  cases shelf.active.getLast? with
  | none => rfl
  | some last =>
    simp only [Option.map_some, utf8Text_textBytes]
    show Except.ok (some (trim (periodOf last.timestamp))) = _
    rw [trim_periodOf]

lemma bytesIn (h : History codec first files shelf bases chain) :
    bytesIn files .active = Shelf.bytes codec shelf.active := by
  obtain ⟨backups, harchived, -⟩ := h.archived
  have hother : otherBytes files = 0 := by
    rw [← FirstBlock.otherBytes_empty]
    exact otherBytes_congr fun place hplace => h.alone place hplace
  have hblocks : sizeAt files (.active, "blocks.jsonl") =
      textLen (recordsText codec shelf.active) := by
    rw [textLen, ← harchived.getD_lookup, sizeAt]
    cases files.lookup (.active, "blocks.jsonl") <;> rfl
  have hperiod : sizeAt files (.active, "period") =
      (shelf.active.getLast?.map fun last => textLen (periodOf last.timestamp)).getD 0 := by
    rw [sizeAt, h.period]
    cases shelf.active.getLast? <;> rfl
  rw [bytesIn_active, hother, hblocks, hperiod, Nat.zero_add, Shelf.bytes]

/-- The active file is moved away where the shelf says so. -/
lemma moves (h : History codec first files shelf bases chain) :
    store.moves files (blockRecord codec block) block.timestamp =
      decide (Shelf.Full codec store.maxActiveBytes shelf.active block) := by
  obtain ⟨backups, harchived, -⟩ := h.archived
  rw [moves_eq (periodFromTimestamp_eq _) h.storedPeriod]
  cases hlast : shelf.active.getLast? with
  | none =>
    rw [(h.fresh (List.getLast?_eq_none_iff.mp hlast)).2, Option.isSome_none, Bool.and_false]
    symm
    rw [decide_eq_false_iff_not]
    rintro ⟨last, hsome, _⟩
    rw [hlast] at hsome
    cases hsome
  | some last =>
    have hfile : (files.lookup (.active, "blocks.jsonl")).isSome = true := by
      rcases harchived.activeFile with hsome | ⟨_, hnil⟩
      · rw [hsome]
        rfl
      · rw [hnil] at hlast
        cases hlast
    rw [hfile, Bool.and_true, decide_eq_decide]
    simp only [Rolls, Shelf.Full, h.bytesIn, hlast, Option.map_some, Option.mem_some_iff,
      exists_eq_left']

/-- A chain with active blocks can become a checkpoint. -/
lemma isBase_chain (h : History codec first files shelf bases chain) {last : Block}
    (hlast : shelf.active.getLast? = some last)
    (hparse : codec.parseSnapshot (codec.snapshotJson (StateSnapshot.fromChain chain)) =
      .ok (StateSnapshot.fromChain chain)) : IsBase codec first last chain := by
  obtain ⟨hheight, hhashed⟩ := Blockchain.tip_applyBlocks h.grown hlast
  refine ⟨hparse, ?_, hhashed, hheight⟩
  rw [Blockchain.applyBlocks_eq_ok h.grown]
  show ((bases.getLast?.map Prod.snd).getD first).chainId = first.chainId
  cases hbase : bases.getLast? with
  | none => rfl
  | some base => exact (h.isBase base (List.mem_of_getLast? hbase)).chainId

/-- The block goes behind the active ones. -/
lemma continued (h : History codec first files shelf bases chain)
    (happly : chain.applyBlock block = .ok after) (hreads : codec.ReadsBack block) :
    History codec first (written files (blockRecord codec block) (periodOf block.timestamp))
      ⟨shelf.parts, shelf.active ++ [block]⟩ bases after where
  archived := by
    obtain ⟨backups, harchived, hparts⟩ := h.archived
    exact ⟨backups, harchived.written hreads _, hparts⟩
  fresh := fun hnil => absurd hnil (List.append_ne_nil_of_right_ne_nil _ (by simp))
  period := by
    rw [written_period, List.getLast?_concat]
    rfl
  alone := fun place hother => (written_alone hother).trans (h.alone place hother)
  tips := h.tips
  isBase := h.isBase
  checkpoint := fun name => written_checkpoint.trans (h.checkpoint name)
  grown := Blockchain.applyBlocks_concat_eq_ok.mpr ⟨chain, h.grown, happly⟩

/-- The checkpoints after a rollover. -/
lemma checkpoint_secured (h : History codec first files shelf bases chain) {last : Block}
    (hheight : chain.tipHeight = last.height) {bytes : Bytes} {backup : String} (name : String) :
    (secured codec files chain (periodOf last.timestamp) backup bytes).lookup
      (.checkpoints, name) =
        (HashMap.ofList ((bases ++ [(last, chain)]).map (checkpointFile codec))).lookup name := by
  have hname : checkpointName (periodOf last.timestamp) chain.tipHeight = Shelf.tipName last := by
    rw [hheight, Shelf.tipName]
  rw [secured, lookup_replaced_of_ne (by simp) (by simp), checkpointed, hname, List.map_append,
    List.map_singleton, HashMap.ofList_concat, HashMap.lookup_insert, checkpointFile]
  by_cases hsame : name = Shelf.tipName last
  · rw [hsame, if_pos rfl]
    exact lookup_replaced_self
  · rw [if_neg hsame]
    by_cases htemporary : name = temporaryName (Shelf.tipName last)
    · -- the file beside the new checkpoint is gone, and no other checkpoint has its name
      have hnot : name ∉ HashMap.ofList (bases.map (checkpointFile codec)) := by
        rw [HashMap.mem_ofList, List.map_map, List.mem_map]
        rintro ⟨base, _, hbase⟩
        rw [htemporary] at hbase
        exact temporaryName_ne_checkpointName _ _ _ hbase.symm
      rw [Finmap.lookup_eq_none.mpr hnot, htemporary]
      apply lookup_replaced_temporary
      rw [← htemporary]
      exact fun heq => hsame (Prod.mk.inj heq).2
    · rw [lookup_replaced_of_ne]
      · exact h.checkpoint name
      · exact fun heq => hsame (Prod.mk.inj heq).2
      · exact fun heq => htemporary (Prod.mk.inj heq).2

/-- The active file is moved away, and the block begins a new one. -/
lemma rolledOver (h : History codec first files shelf bases chain)
    (hzstd : ∀ bytes, codec.decompress (codec.compress bytes) = .ok bytes)
    (hparse : codec.parseSnapshot (codec.snapshotJson (StateSnapshot.fromChain chain)) =
      .ok (StateSnapshot.fromChain chain))
    (happly : chain.applyBlock block = .ok after) (hreads : codec.ReadsBack block) {last : Block}
    (hlast : shelf.active.getLast? = some last) {bytes : Bytes} {stem : String}
    (hbytes : files.lookup (.active, "blocks.jsonl") = some bytes)
    (hfree : files.lookup (.backup, stem ++ ".jsonl.zst") = none)
    {before : HashMap ArchivePlace Bytes}
    (hcleared : Cleared (secured codec files chain (periodOf last.timestamp)
      (stem ++ ".jsonl.zst") bytes) before) :
    History codec first (written before (blockRecord codec block) (periodOf block.timestamp))
      ⟨shelf.parts ++ [shelf.active], [block]⟩ (bases ++ [(last, chain)]) after := by
  have hbase := h.isBase_chain hlast hparse
  constructor
  · -- the active blocks are a backup now, and the file starts with the new block
    obtain ⟨backups, harchived, hparts⟩ := h.archived
    have hempty := Archived.cleared (harchived.secured hzstd hbytes hfree) hcleared
    refine ⟨_, hempty.written hreads _, ?_⟩
    rw [List.map_append, hparts]
    rfl
  · exact fun hnil => absurd hnil (by simp)
  · exact written_period
  · -- nothing else in the active directory is touched
    intro place hother
    obtain ⟨hactive, hblocks, hperiod⟩ := hother
    have hsame : before.lookup place = files.lookup place := by
      rw [hcleared.2 place (fun heq => hblocks (by rw [heq])) (fun heq => hperiod (by rw [heq])),
        secured, checkpointed]
      obtain ⟨directory, name⟩ := place
      obtain rfl : directory = .active := hactive
      rw [lookup_replaced_of_ne (by simp) (by simp), lookup_replaced_of_ne (by simp) (by simp)]
    rw [written_alone ⟨hactive, hblocks, hperiod⟩, hsame]
    exact h.alone place ⟨hactive, hblocks, hperiod⟩
  · rw [List.map_append, h.tips, Shelf.tips, Shelf.tips, List.filterMap_append]
    simp [hlast]
  · intro base hmem
    rcases List.mem_append.mp hmem with hmem | hmem
    · exact h.isBase base hmem
    · rw [List.mem_singleton.mp hmem]
      exact hbase
  · intro name
    rw [written_checkpoint, hcleared.2 _ (by simp) (by simp)]
    exact h.checkpoint_secured hbase.height name
  · rw [List.getLast?_concat]
    exact foldlM_cons_eq_ok.mpr ⟨after, happly, rfl⟩

/-- **An append keeps the history**, with the block behind the others. -/
lemma append (h : History codec first files shelf bases chain)
    (hzstd : ∀ bytes, codec.decompress (codec.compress bytes) = .ok bytes)
    (hparse : codec.parseSnapshot (codec.snapshotJson (StateSnapshot.fromChain chain)) =
      .ok (StateSnapshot.fromChain chain))
    (happly : chain.applyBlock block = .ok after) (hreads : codec.ReadsBack block) :
    wp (appendFinalized listing codec store block chain) (fun _ files' => ∃ bases',
      History codec first files' (shelf.append codec store.maxActiveBytes block) bases' after)
      (fun _ => True) files := by
  refine wp_mono wp_append_written ?_ fun _ h => h
  rintro - files' ⟨⟨period, moved⟩, prepared, before, ⟨hperiod, hmoved, current, hcurrent, hprepared⟩,
    hbefore, rfl⟩
  obtain rfl : periodOf block.timestamp = period :=
    Except.ok.inj ((periodFromTimestamp_eq _).symm.trans hperiod)
  obtain rfl := Except.ok.inj (h.storedPeriod.symm.trans hcurrent)
  have hmoved : moved = store.moves files (blockRecord codec block) block.timestamp := hmoved
  rw [h.moves] at hmoved
  rw [Shelf.append]
  cases moved with
  | false =>
    rw [if_neg (of_decide_eq_false hmoved.symm)]
    obtain rfl : prepared = files := hprepared
    obtain rfl : before = prepared := hbefore
    exact ⟨bases, h.continued happly hreads⟩
  | true =>
    have hfull := of_decide_eq_true hmoved.symm
    rw [if_pos hfull]
    obtain ⟨last, hlast, _⟩ := hfull
    obtain ⟨bytes, stem, hbytes, hfree, rfl⟩ := hprepared
    have hlast : shelf.active.getLast? = some last := hlast
    rw [hlast] at hbefore
    exact ⟨_, h.rolledOver hzstd hparse happly hreads hlast hbytes hfree hbefore⟩

/-! ## Reading -/

/-- The checkpoint of the last rollover is the latest where its name is the greatest. -/
lemma returns_latest {front : List (Block × Blockchain)} {last : Block × Blockchain}
    (h : History codec first files shelf (front ++ [last]) chain)
    (hgreatest : ∀ tip ∈ shelf.tips, Shelf.tipName tip ≤ Shelf.tipName last.1) :
    Returns (loadLatestSnapshot listing codec) (fun found after =>
      found = some (StateSnapshot.fromChain last.2) ∧ after = files) files := by
  have hstored : files.lookup (.checkpoints, Shelf.tipName last.1) =
      some (codec.snapshotJson (StateSnapshot.fromChain last.2)) := by
    rw [h.checkpoint, List.map_append, List.map_singleton, HashMap.ofList_concat]
    exact HashMap.lookup_insert_self _ _ _
  refine returns_loadLatestSnapshot hstored (h.isBase last (by simp)).parse ?_
  intro other hmem
  rw [← Finmap.lookup_isSome, h.checkpoint, Finmap.lookup_isSome, HashMap.mem_ofList] at hmem
  obtain ⟨_, hentry, rfl⟩ := List.mem_map.mp hmem
  obtain ⟨base, hbase, rfl⟩ := List.mem_map.mp hentry
  refine hgreatest base.1 ?_
  rw [← h.tips]
  exact List.mem_map_of_mem hbase

/-- The checkpoint and the active blocks are the chain again. -/
lemma restores {front : List (Block × Blockchain)} {last : Block × Blockchain}
    (h : History codec first files shelf (front ++ [last]) chain) (commitment : String) :
    let snapshot := StateSnapshot.fromChain last.2
    ∃ base restored, Blockchain.fromSnapshotWithEvents first.chainId commitment snapshot.height
        snapshot.blockHash snapshot.balances snapshot.nextNonces snapshot.executedEvents = .ok base ∧
      Blockchain.Alike last.2 base ∧ base.applyBlocks shelf.active = .ok restored ∧
      Blockchain.Alike chain restored := by
  have hbase := h.isBase last (by simp)
  have hgrown := h.grown
  rw [List.getLast?_concat] at hgrown
  obtain ⟨base, hrestore, halike⟩ := hbase.hashed.restore commitment
  obtain ⟨restored, hrestored, halike'⟩ := halike.applyBlocks hgrown
  rw [← hbase.chainId]
  exact ⟨base, restored, hrestore, halike, hrestored, halike'⟩

/-- Where a record has room, an append returns that makes the first rollover or none. -/
lemma returns_append (h : History codec first files shelf bases chain) (hparts : shelf.parts = [])
    (hlength : (blockRecord codec block).length ≤ store.maxActiveBytes.toNat)
    (hsum : Shelf.bytes codec shelf.active + (blockRecord codec block).length < 2 ^ 64)
    (before : Blockchain) :
    Returns (appendFinalized listing codec store block before) (fun _ _ => True) files := by
  obtain ⟨backups, harchived, hbackups⟩ := h.archived
  have hfree : ∀ period, files.lookup (.backup, period ++ ".jsonl.zst") = none := by
    intro period
    rw [hparts, List.map_eq_nil_iff] at hbackups
    rw [Finmap.lookup_eq_none, harchived.backups.mem_iff _ (isBackup_append period), hbackups]
    exact List.not_mem_nil
  have hwrite : ∀ before : HashMap ArchivePlace Bytes, Returns (do
      Disk.append (.active, "blocks.jsonl") (blockRecord codec block)
      Disk.write (.active, "period") (textBytes (periodOf block.timestamp)))
        (fun _ _ => True) before := fun before => Returns.bind (Returns.append (Returns.write trivial))
  refine Returns.bind (Returns.lift (periodFromTimestamp_eq _) ?_)
  refine Returns.bind (Returns.lift (a := ()) (ensure_eq_ok.mpr hlength) ?_)
  refine Returns.bind (Returns.bind (Returns.read (Returns.lift h.storedPeriod ?_)))
  refine Returns.bind (Returns.mono returns_directoryBytes ?_)
  rintro total after ⟨hafter, htotal⟩
  rw [hafter]
  rw [h.bytesIn, Nat.min_eq_left (by omega)] at htotal
  obtain ⟨rolls, hneeds⟩ := needsRollover_returns store (periodOf block.timestamp)
    (shelf.active.getLast?.map fun last => periodOf last.timestamp) (htotal ▸ hsum)
  refine Returns.bind (Returns.lift hneeds ?_)
  split
  · refine Returns.bind (Returns.mono (Q := fun _ _ => True) ?_ fun _ before _ => hwrite before)
    cases hlast : shelf.active.getLast? with
    | none =>
      refine Returns.bind (Returns.doesExist ?_)
      rw [(h.fresh (List.getLast?_eq_none_iff.mp hlast)).2]
      exact Returns.pure trivial
    | some last =>
      have hperiod := h.period
      rw [hlast] at hperiod
      exact returns_rollover (hfree _) hperiod
  · exact hwrite files

end History

omit [Primitives] in
/-- The blocks of the active file. -/
lemma returns_loadActiveBlocks {codec : ArchiveCodec} {files : HashMap ArchivePlace Bytes}
    {backups : List (String × List Block)} {active : List Block}
    (h : Archived codec files backups active) : Returns (loadActiveBlocks codec)
      (fun found after => found = active ∧ after = files) files := by
  refine Returns.bind (Returns.read (Returns.lift (a := active) ?_ ⟨rfl, rfl⟩))
  rcases h.activeFile with hsome | ⟨hnone, rfl⟩
  · rw [hsome]
    simp only [utf8Text_textBytes]
    exact parseLines_recordsText h.reads
  · rw [hnone]
    rfl

/-- The blocks of the backups, and then the active ones. -/
def readBlocks (listing : Listing ArchivePlace) (codec : ArchiveCodec) :
    DiskM ArchivePlace (List Block) := do
  let backed ← readBackupBlocks listing codec
  let active ← loadActiveBlocks codec
  return backed ++ active

omit [Primitives] in
/-- Blocks whose heights rise come back in their order. -/
lemma returns_readBlocks {listing : Listing ArchivePlace} {codec : ArchiveCodec}
    {files : HashMap ArchivePlace Bytes} {backups : List (String × List Block)}
    {active : List Block} (h : Archived codec files backups active)
    (hrise : (Backups.blocks backups).Pairwise fun a b => a.height < b.height) :
    Returns (readBlocks listing codec)
      (fun found after => found = Backups.blocks backups ++ active ∧ after = files) files := by
  refine Returns.bind (Returns.mono (returns_readBackupBlocks h.backups) ?_)
  rintro backed after ⟨hafter, hperm, hsorted⟩
  rw [hafter]
  have hheights : ((Backups.blocks backups).map Block.height).Nodup :=
    List.pairwise_map.mpr (hrise.imp UInt64.ne_of_lt)
  have hsame : backed = Backups.blocks backups := by
    refine List.Perm.eq_of_pairwise ?_ hsorted (hrise.imp UInt64.le_of_lt) hperm
    intro a b ha hb hle hge
    exact List.inj_on_of_nodup_map hheights (hperm.mem_iff.mp ha) hb (UInt64.le_antisymm hle hge)
  refine Returns.bind (Returns.mono (returns_loadActiveBlocks h) ?_)
  rintro found after ⟨rfl, rfl⟩
  exact Returns.pure ⟨by rw [hsame], rfl⟩

omit [Primitives] in
lemma readBlocks_eq {listing : Listing ArchivePlace} {codec : ArchiveCodec}
    {d : Disk ArchivePlace} {backups : List (String × List Block)} {active : List Block}
    (h : Archived codec d.files backups active)
    (hrise : (Backups.blocks backups).Pairwise fun a b => a.height < b.height) (hd : Sound d) :
    (readBlocks listing codec d).1 = .ok (Backups.blocks backups ++ active) := by
  obtain ⟨found, d', hread, -, rfl, -⟩ := returns_readBlocks h hrise d hd rfl
  exact congrArg Prod.fst hread

/-! ## Runs -/

/-- A block is applied to the chain, and appended with the chain before it. -/
def archiveBlock (listing : Listing ArchivePlace) (codec : ArchiveCodec) (store : ArchiveStore)
    (chain : Blockchain) (block : Block) : DiskM ArchivePlace Blockchain := do
  let after ← Disk.lift (chain.applyBlock block)
  appendFinalized listing codec store block chain
  return after

/-- The snapshots of the chains on the way are read back. -/
def SnapshotsReadBack (codec : ArchiveCodec) (first : Blockchain) (blocks : List Block) : Prop :=
  ∀ earlier c, earlier <+: blocks → first.applyBlocks earlier = .ok c →
    codec.parseSnapshot (codec.snapshotJson (StateSnapshot.fromChain c)) =
      .ok (StateSnapshot.fromChain c)

lemma SnapshotsReadBack.tail {codec : ArchiveCodec} {first after : Blockchain} {block : Block}
    {blocks : List Block} (h : SnapshotsReadBack codec first (block :: blocks))
    (happly : first.applyBlock block = .ok after) : SnapshotsReadBack codec after blocks := by
  intro earlier c hprefix hc
  refine h (block :: earlier) c (List.cons_prefix_cons.mpr ⟨rfl, hprefix⟩) ?_
  exact foldlM_cons_eq_ok.mpr ⟨after, happly, hc⟩

/-- **Every run keeps the history.** -/
lemma History.run {listing : Listing ArchivePlace} {codec : ArchiveCodec} {first : Blockchain}
    {store : ArchiveStore}
    (hzstd : ∀ bytes, codec.decompress (codec.compress bytes) = .ok bytes) {blocks : List Block} :
    ∀ {chain : Blockchain} {files : HashMap ArchivePlace Bytes} {shelf : Shelf}
      {bases : List (Block × Blockchain)}, History codec first files shelf bases chain →
      (∀ block ∈ blocks, codec.ReadsBack block) → SnapshotsReadBack codec chain blocks →
      wp (blocks.foldlM (archiveBlock listing codec store) chain) (fun after files' =>
        chain.applyBlocks blocks = .ok after ∧ ∃ bases', History codec first files'
          (blocks.foldl (Shelf.append codec store.maxActiveBytes) shelf) bases' after)
        (fun _ => True) files := by
  induction blocks with
  | nil => exact fun {_ _ _ bases} h _ _ => wp_pure ⟨rfl, bases, h⟩
  | cons block blocks ih =>
    intro chain files shelf bases h hreads hsnapshots
    obtain ⟨hblock, hrest⟩ := List.forall_mem_cons.mp hreads
    rw [List.foldlM_cons]
    refine wp_bind (wp_bind (wp_lift (fun after happly => ?_) fun _ _ => trivial))
    have hparse := hsnapshots [] chain (List.nil_prefix) rfl
    refine wp_bind (wp_mono (h.append hzstd hparse happly hblock) ?_ fun _ h => h)
    rintro - files' ⟨bases', h'⟩
    refine wp_pure (wp_mono (ih h' hrest (hsnapshots.tail happly)) ?_ fun _ h => h)
    rintro last files'' ⟨hlast, hhistory⟩
    exact ⟨foldlM_cons_eq_ok.mpr ⟨after, happly, hlast⟩, hhistory⟩

omit [Primitives] in
lemma wp_new {maxActiveBytes : UInt64} {files : HashMap ArchivePlace Bytes} :
    wp (ArchiveStore.new maxActiveBytes) (fun store after => store = ⟨maxActiveBytes⟩ ∧
      (maxActiveBytes ≠ 0 ∧ maxActiveBytes ≤ 100000000) ∧ after = files) (fun _ => True) files := by
  refine wp_bind (wp_lift (fun _ hmax => ?_) fun _ _ => trivial)
  refine wp_bind (wp_createDir trivial (wp_bind (wp_createDir trivial ?_)))
  exact wp_bind (wp_createDir trivial (wp_pure ⟨rfl, ensure_eq_ok.mp hmax, rfl⟩))

omit [Primitives] in
lemma returns_new {maxActiveBytes : UInt64} {files : HashMap ArchivePlace Bytes}
    (hmax : maxActiveBytes ≠ 0 ∧ maxActiveBytes ≤ 100000000) :
    Returns (ArchiveStore.new maxActiveBytes)
      (fun store after => store = ⟨maxActiveBytes⟩ ∧ after = files) files := by
  refine Returns.bind (Returns.lift (a := ()) (ensure_eq_ok.mpr hmax) ?_)
  refine Returns.bind (Returns.createDir (Returns.bind (Returns.createDir ?_)))
  exact Returns.bind (Returns.createDir (Returns.pure ⟨rfl, rfl⟩))

/-- **The archive neither loses nor repeats blocks, and rebuilds the tip.** Blocks of a growing chain
are appended to a new store, each call with the chain before the block. The backups and then the
active file are these blocks in their order. If there was a rollover, time does not run backwards
and no number is too long for its place in a name, the latest checkpoint and the active blocks are
the chain again. -/
theorem archive_history (listing : Listing ArchivePlace) (codec : ArchiveCodec)
    (maxActiveBytes : UInt64) (first chain : Blockchain) (blocks : List Block)
    (d d' : Disk ArchivePlace) (hempty : d.files = ∅)
    (hrun : (do
      let store ← ArchiveStore.new maxActiveBytes
      blocks.foldlM (archiveBlock listing codec store) first) d = (.ok chain, d'))
    (hjson : ∀ block ∈ blocks, codec.ReadsBack block)
    (hsnapshots : SnapshotsReadBack codec first blocks)
    (hzstd : ∀ bytes, codec.decompress (codec.compress bytes) = .ok bytes) :
    (readBlocks listing codec d'.sound).1 = .ok blocks ∧
    ((∃ name, ((.checkpoints, name) : ArchivePlace) ∈ d'.files) →
      blocks.Pairwise (fun a b => a.timestamp ≤ b.timestamp) →
      (∀ block ∈ blocks, block.timestamp < 253402300800 ∧ block.height < 1000000000000) →
      ∃ snapshot active restored,
        (loadLatestSnapshot listing codec d'.sound).1 = .ok (some snapshot) ∧
        (loadActiveBlocks codec d'.sound).1 = .ok active ∧
        (do
          let base ← Blockchain.fromSnapshotWithEvents first.chainId first.genesisCommitment
            snapshot.height snapshot.blockHash snapshot.balances snapshot.nextNonces
            snapshot.executedEvents
          base.applyBlocks active) = .ok restored ∧
        restored.tipHash = chain.tipHash ∧ restored.stateHash = chain.stateHash) := by
  have hwp : wp (do
      let store ← ArchiveStore.new maxActiveBytes
      blocks.foldlM (archiveBlock listing codec store) first) (fun chain files =>
        first.applyBlocks blocks = .ok chain ∧ ∃ bases, History codec first files
          (Shelf.ofBlocks codec maxActiveBytes blocks) bases chain) (fun _ => True) ∅ := by
    refine wp_bind (wp_mono wp_new ?_ fun _ h => h)
    rintro store files ⟨rfl, -, rfl⟩
    exact History.run hzstd (History.start codec first) hjson hsnapshots
  have hend := (hwp d hempty).1 chain (congrArg Prod.fst hrun)
  rw [hrun] at hend
  obtain ⟨hgrown, bases, h⟩ := hend
  obtain ⟨-, hheights⟩ := Blockchain.heights_rise hgrown
  have hblocks := Shelf.blocks_ofBlocks codec maxActiveBytes blocks
  obtain ⟨shelf, hshelf⟩ : ∃ shelf, shelf = Shelf.ofBlocks codec maxActiveBytes blocks := ⟨_, rfl⟩
  rw [← hshelf] at h hblocks
  obtain ⟨backups, harchived, hparts⟩ := h.archived
  have hbacked : Backups.blocks backups = shelf.parts.flatten := by
    rw [← hparts, Backups.blocks, List.flatMap_def]
  constructor
  · have hrise : (Backups.blocks backups).Pairwise fun a b => a.height < b.height := by
      rw [← hblocks] at hheights
      rw [hbacked]
      exact (List.pairwise_append.mp hheights).1
    have harchived' : Archived codec d'.sound.files backups shelf.active := harchived
    rw [readBlocks_eq harchived' hrise (sound_sound d'), hbacked]
    exact congrArg Except.ok hblocks
  · rintro ⟨name, hname⟩ htimes hbounds
    -- a checkpoint is that of a rollover
    rw [← Finmap.lookup_isSome, h.checkpoint, Finmap.lookup_isSome, HashMap.mem_ofList] at hname
    have hne : bases ≠ [] := by
      rintro rfl
      cases hname
    obtain ⟨front, last, rfl⟩ := (List.eq_nil_or_concat' bases).resolve_left hne
    have htips := h.tips
    rw [List.map_append, List.map_singleton] at htips
    have hsublist : shelf.tips.Sublist blocks := by
      rw [← hblocks]
      exact shelf.tips_sublist.trans (List.sublist_append_left _ _)
    have hgreatest : ∀ tip ∈ shelf.tips, Shelf.tipName tip ≤ Shelf.tipName last.1 := by
      have htimes' := htimes.sublist hsublist
      have hheights' := hheights.sublist hsublist
      have hlast : last.1 ∈ shelf.tips := by
        rw [← htips]
        simp
      obtain ⟨hyear, hdigits⟩ := hbounds _ (hsublist.subset hlast)
      intro tip hmem
      rw [← htips] at hmem htimes' hheights'
      rcases List.mem_append.mp hmem with hmem | hmem
      · have htime := (List.pairwise_append.mp htimes').2.2 tip hmem _ (List.mem_singleton.mpr rfl)
        have hheight :=
          (List.pairwise_append.mp hheights').2.2 tip hmem _ (List.mem_singleton.mpr rfl)
        exact (checkpointName_lt htime hyear hheight hdigits).le
      · rw [List.mem_singleton.mp hmem]
    obtain ⟨snapshot, _, hsnapshot, -, rfl, -⟩ :=
      @History.returns_latest _ listing _ _ _ _ _ _ _ h hgreatest d'.sound (sound_sound d') rfl
    obtain ⟨active, _, hactive, -, rfl, -⟩ :=
      returns_loadActiveBlocks harchived d'.sound (sound_sound d') rfl
    obtain ⟨base, restored, hbase, -, hrestored, halike⟩ := h.restores first.genesisCommitment
    refine ⟨_, _, restored, congrArg Prod.fst hsnapshot, congrArg Prod.fst hactive, ?_,
      halike.symm.tipHash_eq, halike.symm.stateHash_eq⟩
    exact bind_eq_ok.mpr ⟨base, hbase, hrestored⟩

end

/-! ## Two blocks and a rollover -/

namespace TwoBlocks

open Devnet

attribute [local instance] Devnet.primitives

/-- The JSON text of a block without transactions, behind its first name. -/
def blockFields (block : Block) : String :=
  toString block.height.toNat ++ (",\"previous_hash\":\"" ++ block.previousHash ++
    "\",\"timestamp\":" ++ toString block.timestamp.toNat ++ ",\"producer\":\"" ++ block.producer ++
    "\",\"transactions\":[],\"hash\":\"" ++ block.hash ++ "\"\x7d")

/-- The JSON text of a snapshot with one account, behind the name of its height. -/
def snapshotFields (snapshot : StateSnapshot) : String :=
  toString snapshot.height.toNat ++ (",\n  \"block_hash\": \"" ++ snapshot.blockHash ++
    "\",\n  \"state_hash\": \"" ++ snapshot.stateHash ++ "\",\n  \"balances\": \x7b\n    \"" ++
    validator ++ "\": " ++ toString (balanceIn snapshot.balances validator).toNat ++
    "\n  \x7d,\n  \"next_nonces\": \x7b\x7d,\n  \"executed_events\": []\n\x7d")

/-- The chain after the first block. -/
abbrev grown : Blockchain := { Devnet.chain with blocks := [Block.genesis, first] }

/-- The chain after both blocks. -/
abbrev complete : Blockchain := { Devnet.chain with blocks := [Block.genesis, first, second] }

/-- The chains from one block to the next. -/
def chains : List Blockchain := [Devnet.chain, grown, complete]

/-- The texts of the two blocks and of the snapshots of their chains. -/
def codec : ArchiveCodec where
  blockJson block := "\x7b\"height\":" ++ blockFields block
  parseBlock text := do
    let fields ← okOr (stripPrefix text "\x7b\"height\":") "expected value at line 1 column 1"
    if startsWith fields "1" then return first else return second
  snapshotJson snapshot :=
    textBytes ("\x7b\n  \"chain_id\": 1,\n  \"height\": " ++ snapshotFields snapshot)
  parseSnapshot bytes := do
    let text ← utf8Text bytes
    let fields ← okOr (stripPrefix text "\x7b\n  \"chain_id\": 1,\n  \"height\": ")
      "expected value at line 1 column 1"
    let chain ← okOr (chains.find? fun chain => startsWith fields (toString chain.tipHeight.toNat))
      "invalid number"
    return StateSnapshot.fromChain chain
  compress bytes := bytes
  decompress bytes := .ok bytes

/-! ### Reading back -/

lemma not_mem_toString {n : ℕ} {c : Char} (h : c.isDigit = false) : c ∉ (toString n).toList := by
  intro hmem
  rw [Nat.toString_eq_ofList_toDigits, String.toList_ofList] at hmem
  rw [Nat.isDigit_of_mem_toDigits (by decide) (by decide) hmem] at h
  cases h

lemma not_mem_hexEncode {bs : Bytes} : '\n' ∉ (hexEncode bs).toList := by
  intro hmem
  obtain ⟨n, hn, heq⟩ := mem_hexEncode hmem
  revert heq
  exact (by decide : ∀ n < 16, '\n' ≠ hexDigit n) n hn

lemma not_mem_digest (n : ℕ) : '\n' ∉ (digest n).toList := not_mem_hexEncode

/-- A block without line feeds in its texts is read back where it is parsed. -/
lemma readsBack {b : Block} (hprevious : '\n' ∉ b.previousHash.toList)
    (hproducer : '\n' ∉ b.producer.toList) (hhash : '\n' ∉ b.hash.toList)
    (hparse : codec.parseBlock (codec.blockJson b) = .ok b) : codec.ReadsBack b where
  parse := hparse
  line := by
    have hheight : '\n' ∉ (toString b.height.toNat).toList := not_mem_toString rfl
    have htime : '\n' ∉ (toString b.timestamp.toNat).toList := not_mem_toString rfl
    simp only [codec, blockFields, String.toList_append, List.mem_append, not_or]
    refine ⟨by decide, hheight, ⟨⟨⟨⟨⟨⟨⟨?_, hprevious⟩, ?_⟩, htime⟩, ?_⟩, hproducer⟩, ?_⟩, hhash⟩, ?_⟩
    all_goals decide
  last := by
    simp only [codec, blockFields, String.toList_append]
    rw [← List.append_assoc, ← List.append_assoc, List.getLast?_append_of_ne_nil _ (by decide)]
    decide
  visible := by
    simp only [codec, isBlank, String.toList_append, List.all_append]
    rw [show ("\x7b\"height\":".toList.all isWhitespace) = false by decide, Bool.false_and]

lemma startsWith_char (a b : Char) (rest : String) :
    startsWith (String.ofList [a] ++ rest) (String.ofList [b]) = (b == a) := by
  rw [startsWith, String.toList_append, String.toList_ofList, String.toList_ofList]
  show (b == a && true) = _
  rw [Bool.and_true]

lemma parseBlock_eq (b : Block) : codec.parseBlock (codec.blockJson b) =
    if startsWith (blockFields b) "1" then .ok first else .ok second := by
  simp only [codec, stripPrefix_append]
  rfl

lemma readsBack_first : codec.ReadsBack first := by
  have hprevious : '\n' ∉ genesisHash.toList := not_mem_digest _
  have hproducer : '\n' ∉ validator.toList := not_mem_hexEncode
  refine readsBack hprevious hproducer (not_mem_digest _) ?_
  have hown : startsWith (blockFields first) "1" = true := startsWith_char '1' '1' _
  rw [parseBlock_eq, hown]
  rfl

lemma readsBack_second : codec.ReadsBack second := by
  have hproducer : '\n' ∉ validator.toList := not_mem_hexEncode
  refine readsBack (not_mem_digest _) hproducer (not_mem_digest _) ?_
  have hother : startsWith (blockFields second) "1" = false := startsWith_char '2' '1' _
  rw [parseBlock_eq, hother]
  rfl

lemma parseSnapshot_eq (snapshot : StateSnapshot) :
    codec.parseSnapshot (codec.snapshotJson snapshot) = (do
      let chain ← okOr (chains.find? fun chain =>
        startsWith (snapshotFields snapshot) (toString chain.tipHeight.toNat)) "invalid number"
      return StateSnapshot.fromChain chain) := by
  simp only [codec, utf8Text_textBytes]
  show (okOr (stripPrefix ("\x7b\n  \"chain_id\": 1,\n  \"height\": " ++ snapshotFields snapshot)
    "\x7b\n  \"chain_id\": 1,\n  \"height\": ") _ >>= _) = _
  rw [stripPrefix_append]
  rfl

/-- The snapshot of one of the chains is read back. -/
lemma parseSnapshot_chains {c : Blockchain} (h : c ∈ chains) :
    codec.parseSnapshot (codec.snapshotJson (StateSnapshot.fromChain c)) =
      .ok (StateSnapshot.fromChain c) := by
  have hfields : ∀ a b : Char, ∀ d : Blockchain, toString c.tipHeight.toNat = String.ofList [a] →
      toString d.tipHeight.toNat = String.ofList [b] →
      startsWith (snapshotFields (StateSnapshot.fromChain c)) (toString d.tipHeight.toNat) =
        (b == a) := by
    intro a b d ha hb
    have hheight : (StateSnapshot.fromChain c).height = c.tipHeight := rfl
    rw [snapshotFields, hheight, ha, hb, startsWith_char]
  rw [parseSnapshot_eq]
  simp only [chains, List.mem_cons, List.not_mem_nil, or_false] at h
  rw [chains, List.find?_cons, List.find?_cons, List.find?_cons]
  rcases h with rfl | rfl | rfl
  · rw [hfields '0' '0' _ rfl rfl]
    rfl
  · rw [hfields '1' '0' _ rfl rfl, hfields '1' '1' _ rfl rfl]
    rfl
  · rw [hfields '2' '0' _ rfl rfl, hfields '2' '1' _ rfl rfl, hfields '2' '2' _ rfl rfl]
    rfl

lemma snapshotsReadBack : SnapshotsReadBack codec Devnet.chain [first, second] := by
  intro earlier c hprefix hc
  apply parseSnapshot_chains
  rcases List.prefix_cons_iff.mp hprefix with rfl | ⟨rest, rfl, hrest⟩
  · cases hc
    exact List.mem_cons_self
  obtain ⟨mid, hmid, hc'⟩ := foldlM_cons_eq_ok.mp hc
  obtain rfl := Except.ok.inj (first_applies.symm.trans hmid)
  rcases List.prefix_cons_iff.mp hrest with rfl | ⟨last, rfl, hlast⟩
  · cases hc'
    exact List.mem_cons_of_mem _ List.mem_cons_self
  obtain ⟨mid', hmid', hc''⟩ := foldlM_cons_eq_ok.mp hc'
  obtain rfl := Except.ok.inj (second_applies.symm.trans hmid')
  obtain rfl := List.prefix_nil.mp hlast
  cases hc''
  exact List.mem_cons_of_mem _ (List.mem_cons_of_mem _ List.mem_cons_self)

/-! ### The run -/

lemma textLen_append (s t : String) : textLen (s ++ t) = textLen s + textLen t := by
  rw [textLen, textBytes_append, List.length_append]
  rfl

lemma textLen_recordsText (b : Block) : textLen (recordsText codec [b]) =
    (blockRecord codec b).length := by
  rw [recordsText, recordsText, String.append_empty]
  rfl

lemma length_record (b : Block) : (blockRecord codec b).length = 86 +
    (textLen (toString b.height.toNat) + textLen b.previousHash +
      textLen (toString b.timestamp.toNat) + textLen b.producer + textLen b.hash) := by
  have hrecord : (blockRecord codec b).length = textLen (codec.blockJson b ++ "\n") := rfl
  have h₁ : textLen "\x7b\"height\":" = 10 := by decide
  have h₂ : textLen ",\"previous_hash\":\"" = 18 := by decide
  have h₃ : textLen "\",\"timestamp\":" = 14 := by decide
  have h₄ : textLen ",\"producer\":\"" = 13 := by decide
  have h₅ : textLen "\",\"transactions\":[],\"hash\":\"" = 28 := by decide
  have h₆ : textLen "\"\x7d" = 2 := by decide
  have h₇ : textLen "\n" = 1 := by decide
  rw [hrecord]
  simp only [codec, blockFields, textLen_append, h₁, h₂, h₃, h₄, h₅, h₆, h₇]
  omega

lemma textLen_digest (n : ℕ) : textLen (digest n) = 64 := by
  rw [digest, textLen_hexEncode, length_beBytes]

lemma length_first : (blockRecord codec first).length = 282 := by
  have hheight : textLen (toString first.height.toNat) = 1 := by decide
  have htime : textLen (toString first.timestamp.toNat) = 3 := by decide
  have hprevious : textLen first.previousHash = 64 := textLen_digest _
  have hproducer : textLen first.producer = 64 := textLen_hexEncode _
  have hhash : textLen first.hash = 64 := textLen_digest _
  rw [length_record, hheight, htime, hprevious, hproducer, hhash]

lemma length_second : (blockRecord codec second).length = 282 := by
  have hheight : textLen (toString second.height.toNat) = 1 := by decide
  have htime : textLen (toString second.timestamp.toNat) = 3 := by decide
  have hprevious : textLen second.previousHash = 64 := textLen_digest _
  have hproducer : textLen second.producer = 64 := textLen_hexEncode _
  have hhash : textLen second.hash = 64 := textLen_digest _
  rw [length_record, hheight, htime, hprevious, hproducer, hhash]

lemma bytes_first : Shelf.bytes codec [first] = 289 := by
  have hperiod : periodFromTimestamp 100 = .ok "197001M" := by decide
  have hname : periodOf 100 = "197001M" :=
    Except.ok.inj ((periodFromTimestamp_eq 100).symm.trans hperiod)
  have hlength : textLen (periodOf 100) = 7 := by
    rw [hname]
    decide
  rw [Shelf.bytes, textLen_recordsText, length_first]
  show 282 + textLen (periodOf 100) = 289
  rw [hlength]

/-- The second block does not fit behind the first. -/
lemma full : Shelf.Full codec 300 [first] second := by
  refine ⟨first, rfl, .inr ?_⟩
  rw [bytes_first, length_second]
  decide

lemma append_first : Shelf.append codec 300 Shelf.empty first = ⟨[], [first]⟩ := by
  rw [Shelf.append, if_neg]
  · rfl
  · rintro ⟨last, hlast, _⟩
    cases hlast

lemma append_second : Shelf.append codec 300 ⟨[], [first]⟩ second = ⟨[[first]], [second]⟩ := by
  rw [Shelf.append, if_pos full]
  rfl

lemma decompress_compress (bytes : Bytes) : codec.decompress (codec.compress bytes) = .ok bytes :=
  rfl

lemma returns_append_first : Returns (appendFinalized archiveListing codec ⟨300⟩ first Devnet.chain)
    (fun _ files => ∃ bases, History codec Devnet.chain files ⟨[], [first]⟩ bases grown) ∅ := by
  have hstart := History.start codec Devnet.chain
  have hparse := parseSnapshot_chains List.mem_cons_self
  have hkeeps : wp (appendFinalized archiveListing codec ⟨300⟩ first Devnet.chain) _ _ _ :=
    hstart.append decompress_compress hparse first_applies readsBack_first
  rw [append_first] at hkeeps
  refine Returns.of_wp (hstart.returns_append rfl ?_ ?_ _) hkeeps
  · rw [length_first]
    decide
  · rw [length_first]
    decide

lemma returns_append_second {files : HashMap ArchivePlace Bytes}
    {bases : List (Block × Blockchain)}
    (h : History codec Devnet.chain files ⟨[], [first]⟩ bases grown) :
    Returns (appendFinalized archiveListing codec ⟨300⟩ second grown) (fun _ files =>
      ∃ bases, History codec Devnet.chain files ⟨[[first]], [second]⟩ bases complete) files := by
  have hparse := parseSnapshot_chains (List.mem_cons_of_mem _ List.mem_cons_self)
  have hkeeps : wp (appendFinalized archiveListing codec ⟨300⟩ second grown) _ _ _ :=
    h.append decompress_compress hparse second_applies readsBack_second
  rw [append_second] at hkeeps
  refine Returns.of_wp (h.returns_append rfl ?_ ?_ _) hkeeps
  · rw [length_second]
    decide
  · rw [bytes_first, length_second]
    decide

/-- The blocks are appended to a store with a limit of 300 bytes. -/
def run : DiskM ArchivePlace Blockchain := do
  let store ← ArchiveStore.new 300
  [first, second].foldlM (archiveBlock archiveListing codec store) Devnet.chain

lemma returns_run : Returns run
    (fun _ files => ∃ name, ((.checkpoints, name) : ArchivePlace) ∈ files) ∅ := by
  refine Returns.bind (Returns.mono (returns_new (by decide)) ?_)
  rintro store files ⟨rfl, rfl⟩
  refine Returns.bind (Returns.bind (Returns.lift first_applies ?_))
  refine Returns.bind (Returns.mono returns_append_first ?_)
  rintro - files ⟨bases, hfirst⟩
  refine Returns.pure (Returns.bind (Returns.bind (Returns.lift second_applies ?_)))
  refine Returns.bind (Returns.mono (returns_append_second hfirst) ?_)
  rintro - files ⟨bases, hsecond⟩
  refine Returns.pure (Returns.pure ⟨Shelf.tipName first, ?_⟩)
  rw [← Finmap.lookup_isSome, hsecond.checkpoint, Finmap.lookup_isSome, HashMap.mem_ofList,
    List.map_map]
  have htip : first ∈ bases.map Prod.fst := by
    rw [hsecond.tips]
    exact List.mem_cons_self
  obtain ⟨base, hbase, hfst⟩ := List.mem_map.mp htip
  exact List.mem_map.mpr ⟨base, hbase, by rw [← hfst]; rfl⟩

end TwoBlocks

attribute [local instance] Devnet.primitives in
open TwoBlocks in
/-- The second block of two makes a rollover. -/
theorem archive_history_pair : ∃ chain d', run FirstBlock.emptyDisk = (.ok chain, d') ∧
    (readBlocks archiveListing codec d'.sound).1 = .ok [Devnet.first, Devnet.second] ∧
    ∃ snapshot active restored,
      (loadLatestSnapshot archiveListing codec d'.sound).1 = .ok (some snapshot) ∧
      (loadActiveBlocks codec d'.sound).1 = .ok active ∧
      (do
        let base ← Blockchain.fromSnapshotWithEvents Devnet.chain.chainId
          Devnet.chain.genesisCommitment snapshot.height snapshot.blockHash snapshot.balances
          snapshot.nextNonces snapshot.executedEvents
        base.applyBlocks active) = .ok restored ∧
      restored.tipHash = chain.tipHash ∧ restored.stateHash = chain.stateHash := by
  obtain ⟨chain, d', hrun, -, hcheckpoint⟩ :=
    returns_run FirstBlock.emptyDisk (fun _ _ => rfl) rfl
  have hreads : ∀ block ∈ [Devnet.first, Devnet.second], codec.ReadsBack block :=
    List.forall_mem_cons.mpr ⟨readsBack_first, List.forall_mem_singleton.mpr readsBack_second⟩
  obtain ⟨hread, hrestore⟩ := archive_history archiveListing codec 300 Devnet.chain chain
    [Devnet.first, Devnet.second] FirstBlock.emptyDisk d' rfl hrun hreads snapshotsReadBack
    fun _ => rfl
  refine ⟨chain, d', hrun, hread, hrestore hcheckpoint ?_ ?_⟩
  · exact List.pairwise_pair.mpr (by decide)
  · exact List.forall_mem_cons.mpr ⟨by decide, List.forall_mem_singleton.mpr (by decide)⟩

end IeumChain
