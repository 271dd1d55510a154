import IeumChain.RestoreTheorems

/-!
# Installations that are interrupted

An installation writes to the archive and then to the state store. Where it is interrupted before
the archive holds more than it did, or after the state store has the state, a restart goes on as if
nothing had happened. In between, the block is in the archive and the node does not know, and the
block is written once more.

* `Attempt.AllOrNothing`: no interruption lies in between;
* `Recoverable`: what is kept by every such attempt and its restart;
* `crash_consistent`: so the archive has every height once. Without the condition it need not
  (`crash_duplicates`).
-/

namespace IeumChain

open Lib Lib.Disk ArchiveStore

/-- An installation: which of its file operations fail, and how its commit ends. -/
structure Attempt where
  block : Block
  faults : ℕ → Option Fault
  commit : Commit

/-- Before the record is written no block is in two files and no part of the record in one, and with
the record the state is committed. -/
def Attempt.AllOrNothing (listing : Listing ArchivePlace) (codec : ArchiveCodec)
    (store : ArchiveStore) (files : HashMap ArchivePlace Bytes) (a : Attempt) : Prop :=
  let record := blockRecord codec a.block
  let moved := store.moves files record a.block.timestamp
  let prepared := prepareOperations listing store files record a.block.timestamp
  let removed := prepared + if moved then 2 else 0
  store.maxActiveBytes.toNat < record.length ∨ (∃ i < prepared, a.faults i ≠ none) ∨
    (moved → a.faults prepared = none) ∧
      match a.faults removed with
      | some fault => fault.left.getD [] = []
      | none => a.faults (removed + 1) = none ∧ ∀ e, a.commit ≠ .lost e

/-! ## The files after an append -/

/-- The files hold some blocks. -/
def HasBlocks (codec : ArchiveCodec) (files : HashMap ArchivePlace Bytes) (blocks : List Block) :
    Prop :=
  ∃ backups active, Archived codec files backups active ∧
    Backups.blocks backups ++ active = blocks

/-- Nothing was installed: there are no checkpoints, and no bytes in the active directory. -/
structure Untouched (files : HashMap ArchivePlace Bytes) : Prop where
  checkpoints : ∀ name, ((.checkpoints, name) : ArchivePlace) ∉ files
  period : files.lookup (.active, "period") = none
  alone : ∀ place, IsOther place → files.lookup place = none
  active : sizeAt files (.active, "blocks.jsonl") = 0

lemma Untouched.empty : Untouched ∅ where
  checkpoints := fun _ => Finmap.notMem_empty
  period := rfl
  alone := fun _ _ => rfl
  active := rfl

/-- There is nothing to move away where a record fits. -/
lemma Untouched.not_moves {files : HashMap ArchivePlace Bytes} (h : Untouched files) {store : ArchiveStore}
    {record : Bytes} (hfits : record.length ≤ store.maxActiveBytes.toNat) (timestamp : UInt64) :
    store.moves files record timestamp = false := by
  have hother : otherBytes files = 0 := by
    rw [← FirstBlock.otherBytes_empty]
    exact otherBytes_congr fun place hplace => h.alone place hplace
  have hperiod : sizeAt files (.active, "period") = 0 := by
    rw [sizeAt, h.period]
    rfl
  have hbytes : bytesIn files .active = 0 := by
    rw [bytesIn_active, hother, h.active, hperiod]
  rw [moves_eq (periodFromTimestamp_eq timestamp) (storedPeriod_eq_none.mpr h.period),
    decide_eq_false, Bool.false_and]
  rintro (⟨value, hvalue, -⟩ | hlarge)
  · cases hvalue
  · rw [hbytes, Nat.zero_add] at hlarge
    exact absurd hlarge (not_lt.mpr hfits)

namespace ArchiveStore
variable {listing : Listing ArchivePlace} {codec : ArchiveCodec}
  {files : HashMap ArchivePlace Bytes} {faults : ℕ → Option Fault} {n : ℕ}

/-- The files when the record is about to be written. -/
def Opened (files : HashMap ArchivePlace Bytes) (moved : Bool)
    (before : HashMap ArchivePlace Bytes) : Prop :=
  if moved then Cleared files before else before = files

/-- The files with the record. -/
def Recorded (files : HashMap ArchivePlace Bytes) (moved : Bool) (record : Bytes) (period : String)
    (after : HashMap ArchivePlace Bytes) : Prop :=
  ∃ before, Opened files moved before ∧ after = written before record period

/-- The files without the record; the active file may have been created. -/
def Unrecorded (files : HashMap ArchivePlace Bytes) (moved : Bool)
    (after : HashMap ArchivePlace Bytes) : Prop :=
  ∃ before, Opened files moved before ∧ (after = before ∨ after =
    before.insert (.active, "blocks.jsonl") ((before.lookup (.active, "blocks.jsonl")).getD []))

/-- The rest of an append, where nothing of the record is written or all of it, and the file that
was moved is removed. -/
lemma wpFrom_finish {block : Block} {period : String} {moved : Bool}
    (hfile : moved → (files.lookup (.active, "blocks.jsonl")).isSome)
    (hremove : moved → faults n = none)
    (happend : ∀ fault, faults (n + if moved then 2 else 0) = some fault →
      fault.left.getD [] = [])
    (hwrite : faults (n + if moved then 2 else 0) = none →
      faults ((n + if moved then 2 else 0) + 1) = none) :
    wpFrom faults n (finish codec block (period, moved))
      (fun _ _ after => faults (n + if moved then 2 else 0) = none ∧
        Recorded files moved (blockRecord codec block) period after)
      (Unrecorded files moved) files := by
  -- the record is whole or not there at all, and the period follows a whole record
  have hrecord : ∀ before m, Opened files moved before → m = n + (if moved then 2 else 0) →
      wpFrom faults m (do
        Disk.append (.active, "blocks.jsonl") (blockRecord codec block)
        Disk.write (.active, "period") (textBytes period))
        (fun _ _ after => faults (n + if moved then 2 else 0) = none ∧
          Recorded files moved (blockRecord codec block) period after)
        (Unrecorded files moved) before := by
    rintro before m hbefore rfl
    refine wpFrom_bind (wpFrom_append (fun fault hfault => ?_) fun hnone => wpFrom_write
      (fun fault hfault => ?_) fun _ => ⟨hnone, before, hbefore, rfl⟩)
    · refine ⟨before, hbefore, ?_⟩
      have hleft := happend fault hfault
      cases hsome : fault.left with
      | none => exact .inl rfl
      | some left =>
        rw [hsome] at hleft
        obtain rfl : left = [] := hleft
        right
        rw [Option.map_some, Option.getD_some, List.append_nil]
    · rw [hwrite hnone] at hfault
      cases hfault
  cases moved with
  | false => exact hrecord files n rfl rfl
  | true =>
    obtain ⟨bytes, hbytes⟩ := Option.isSome_iff_exists.mp (hfile rfl)
    refine wpFrom_bind (wpFrom_remove hbytes (fun hfault => absurd (hremove rfl) hfault) fun _ => ?_)
    refine wpFrom_bind (wpFrom_attempt_remove ?_ ?_)
    · refine hrecord _ _ ⟨?_, fun place hplace hplace' => ?_⟩ rfl
      · rw [Finmap.lookup_erase_ne (by decide)]
        exact Finmap.lookup_erase _ _
      · rw [Finmap.lookup_erase_ne hplace', Finmap.lookup_erase_ne hplace]
    · exact hrecord _ _
        ⟨Finmap.lookup_erase _ _, fun place hplace _ => Finmap.lookup_erase_ne hplace⟩ rfl

end ArchiveStore

namespace Untouched
variable {files after : HashMap ArchivePlace Bytes}

/-- Only an active file without bytes may be new. -/
lemma congr (h : Untouched files) (hsame : ∀ place, place ≠ (.active, "blocks.jsonl") →
    after.lookup place = files.lookup place)
    (hactive : sizeAt after (.active, "blocks.jsonl") = 0) : Untouched after where
  checkpoints := by
    intro name
    rw [← Finmap.lookup_eq_none, hsame _ (by simp), Finmap.lookup_eq_none]
    exact h.checkpoints name
  period := (hsame _ (by simp)).trans h.period
  alone := by
    intro place hplace
    refine (hsame place ?_).trans (h.alone place hplace)
    rintro rfl
    exact hplace.2.1 rfl
  active := hactive

lemma unrecorded (h : Untouched files) (hafter : Unrecorded files false after) : Untouched after := by
  obtain ⟨before, hbefore, hafter⟩ := hafter
  obtain rfl : before = files := hbefore
  rcases hafter with rfl | rfl
  · exact h
  · refine h.congr (fun place hplace => lookup_insert_of_ne hplace _) ?_
    have hsize := h.active
    rw [sizeAt] at hsize ⊢
    rw [HashMap.lookup_insert_self]
    cases hfile : before.lookup (.active, "blocks.jsonl") with
    | none => rfl
    | some bytes =>
      rw [hfile] at hsize
      exact hsize

end Untouched

namespace HasBlocks
variable {codec : ArchiveCodec} {files prepared before after : HashMap ArchivePlace Bytes}
  {blocks : List Block}

lemma congr (h : HasBlocks codec files blocks) (hsame : SameBlocks files after) :
    HasBlocks codec after blocks := by
  obtain ⟨backups, active, harchived, hblocks⟩ := h
  exact ⟨backups, active, harchived.congr hsame, hblocks⟩

lemma written (h : HasBlocks codec files blocks) {block : Block} (hreads : codec.ReadsBack block)
    (period : String) :
    HasBlocks codec (ArchiveStore.written files (blockRecord codec block) period)
      (blocks ++ [block]) := by
  obtain ⟨backups, active, harchived, rfl⟩ := h
  exact ⟨backups, active ++ [block], harchived.written hreads period, (List.append_assoc ..).symm⟩

/-- The blocks stay, whether the active file is moved away or not. -/
lemma opened [Primitives] (h : HasBlocks codec files blocks)
    (hzstd : ∀ bytes, codec.decompress (codec.compress bytes) = .ok bytes) {store : ArchiveStore}
    {block : Block} {chain : Blockchain} {period : String} {moved : Bool}
    (hprepared : Prepared codec store files block chain (period, moved) prepared)
    (hopened : Opened prepared moved before) : HasBlocks codec before blocks := by
  obtain ⟨backups, active, harchived, rfl⟩ := h
  obtain ⟨-, -, current, -, hprepared⟩ := hprepared
  cases moved with
  | false =>
    obtain rfl : prepared = files := hprepared
    obtain rfl : before = prepared := hopened
    exact ⟨backups, active, harchived, rfl⟩
  | true =>
    obtain ⟨bytes, stem, hbytes, hfree, rfl⟩ := hprepared
    refine ⟨_, _, Archived.cleared (harchived.secured hzstd hbytes hfree) hopened, ?_⟩
    simp [Backups.blocks]

/-- The active file may be created. -/
lemma unrecorded (h : ∀ before, Opened prepared moved before → HasBlocks codec before blocks)
    (hafter : Unrecorded prepared moved after) : HasBlocks codec after blocks := by
  obtain ⟨before, hbefore, hafter⟩ := hafter
  have hholds := h before hbefore
  rcases hafter with rfl | rfl
  · exact hholds
  · obtain ⟨backups, active, harchived, hblocks⟩ := hholds
    refine ⟨backups, active, ⟨?_, .inl ?_, harchived.reads⟩, hblocks⟩
    · exact harchived.backups.congr fun name _ => lookup_insert_of_ne (by simp) _
    · rw [HashMap.lookup_insert_self, harchived.getD_lookup]

end HasBlocks

/-- **An append is all or nothing** where its attempt is, and it returns only if its first operation
did not fail. -/
lemma HasBlocks.append [Primitives] {listing : Listing ArchivePlace} {codec : ArchiveCodec}
    {files : HashMap ArchivePlace Bytes} {blocks : List Block} (h : HasBlocks codec files blocks)
    (hzstd : ∀ bytes, codec.decompress (codec.compress bytes) = .ok bytes) {store : ArchiveStore}
    {a : Attempt} {chain : Blockchain} (hreads : codec.ReadsBack a.block)
    (hwhole : a.AllOrNothing listing codec store files) :
    wpFrom a.faults 0 (appendFinalized listing codec store a.block chain)
      (fun _ _ after => a.faults 0 = none ∧ (∀ e, a.commit ≠ .lost e) ∧
        HasBlocks codec after (blocks ++ [a.block]))
      (fun after => HasBlocks codec after blocks ∧ (Untouched files → Untouched after)) files := by
  rw [appendFinalized_eq]
  refine wpFrom_bind (Takes.wpFrom (takes_mono takes_prepare (fun _ _ hq => hq) ?_) ?_)
  · rintro after (rfl | ⟨hsame, hfits, hmoves⟩)
    · exact ⟨h, id⟩
    · refine ⟨h.congr hsame, fun huntouched => ?_⟩
      rw [huntouched.not_moves hfits] at hmoves
      cases hmoves
  · rintro hclear ⟨period, moved⟩ prepared ⟨hprepared, hfits⟩
    have hmoved : moved = store.moves files (blockRecord codec a.block) a.block.timestamp :=
      hprepared.2.1
    -- the attempt got so far, so it is whole in what follows
    obtain ⟨hremove, hrest⟩ : (moved → a.faults (prepareOperations listing store files
        (blockRecord codec a.block) a.block.timestamp) = none) ∧ _ := by
      rcases hwhole with hlong | ⟨i, hi, hfault⟩ | hwhole
      · exact absurd hfits (not_le.mpr hlong)
      · rw [← Nat.zero_add i] at hfault
        exact absurd (hclear i hi) hfault
      · rw [← hmoved] at hwhole
        exact hwhole
    rw [Nat.zero_add]
    refine wpFrom_mono (wpFrom_finish ?_ hremove ?_ ?_) ?_ ?_
    · rintro rfl
      obtain ⟨-, -, current, -, bytes, stem, hbytes, -, rfl⟩ := hprepared
      rw [secured, lookup_replaced_of_ne (by simp) (by simp),
        sameBlocks_checkpointed chain _ _ (.inl rfl), hbytes]
      rfl
    · intro fault hfault
      rw [hfault] at hrest
      exact hrest
    · intro hnone
      rw [hnone] at hrest
      exact hrest.1
    · rintro - m after ⟨hnone, before, hopened, rfl⟩
      rw [hnone] at hrest
      exact ⟨hclear 0 (Nat.succ_pos _), hrest.2,
        (h.opened hzstd hprepared hopened).written hreads period⟩
    · intro after hafter
      refine ⟨HasBlocks.unrecorded (fun before => h.opened hzstd hprepared) hafter, fun huntouched => ?_⟩
      rw [huntouched.not_moves hfits] at hmoved
      rw [hmoved] at hprepared hafter
      obtain ⟨-, -, current, -, hsame⟩ := hprepared
      obtain rfl : prepared = files := hsame
      exact huntouched.unrecorded hafter

/-! ## Restarts -/

section
variable [Primitives]

omit [Primitives] in
lemma Blockchain.Alike.trans {c d e : Blockchain} (h : Alike c d) (h' : Alike d e) : Alike c e :=
  ⟨h.chainId.trans h'.chainId, h.tip.trans h'.tip, h.state.trans h'.state⟩

/-- Heights go up by one. -/
lemma Blockchain.heights_count {blocks : List Block} : ∀ {c c' : Blockchain},
    c.applyBlocks blocks = .ok c' → c'.tipHeight.toNat = c.tipHeight.toNat + blocks.length ∧
      (blocks.map fun block => block.height.toNat) =
        List.range' (c.tipHeight.toNat + 1) blocks.length := by
  induction blocks with
  | nil =>
    intro c c' h
    cases h
    exact ⟨rfl, rfl⟩
  | cons block blocks ih =>
    intro c c' h
    obtain ⟨mid, hmid, hrest⟩ := foldlM_cons_eq_ok.mp h
    obtain ⟨hheight, hnext⟩ := tipHeight_applyBlock hmid
    obtain ⟨hlast, hheights⟩ := ih hrest
    rw [hnext] at hlast hheights
    refine ⟨by rw [hlast, List.length_cons]; omega, ?_⟩
    rw [List.map_cons, hheights, List.length_cons, List.range'_succ, ← hheight, hnext]

/-- The archive holds the blocks of the chain, and the state store its state. -/
structure Recoverable (codec : ArchiveCodec) (first chain : Blockchain)
    (stored : Option CanonicalState) (files : HashMap ArchivePlace Bytes) : Prop where
  holds : ∃ blocks grown, HasBlocks codec files blocks ∧ first.applyBlocks blocks = .ok grown ∧
    grown.Alike chain
  stored : (stored = none ∧ chain = first ∧ Untouched files) ∨
    ∃ last, stored = some (.fromChain last) ∧ last.TipHashed ∧ last.Alike chain

namespace Recoverable
variable {listing : Listing ArchivePlace} {codec : ArchiveCodec} {first chain after : Blockchain}
  {stored : Option CanonicalState} {files files' : HashMap ArchivePlace Bytes}

lemma start (codec : ArchiveCodec) (first : Blockchain) : Recoverable codec first first none ∅ where
  holds := by
    obtain ⟨backups, harchived, hbackups⟩ := (History.start codec first).archived
    rw [List.map_eq_nil_iff.mp hbackups] at harchived
    exact ⟨[], first, ⟨[], [], harchived, rfl⟩, rfl, rfl, rfl, rfl⟩
  stored := .inl ⟨rfl, rfl, Untouched.empty⟩

lemma chainId (h : Recoverable codec first chain stored files) : chain.chainId = first.chainId := by
  obtain ⟨blocks, grown, -, hgrown, halike⟩ := h.holds
  rw [← halike.chainId, Blockchain.applyBlocks_eq_ok hgrown]
  rfl

/-- An append that stopped. -/
lemma stopped (h : Recoverable codec first chain stored files)
    (hholds : ∀ blocks, HasBlocks codec files blocks → HasBlocks codec files' blocks)
    (huntouched : Untouched files → Untouched files') : Recoverable codec first chain stored files' where
  holds := by
    obtain ⟨blocks, grown, hblocks, hgrown⟩ := h.holds
    exact ⟨blocks, grown, hholds blocks hblocks, hgrown⟩
  stored := h.stored.imp (fun hnone => ⟨hnone.1, hnone.2.1, huntouched hnone.2.2⟩) id

/-- An append with its commit. -/
lemma installed (h : Recoverable codec first chain stored files) {block : Block}
    (happly : chain.applyBlock block = .ok after)
    (hholds : ∀ blocks, HasBlocks codec files blocks → HasBlocks codec files' (blocks ++ [block])) :
    Recoverable codec first after (some (.fromChain after)) files' where
  holds := by
    obtain ⟨blocks, grown, hblocks, hgrown, halike⟩ := h.holds
    obtain ⟨next, hnext, halike'⟩ := halike.symm.applyBlock_eq_ok happly
    refine ⟨blocks ++ [block], next, hholds blocks hblocks, ?_, halike'.symm⟩
    exact Blockchain.applyBlocks_concat_eq_ok.mpr ⟨grown, hgrown, hnext⟩
  stored := .inr ⟨after, rfl, Blockchain.tipHashed_applyBlock happly, rfl, rfl, rfl⟩

/-- A chain like the one that was lost. -/
lemma congr (h : Recoverable codec first chain stored files) {restored : Blockchain}
    (halike : chain.Alike restored) (hnone : stored = none → restored = first) :
    Recoverable codec first restored stored files where
  holds := by
    obtain ⟨blocks, grown, hblocks, hgrown, halike'⟩ := h.holds
    exact ⟨blocks, grown, hblocks, hgrown, halike'.trans halike⟩
  stored := by
    rcases h.stored with ⟨hstored, -, huntouched⟩ | ⟨last, hstored, hhashed, halike'⟩
    · exact .inl ⟨hstored, hnone hstored, huntouched⟩
    · exact .inr ⟨last, hstored, hhashed, halike'.trans halike⟩

/-- What is restored is the chain. -/
lemma returns_restore (h : Recoverable codec first chain stored files) :
    Returns (RpcServer.restore listing codec first stored) (fun found after =>
      (chain.Alike found ∧ (stored = none → found = first)) ∧ after = files) files := by
  rcases h.stored with ⟨rfl, rfl, huntouched⟩ | ⟨last, rfl, hhashed, halike⟩
  · refine Returns.bind (Returns.lift rfl (Returns.bind
      (Returns.mono (returns_loadLatestSnapshot_none huntouched.checkpoints) ?_)))
    rintro _ after ⟨rfl, hafter⟩
    exact Returns.pure ⟨⟨⟨rfl, rfl, rfl⟩, fun _ => rfl⟩, hafter⟩
  · obtain ⟨restored, hrestored, hsame⟩ := hhashed.restore first.genesisCommitment
    have hid : last.chainId = first.chainId := halike.chainId.trans h.chainId
    have hid' : (StateSnapshot.fromChain last).chainId = first.chainId := hid
    rw [hid'] at hrestored
    have hload : StateStore.load (some (.fromChain last)) = .ok (some (.fromChain last)) := rfl
    have hroot : restored.stateHash = (CanonicalState.fromChain last).stateRoot :=
      hsame.symm.stateHash_eq
    refine Returns.bind (Returns.lift hload ?_)
    refine Returns.bind (Returns.lift (a := ()) (ensure_eq_ok.mpr hid) ?_)
    refine Returns.bind (Returns.lift hrestored ?_)
    refine Returns.bind (Returns.lift (a := ()) (ensure_eq_ok.mpr hroot) ?_)
    refine Returns.pure ⟨⟨?_, ?_⟩, rfl⟩
    · exact halike.symm.trans hsame
    · rintro ⟨⟩

/-- **A restart goes on** with a chain like the one that was lost. -/
lemma returns_new (h : Recoverable codec first chain stored files) {maxActiveBytes : UInt64}
    (hmax : maxActiveBytes ≠ 0 ∧ maxActiveBytes ≤ 100000000) :
    Returns (RpcServer.new listing codec maxActiveBytes first stored) (fun state after =>
      state.archive = ⟨maxActiveBytes⟩ ∧ state.stored = stored ∧ chain.Alike state.chain ∧
        Recoverable codec first state.chain stored after) files := by
  refine Returns.bind (Returns.mono (IeumChain.returns_new hmax) ?_)
  rintro store after ⟨rfl, hafter⟩
  rw [hafter]
  refine Returns.bind (Returns.mono h.returns_restore ?_)
  rintro found after ⟨⟨halike, hnone⟩, rfl⟩
  exact Returns.pure ⟨rfl, rfl, halike, h.congr halike hnone⟩

end Recoverable

/-! ## Runs -/

namespace RpcServer

/-- Where an installation does not succeed the process ends, and the node starts again. -/
def goOn (listing : Listing ArchivePlace) (codec : ArchiveCodec) (first : Blockchain)
    (answer : (Result Unit × State) × Disk ArchivePlace) :
    Result (State × HashMap ArchivePlace Bytes) :=
  match answer.1.1 with
  | .ok _ => return (answer.1.2, answer.2.files)
  | .error _ => do
    let restart := RpcServer.new listing codec answer.1.2.archive.maxActiveBytes first
      answer.1.2.stored answer.2.sound
    let state ← restart.1
    return (state, restart.2.files)

/-- A block that follows the chain is to be installed. -/
def attemptInstall (listing : Listing ArchivePlace) (codec : ArchiveCodec) (first : Blockchain)
    (node : State × HashMap ArchivePlace Bytes) (a : Attempt) :
    Result (State × HashMap ArchivePlace Bytes) := do
  let after ← node.1.chain.applyBlock a.block
  goOn listing codec first (installFinalized listing codec a.commit node.1 node.1.chain after
    a.block ⟨node.2, a.faults, 0, []⟩)

/-- An attempt is an installation and what follows it. -/
lemma attemptInstall_eq {listing : Listing ArchivePlace} {codec : ArchiveCodec}
    {first after : Blockchain} {node : State × HashMap ArchivePlace Bytes} {a : Attempt}
    (happly : node.1.chain.applyBlock a.block = .ok after) :
    attemptInstall listing codec first node a =
      goOn listing codec first (installFinalized listing codec a.commit node.1 node.1.chain after
        a.block ⟨node.2, a.faults, 0, []⟩) := by
  rw [attemptInstall, happly]
  rfl

section
variable {listing : Listing ArchivePlace} {codec : ArchiveCodec} {first after : Blockchain}
  {node : State × HashMap ArchivePlace Bytes} {a : Attempt}

/-- After an attempt that is all or nothing, the files and the state store are consistent with the
chain before the block or with that after it. -/
lemma installFinalized_recoverable
    (h : Recoverable codec first node.1.chain node.1.stored node.2)
    (hzstd : ∀ bytes, codec.decompress (codec.compress bytes) = .ok bytes)
    (hreads : codec.ReadsBack a.block) (happly : node.1.chain.applyBlock a.block = .ok after)
    (hwhole : a.AllOrNothing listing codec node.1.archive node.2) :
    let answer := installFinalized listing codec a.commit node.1 node.1.chain after a.block
      ⟨node.2, a.faults, 0, []⟩
    answer.1.2.archive = node.1.archive ∧ ∃ chain,
      (chain = node.1.chain ∨ chain = after ∧ a.faults 0 = none) ∧
      Recoverable codec first chain answer.1.2.stored answer.2.files ∧
      (answer.1.1 = .ok () → chain = answer.1.2.chain) := by
  have hspec := fun blocks (hblocks : HasBlocks codec node.2 blocks) =>
    @HasBlocks.append _ listing codec node.2 blocks hblocks hzstd node.1.archive a node.1.chain hreads
      hwhole ⟨node.2, a.faults, 0, []⟩ rfl rfl rfl
  obtain ⟨blocks, grown, hblocks, -⟩ := h.holds
  unfold installFinalized
  cases happend : appendFinalized listing codec node.1.archive a.block node.1.chain
    ⟨node.2, a.faults, 0, []⟩ with
  | mk result d =>
    simp only [happend] at hspec
    cases result with
    | error e =>
      refine ⟨rfl, _, .inl rfl, h.stopped (fun blocks hblocks => ?_) ?_, by rintro ⟨⟩⟩
      · exact ((hspec blocks hblocks).2 e rfl).1
      · exact ((hspec blocks hblocks).2 e rfl).2
    | ok u =>
      have hinstalled := h.installed happly fun blocks hblocks =>
        ((hspec blocks hblocks).1 () rfl).2.2.2
      obtain ⟨-, hfirst, hcommitted, -⟩ := (hspec blocks hblocks).1 () rfl
      cases hcommit : a.commit with
      | lost e => exact absurd hcommit (hcommitted e)
      | kept e => exact ⟨rfl, _, .inr ⟨rfl, hfirst⟩, hinstalled, by rintro ⟨⟩⟩
      | done => exact ⟨rfl, _, .inr ⟨rfl, hfirst⟩, hinstalled, fun _ => rfl⟩

/-- The node goes on after such an attempt, whether the block was installed or not. -/
lemma attemptInstall_recoverable
    (h : Recoverable codec first node.1.chain node.1.stored node.2)
    (hzstd : ∀ bytes, codec.decompress (codec.compress bytes) = .ok bytes)
    (hmax : node.1.archive.maxActiveBytes ≠ 0 ∧ node.1.archive.maxActiveBytes ≤ 100000000)
    (hreads : codec.ReadsBack a.block) (happly : node.1.chain.applyBlock a.block = .ok after)
    (hwhole : a.AllOrNothing listing codec node.1.archive node.2) :
    ∃ next, attemptInstall listing codec first node a = .ok next ∧
      next.1.archive = node.1.archive ∧
      Recoverable codec first next.1.chain next.1.stored next.2 ∧
      ∃ chain, (chain = node.1.chain ∨ chain = after ∧ a.faults 0 = none) ∧
        chain.Alike next.1.chain := by
  obtain ⟨harchive, chain, hchain, hrecoverable, hdone⟩ :=
    installFinalized_recoverable h hzstd hreads happly hwhole
  rw [attemptInstall_eq happly]
  generalize installFinalized listing codec a.commit node.1 node.1.chain after a.block
    ⟨node.2, a.faults, 0, []⟩ = answer at harchive hrecoverable hdone ⊢
  rw [← harchive] at hmax ⊢
  cases hresult : answer.1.1 with
  | ok u =>
    obtain rfl := hdone hresult
    refine ⟨(answer.1.2, answer.2.files), ?_, rfl, hrecoverable, _, hchain, rfl, rfl, rfl⟩
    rw [goOn, hresult]
    rfl
  | error e =>
    obtain ⟨state, d, hnew, -, hstore, hstored, halike, hnext⟩ :=
      @Recoverable.returns_new _ listing _ _ _ _ _ hrecoverable _ hmax answer.2.sound
        (sound_sound _) rfl
    rw [← hstored] at hnext
    refine ⟨(state, d.files), ?_, hstore, hnext, chain, hchain, halike⟩
    simp only [goOn, hresult, hnew]
    rfl

/-- **Every run of such attempts keeps archive and state store consistent.** -/
lemma run_recoverable {start : State × HashMap ArchivePlace Bytes} {attempts : List Attempt}
    (h : Recoverable codec first start.1.chain start.1.stored start.2)
    (hzstd : ∀ bytes, codec.decompress (codec.compress bytes) = .ok bytes)
    (hmax : start.1.archive.maxActiveBytes ≠ 0 ∧ start.1.archive.maxActiveBytes ≤ 100000000)
    (hreads : ∀ a ∈ attempts, codec.ReadsBack a.block)
    (hwhole : Along (fun before a => ∀ node,
      before.foldlM (attemptInstall listing codec first) start = .ok node →
        a.AllOrNothing listing codec node.1.archive node.2) attempts) :
    ∀ {node}, attempts.foldlM (attemptInstall listing codec first) start = .ok node →
      node.1.archive = start.1.archive ∧
        Recoverable codec first node.1.chain node.1.stored node.2 := by
  induction attempts using List.reverseRecOn with
  | nil =>
    intro node hrun
    obtain rfl : start = node := Except.ok.inj hrun
    exact ⟨rfl, h⟩
  | append_singleton attempts a ih =>
    intro node hrun
    obtain ⟨hbefore, hlast⟩ := along_concat.mp hwhole
    rw [List.foldlM_append] at hrun
    obtain ⟨mid, hmid, hrest⟩ := bind_eq_ok.mp hrun
    obtain ⟨last, hstep, hend⟩ := foldlM_cons_eq_ok.mp hrest
    obtain rfl : last = node := Except.ok.inj hend
    obtain ⟨harchive, hrecoverable⟩ :=
      ih (fun b hb => hreads b (List.mem_append_left _ hb)) hbefore hmid
    obtain ⟨after, happly, -⟩ := bind_eq_ok.mp hstep
    rw [← harchive] at hmax
    obtain ⟨next, hnext, harchive', hrecoverable', -⟩ := attemptInstall_recoverable hrecoverable hzstd
      hmax (hreads a (by simp)) happly (hlast mid hmid)
    obtain rfl : next = last := Except.ok.inj (hnext.symm.trans hstep)
    exact ⟨harchive'.trans harchive, hrecoverable'⟩

end

end RpcServer

open RpcServer in
/-- **Interrupted installations** leave every height in the archive once, as long as each is all or
nothing: the backups and then the active file are the blocks of the chain, and a restart is at its
tip. -/
theorem crash_consistent (listing : Listing ArchivePlace) (codec : ArchiveCodec)
    (maxActiveBytes : UInt64) (first : Blockchain) (attempts : List Attempt) (start : State)
    (node : State × HashMap ArchivePlace Bytes) (d d₀ : Disk ArchivePlace) (hempty : d.files = ∅)
    (hnew : RpcServer.new listing codec maxActiveBytes first none d = (.ok start, d₀))
    (hrun : attempts.foldlM (attemptInstall listing codec first) (start, d₀.files) = .ok node)
    (hjson : ∀ a ∈ attempts, codec.ReadsBack a.block)
    (hzstd : ∀ bytes, codec.decompress (codec.compress bytes) = .ok bytes)
    (hwhole : Along (fun before a => ∀ node,
      before.foldlM (attemptInstall listing codec first) (start, d₀.files) = .ok node →
        a.AllOrNothing listing codec node.1.archive node.2) attempts) :
    (∃ blocks, (readBlocks listing codec ⟨node.2, fun _ => none, 0, []⟩).1 = .ok blocks ∧
      (blocks.map fun block => block.height.toNat) = List.range' (first.tipHeight.toNat + 1)
        (node.1.chain.tipHeight.toNat - first.tipHeight.toNat) ∧
      ∃ grown, first.applyBlocks blocks = .ok grown ∧ grown.tipHash = node.1.chain.tipHash) ∧
    ∃ restarted, (RpcServer.new listing codec maxActiveBytes first node.1.stored
        ⟨node.2, fun _ => none, 0, []⟩).1 = .ok restarted ∧
      restarted.chain.tipHeight = node.1.chain.tipHeight ∧
      restarted.chain.tipHash = node.1.chain.tipHash := by
  obtain ⟨hmax, hstore, hchain, hstored, hfiles⟩ := new_eq_of_empty hempty hnew
  have hstart : Recoverable codec first start.chain start.stored d₀.files := by
    rw [hchain, hstored, hfiles]
    exact Recoverable.start codec first
  have hlimit : start.archive.maxActiveBytes = maxActiveBytes := by rw [hstore]
  -- every attempt that returned left the node recoverable, through its crash or not
  obtain ⟨-, h⟩ := run_recoverable hstart hzstd (by rw [hlimit]; exact hmax) hjson hwhole hrun
  constructor
  · obtain ⟨blocks, grown, ⟨backups, active, harchived, hblocks⟩, hgrown, halike⟩ := h.holds
    obtain ⟨htip, hheights⟩ := Blockchain.heights_count hgrown
    have hrise : (Backups.blocks backups).Pairwise fun a b => a.height < b.height := by
      have hall := (Blockchain.heights_rise hgrown).2
      rw [← hblocks] at hall
      exact (List.pairwise_append.mp hall).1
    rw [halike.tipHeight_eq] at htip
    refine ⟨blocks, ?_, ?_, grown, hgrown, halike.tipHash_eq⟩
    · rw [← hblocks]
      exact readBlocks_eq harchived hrise fun _ _ => rfl
    · rw [hheights, htip, Nat.add_sub_cancel_left]
  · obtain ⟨restarted, d', hrestarted, -, -, -, halike, -⟩ :=
      @Recoverable.returns_new _ listing _ _ _ _ _ h _ hmax ⟨node.2, fun _ => none, 0, []⟩
        (fun _ _ => rfl) rfl
    exact ⟨restarted, congrArg Prod.fst hrestarted, halike.symm.tipHeight_eq,
      halike.symm.tipHash_eq⟩

end

/-! ## One block -/

namespace RpcServer.TwoBlocks
open IeumChain.TwoBlocks

attribute [local instance] Devnet.primitives

/-- The first block is appended, and the state is not committed. -/
def lost : Attempt := ⟨Devnet.first, fun _ => none, .lost "No space left on device (os error 28)"⟩

/-- The first block is installed. -/
def done : Attempt := ⟨Devnet.first, fun _ => none, .done⟩

/-- The process ends before its first operation. -/
def crashed : Attempt := ⟨Devnet.first, fun _ => some ⟨"", none⟩, .done⟩

/-- The block is in the archive, and the node starts before it. -/
lemma attemptInstall_lost {start : State} (harchive : start.archive = ⟨300⟩)
    (hchain : start.chain = Devnet.chain) (hstored : start.stored = none) :
    ∃ node bases, attemptInstall archiveListing codec Devnet.chain (start, ∅) lost = .ok node ∧
      (node.1.archive = ⟨300⟩ ∧ node.1.chain = Devnet.chain) ∧
      History codec Devnet.chain node.2 ⟨[], [Devnet.first]⟩ bases grown := by
  have happly : start.chain.applyBlock lost.block = .ok grown := by
    rw [hchain]
    exact Devnet.first_applies
  obtain ⟨_, d, happend, -, bases, h⟩ :=
    returns_append_first ⟨∅, fun _ => none, 0, []⟩ (fun _ _ => rfl) rfl
  have hnone := h
  rw [List.map_eq_nil_iff.mp h.tips] at hnone
  obtain ⟨restarted, d', hrestarted, -, hstore, hfirst, hfiles⟩ :=
    returns_start hnone d.sound (sound_sound d) rfl
  rw [← harchive, ← hchain] at happend
  have hanswer : installFinalized archiveListing codec lost.commit start start.chain grown lost.block
      ⟨∅, lost.faults, 0, []⟩ = ((.error "No space left on device (os error 28)", start), d) := by
    simp only [installFinalized, lost, happend]
  refine ⟨(restarted, d'.files), bases, ?_, ⟨hstore, hfirst⟩, ?_⟩
  · rw [attemptInstall_eq happly, hanswer]
    simp only [goOn, harchive, hstored, hrestarted]
    rfl
  · show History _ _ d'.files _ _ _
    rw [hfiles]
    exact h

/-- The block is written again, behind itself. -/
lemma attemptInstall_done {node : State × HashMap ArchivePlace Bytes}
    {bases : List (Block × Blockchain)} (harchive : node.1.archive = ⟨300⟩)
    (hchain : node.1.chain = Devnet.chain)
    (h : History codec Devnet.chain node.2 ⟨[], [Devnet.first]⟩ bases grown) :
    ∃ next, attemptInstall archiveListing codec Devnet.chain node done = .ok next ∧
      next.1.chain.tipHeight = 1 ∧
      (readBlocks archiveListing codec ⟨next.2, fun _ => none, 0, []⟩).1 =
        .ok [Devnet.first, Devnet.first] := by
  have happly : node.1.chain.applyBlock done.block = .ok grown := by
    rw [hchain]
    exact Devnet.first_applies
  obtain ⟨backed, harchived, hparts⟩ := h.archived
  have hbacked : Backups.blocks backed = [] := by
    rw [Backups.blocks, List.flatMap_def, hparts]
    rfl
  have hreturns : Returns (appendFinalized archiveListing codec ⟨300⟩ Devnet.first Devnet.chain)
      (fun _ _ => True) node.2 := by
    refine h.returns_append rfl ?_ ?_ _
    · rw [length_first]
      decide
    · rw [bytes_first, length_first]
      decide
  obtain ⟨_, d, happend, -, hafter⟩ := Returns.of_wp hreturns
    (harchived.append decompress_compress readsBack_first) ⟨node.2, fun _ => none, 0, []⟩
    (fun _ _ => rfl) rfl
  rw [← harchive, ← hchain] at happend
  have hanswer : installFinalized archiveListing codec done.commit node.1 node.1.chain grown
      done.block ⟨node.2, done.faults, 0, []⟩ = ((.ok (), node.1.installed grown), d) := by
    simp only [installFinalized, done, happend]
  have hrun : attemptInstall archiveListing codec Devnet.chain node done =
      .ok (node.1.installed grown, d.files) := by
    rw [attemptInstall_eq happly, hanswer]
    rfl
  refine ⟨_, hrun, rfl, ?_⟩
  split at hafter
  · -- with a rollover: the first block is in a backup
    obtain ⟨name, -, hafter⟩ := hafter
    have hblocks : Backups.blocks (backed ++ [(name, [Devnet.first])]) = [Devnet.first] := by
      rw [Backups.blocks, List.flatMap_append, ← Backups.blocks, hbacked]
      rfl
    have hread : (readBlocks archiveListing codec ⟨d.files, fun _ => none, 0, []⟩).1 = _ :=
      readBlocks_eq hafter (by rw [hblocks]; exact List.pairwise_singleton _ _) fun _ _ => rfl
    rw [hread, hblocks]
    rfl
  · -- without one: both are in the active file
    have hread : (readBlocks archiveListing codec ⟨d.files, fun _ => none, 0, []⟩).1 = _ :=
      readBlocks_eq hafter (by rw [hbacked]; exact List.Pairwise.nil) fun _ _ => rfl
    rw [hread, hbacked]
    rfl

end RpcServer.TwoBlocks

open RpcServer RpcServer.TwoBlocks IeumChain.TwoBlocks

attribute [local instance] Devnet.primitives

/-- A block whose commit fails is installed once more after the restart, and it is in the archive
twice. -/
theorem crash_duplicates : ∃ start d₀ node,
    RpcServer.new archiveListing codec 300 Devnet.chain none FirstBlock.emptyDisk = (.ok start, d₀) ∧
    [lost, done].foldlM (attemptInstall archiveListing codec Devnet.chain) (start, d₀.files) =
      .ok node ∧ node.1.chain.tipHeight = 1 ∧
    (readBlocks archiveListing codec ⟨node.2, fun _ => none, 0, []⟩).1 =
      .ok [Devnet.first, Devnet.first] := by
  obtain ⟨start, d₀, hnew, -⟩ := returns_start (History.start codec Devnet.chain)
    FirstBlock.emptyDisk (fun _ _ => rfl) rfl
  obtain ⟨-, harchive, hchain, hstored, hfiles⟩ := new_eq_of_empty rfl hnew
  obtain ⟨mid, bases, hmid, ⟨harchive', hchain'⟩, h⟩ :=
    attemptInstall_lost harchive hchain hstored
  obtain ⟨node, hnode, hheight, hread⟩ := attemptInstall_done harchive' hchain' h
  refine ⟨start, d₀, node, hnew, ?_, hheight, hread⟩
  rw [hfiles]
  exact foldlM_cons_eq_ok.mpr ⟨mid, hmid, foldlM_cons_eq_ok.mpr ⟨node, hnode, rfl⟩⟩

/-- A node that crashes while it installs the first block installs it after the restart. -/
theorem crash_consistent_first : ∃ start d₀ node,
    RpcServer.new archiveListing codec 300 Devnet.chain none FirstBlock.emptyDisk = (.ok start, d₀) ∧
    [crashed, done].foldlM (attemptInstall archiveListing codec Devnet.chain) (start, d₀.files) =
      .ok node ∧
    (∃ blocks, (readBlocks archiveListing codec ⟨node.2, fun _ => none, 0, []⟩).1 = .ok blocks ∧
      (blocks.map fun block => block.height.toNat) =
        List.range' (Devnet.chain.tipHeight.toNat + 1)
          (node.1.chain.tipHeight.toNat - Devnet.chain.tipHeight.toNat) ∧
      ∃ grown, Devnet.chain.applyBlocks blocks = .ok grown ∧
        grown.tipHash = node.1.chain.tipHash) ∧
    ∃ restarted, (RpcServer.new archiveListing codec 300 Devnet.chain node.1.stored
        ⟨node.2, fun _ => none, 0, []⟩).1 = .ok restarted ∧
      restarted.chain.tipHeight = node.1.chain.tipHeight ∧
      restarted.chain.tipHash = node.1.chain.tipHash := by
  obtain ⟨start, d₀, hnew, -⟩ := returns_start (History.start codec Devnet.chain)
    FirstBlock.emptyDisk (fun _ _ => rfl) rfl
  obtain ⟨hmax, harchive, hchain, hstored, hfiles⟩ := new_eq_of_empty rfl hnew
  have hstart : Recoverable codec Devnet.chain start.chain start.stored d₀.files := by
    rw [hchain, hstored, hfiles]
    exact Recoverable.start codec Devnet.chain
  have hcrashed : ∀ store files, crashed.AllOrNothing archiveListing codec store files :=
    fun store files => .inr (.inl ⟨0, Nat.succ_pos _, Option.some_ne_none _⟩)
  have hdone : ∀ store files, done.AllOrNothing archiveListing codec store files :=
    fun store files => .inr (.inr ⟨fun _ => rfl, rfl, by rintro e ⟨⟩⟩)
  have hlimit : start.archive.maxActiveBytes ≠ 0 ∧ start.archive.maxActiveBytes ≤ 100000000 := by
    rw [harchive]
    exact hmax
  have happly : start.chain.applyBlock crashed.block = .ok grown := by
    rw [hchain]
    exact Devnet.first_applies
  obtain ⟨mid, hmid, harchive', hmidRecoverable, chain, hsame, halike⟩ :=
    @attemptInstall_recoverable _ archiveListing codec Devnet.chain grown (start, d₀.files) crashed
      hstart decompress_compress hlimit readsBack_first happly (hcrashed _ _)
  -- the first operation failed, so the block was not installed
  have hchain' : chain = start.chain := hsame.resolve_right fun h => Option.some_ne_none _ h.2
  rw [hchain'] at halike
  obtain ⟨after, happly', -⟩ := halike.applyBlock_eq_ok happly
  rw [← harchive'] at hlimit
  obtain ⟨node, hnode, -⟩ := @attemptInstall_recoverable _ archiveListing codec Devnet.chain after mid
    done hmidRecoverable decompress_compress hlimit readsBack_first happly' (hdone _ _)
  have hrun : [crashed, done].foldlM (attemptInstall archiveListing codec Devnet.chain)
      (start, d₀.files) = .ok node :=
    foldlM_cons_eq_ok.mpr ⟨mid, hmid, foldlM_cons_eq_ok.mpr ⟨node, hnode, rfl⟩⟩
  have hreads : ∀ a ∈ [crashed, done], codec.ReadsBack a.block :=
    List.forall_mem_cons.mpr ⟨readsBack_first, List.forall_mem_singleton.mpr readsBack_first⟩
  refine ⟨start, d₀, node, hnew, hrun, crash_consistent archiveListing codec 300 Devnet.chain
    [crashed, done] start node FirstBlock.emptyDisk d₀ rfl hnew hrun hreads decompress_compress ?_⟩
  rw [show [crashed, done] = ([] ++ [crashed]) ++ [done] from rfl, along_concat, along_concat]
  exact ⟨⟨along_nil _, fun _ _ => hcrashed _ _⟩, fun _ _ => hdone _ _⟩

end IeumChain
