import IeumChain.LimitTheorems

/-!
# The blocks in the files of the archive

The active file and every backup hold the lines of some blocks. `Backups` says which blocks the
backups hold, whatever else is in the directory.

* `returns_readBackupBlocks`: `read_backup_blocks` gives all of them, by height;
* `takes_rollover`: a rollover adds the blocks of the active file as a backup of their own
  (`Backups.add`), or it stops before any backup is changed.
-/

namespace IeumChain

open Lib Lib.Disk

/-! ## Lines -/

/-- The line of a block is read as the block. -/
structure ArchiveCodec.ReadsBack (codec : ArchiveCodec) (block : Block) : Prop where
  parse : codec.parseBlock (codec.blockJson block) = .ok block
  line : '\n' ∉ (codec.blockJson block).toList
  last : (codec.blockJson block).toList.getLast? ≠ some '\r'
  visible : isBlank (codec.blockJson block) = false

/-- The lines of some blocks. -/
def recordsText (codec : ArchiveCodec) : List Block → String
  | [] => ""
  | block :: blocks => codec.blockJson block ++ "\n" ++ recordsText codec blocks

lemma recordsText_append (codec : ArchiveCodec) (blocks more : List Block) :
    recordsText codec (blocks ++ more) = recordsText codec blocks ++ recordsText codec more := by
  induction blocks with
  | nil => exact (String.empty_append).symm
  | cons block blocks ih =>
    rw [List.cons_append, recordsText, recordsText, ih]
    exact String.append_assoc.symm

/-- One more record behind the others. -/
lemma textBytes_recordsText_concat (codec : ArchiveCodec) (blocks : List Block) (block : Block) :
    textBytes (recordsText codec (blocks ++ [block])) =
      textBytes (recordsText codec blocks) ++ ArchiveStore.blockRecord codec block := by
  rw [recordsText_append, textBytes_append, ArchiveStore.blockRecord]
  congr 2
  exact String.append_empty

/-- The lines of blocks are read as the blocks. -/
lemma parseLines_recordsText {codec : ArchiveCodec} {blocks : List Block}
    (h : ∀ block ∈ blocks, codec.ReadsBack block) :
    ArchiveStore.parseLines codec (recordsText codec blocks) = .ok blocks := by
  induction blocks with
  | nil => rfl
  | cons block blocks ih =>
    obtain ⟨hblock, hrest⟩ := List.forall_mem_cons.mp h
    have hparse := ih hrest
    have hfilter : (codec.blockJson block :: lines (recordsText codec blocks)).filter
        (fun line => !isBlank line) = codec.blockJson block ::
          (lines (recordsText codec blocks)).filter fun line => !isBlank line := by
      rw [List.filter_cons, hblock.visible]
      rfl
    unfold ArchiveStore.parseLines at hparse ⊢
    rw [recordsText, lines_append hblock.line hblock.last, hfilter, List.mapM_cons, hblock.parse,
      hparse]
    rfl

/-! ## Names -/

/-- A file of the backups that is read. -/
def isBackup (name : String) : Bool := endsWith name ".jsonl" || endsWith name ".jsonl.zst"

lemma isBackup_append (stem : String) : isBackup (stem ++ ".jsonl.zst") = true := by
  have hend : endsWith (stem ++ ".jsonl.zst") ".jsonl.zst" = true := by
    rw [endsWith, List.isSuffixOf_iff_suffix, String.toList_append]
    exact List.suffix_append _ _
  rw [isBackup, hend, Bool.or_true]

/-- The name beside that of a backup. -/
def temporaryName (name : String) : String := Path.fileStem name ++ ".tmp"

/-- A name that ends in `l` or in `t` does not end in `p`. -/
lemma isBackup_temporaryName (name : String) : isBackup (temporaryName name) = false := by
  have hlast : (temporaryName name).toList.getLast? = some 'p' := by
    rw [temporaryName, String.toList_append, List.getLast?_append_of_ne_nil _ (by decide)]
    rfl
  have hnot : ∀ post : String, post.toList ≠ [] → post.toList.getLast? ≠ some 'p' →
      endsWith (temporaryName name) post = false := by
    intro post hne hpost
    rw [endsWith, ← Bool.not_eq_true, List.isSuffixOf_iff_suffix]
    rintro ⟨front, hfront⟩
    rw [← hfront, List.getLast?_append_of_ne_nil _ hne] at hlast
    exact hpost hlast
  rw [isBackup, hnot ".jsonl" (by decide) (by decide), hnot ".jsonl.zst" (by decide) (by decide)]
  rfl

lemma extension_backup (stem : String) : Path.extension (stem ++ ".jsonl.zst") = some "zst" := by
  have hchars : stem ++ ".jsonl.zst" =
      String.ofList ((stem ++ ".jsonl").toList ++ '.' :: ['z', 's', 't']) := by
    rw [← String.toList_inj, String.toList_ofList, String.toList_append, String.toList_append,
      List.append_assoc]
    rfl
  rw [hchars]
  apply Path.extension_append
  · rw [String.toList_append]
    exact List.append_ne_nil_of_right_ne_nil _ (by decide)
  · decide

/-! ## Backups -/

/-- The text of a backup with some bytes. -/
def backupText (codec : ArchiveCodec) (name : String) (bytes : Bytes) : Result String :=
  if Path.extension name = some "zst" then do
    let plain ← codec.decompress bytes
    utf8Text plain
  else utf8Text bytes

/-- The files of the backups, each with the blocks of its lines. -/
structure Backups (codec : ArchiveCodec) (files : HashMap ArchivePlace Bytes)
    (backups : List (String × List Block)) : Prop where
  nodup : (backups.map Prod.fst).Nodup
  mem_iff : ∀ name, isBackup name →
    (((.backup, name) : ArchivePlace) ∈ files ↔ name ∈ backups.map Prod.fst)
  isBackup : ∀ backup ∈ backups, isBackup backup.1
  text : ∀ backup ∈ backups, ∃ bytes, files.lookup (.backup, backup.1) = some bytes ∧
    backupText codec backup.1 bytes = .ok (recordsText codec backup.2)
  reads : ∀ backup ∈ backups, ∀ block ∈ backup.2, codec.ReadsBack block

namespace Backups
variable {codec : ArchiveCodec} {files after : HashMap ArchivePlace Bytes}
  {backups : List (String × List Block)}

/-- The blocks of all backups. -/
def blocks (backups : List (String × List Block)) : List Block := backups.flatMap Prod.snd

/-- What is no backup may change. -/
lemma congr (h : Backups codec files backups)
    (hsame : ∀ name, IeumChain.isBackup name →
      after.lookup (.backup, name) = files.lookup (.backup, name)) :
    Backups codec after backups where
  nodup := h.nodup
  mem_iff := by
    intro name hname
    rw [← Finmap.lookup_isSome, hsame name hname, Finmap.lookup_isSome, h.mem_iff name hname]
  isBackup := h.isBackup
  text := by
    intro backup hmem
    rw [hsame backup.1 (h.isBackup backup hmem)]
    exact h.text backup hmem
  reads := h.reads

/-- One more backup. -/
lemma add (h : Backups codec files backups) {name : String} {bytes : Bytes} {more : List Block}
    (hname : IeumChain.isBackup name) (hfree : files.lookup (.backup, name) = none)
    (hstored : after.lookup (.backup, name) = some bytes)
    (htext : backupText codec name bytes = .ok (recordsText codec more))
    (hreads : ∀ block ∈ more, codec.ReadsBack block)
    (hsame : ∀ other, other ≠ name → IeumChain.isBackup other →
      after.lookup (.backup, other) = files.lookup (.backup, other)) :
    Backups codec after (backups ++ [(name, more)]) := by
  have hnew : name ∉ backups.map Prod.fst := by
    rw [← h.mem_iff name hname]
    exact Finmap.lookup_eq_none.mp hfree
  have hother : ∀ backup ∈ backups, backup.1 ≠ name := by
    rintro backup hmem rfl
    exact hnew (List.mem_map_of_mem hmem)
  constructor
  · rw [List.map_append, List.nodup_append]
    refine ⟨h.nodup, List.nodup_singleton _, ?_⟩
    intro a ha b hb
    obtain rfl : b = name := List.mem_singleton.mp hb
    rintro rfl
    exact hnew ha
  · intro other hother'
    rw [List.map_append, List.mem_append]
    by_cases hsame' : other = name
    · rw [hsame', ← Finmap.lookup_isSome, hstored]
      exact ⟨fun _ => .inr (List.mem_singleton.mpr rfl), fun _ => rfl⟩
    · rw [← Finmap.lookup_isSome, hsame other hsame' hother', Finmap.lookup_isSome,
        h.mem_iff other hother']
      refine ⟨.inl, fun hmem => hmem.resolve_right fun hlast => hsame' ?_⟩
      exact List.mem_singleton.mp hlast
  · intro backup hmem
    rcases List.mem_append.mp hmem with hmem | hmem
    · exact h.isBackup backup hmem
    · rw [List.mem_singleton.mp hmem]
      exact hname
  · intro backup hmem
    rcases List.mem_append.mp hmem with hmem | hmem
    · rw [hsame _ (hother backup hmem) (h.isBackup backup hmem)]
      exact h.text backup hmem
    · rw [List.mem_singleton.mp hmem]
      exact ⟨bytes, hstored, htext⟩
  · intro backup hmem
    rcases List.mem_append.mp hmem with hmem | hmem
    · exact h.reads backup hmem
    · rw [List.mem_singleton.mp hmem]
      exact hreads

end Backups

/-! ## Reading -/

namespace ArchiveStore
variable {listing : Listing ArchivePlace} {codec : ArchiveCodec}
  {files : HashMap ArchivePlace Bytes} {backups : List (String × List Block)}

lemma returns_readBackupText {name text : String} {bytes : Bytes}
    (hbytes : files.lookup (.backup, name) = some bytes)
    (htext : backupText codec name bytes = .ok text) :
    Returns (readBackupText codec name) (fun found after => found = text ∧ after = files) files := by
  refine Returns.bind (Returns.read (Returns.lift (a := text) ?_ ⟨rfl, rfl⟩))
  rw [hbytes]
  exact htext

/-- The blocks of the backups among some names, in the order of the names. -/
lemma returns_readBackups (h : Backups codec files backups) :
    ∀ {names : List String} {blocks : List Block}, (∀ name ∈ names, isBackup name →
      name ∈ backups.map Prod.fst) →
    Returns (readBackups codec names blocks) (fun found after => after = files ∧
      ∃ read : List (String × List Block), (∀ backup ∈ read, backup ∈ backups) ∧
        read.map Prod.fst = names.filter isBackup ∧ found = blocks ++ Backups.blocks read)
      files := by
  intro names
  induction names with
  | nil =>
    intro blocks _
    refine Returns.pure ⟨rfl, [], by simp, rfl, (List.append_nil _).symm⟩
  | cons name names ih =>
    intro blocks hnames
    obtain ⟨hname, hrest⟩ := List.forall_mem_cons.mp hnames
    rw [readBackups]
    cases hbackup : isBackup name with
    | false =>
      rw [if_neg (by rw [← isBackup, hbackup]; exact Bool.false_ne_true)]
      rw [List.filter_cons_of_neg (by rw [hbackup]; exact Bool.false_ne_true)]
      exact ih hrest
    | true =>
      obtain ⟨⟨_, more⟩, hmem, rfl⟩ := List.mem_map.mp (hname hbackup)
      obtain ⟨bytes, hbytes, htext⟩ := h.text _ hmem
      rw [if_pos (by rw [← isBackup, hbackup])]
      refine Returns.bind (Returns.mono (returns_readBackupText hbytes htext) ?_)
      rintro text after ⟨rfl, hafter⟩
      rw [hafter]
      refine Returns.bind (Returns.lift (parseLines_recordsText (h.reads _ hmem)) ?_)
      refine Returns.mono (ih hrest) ?_
      rintro found after ⟨hafter, read, hread, hsame, rfl⟩
      refine ⟨hafter, (_, more) :: read, List.forall_mem_cons.mpr ⟨hmem, hread⟩, ?_, ?_⟩
      · rw [List.map_cons, hsame, List.filter_cons_of_pos hbackup]
      · rw [List.append_assoc]
        rfl

/-- All blocks of the backups, by height. -/
theorem returns_readBackupBlocks (h : Backups codec files backups) :
    Returns (readBackupBlocks listing codec) (fun found after => after = files ∧
      found.Perm (Backups.blocks backups) ∧ found.Pairwise fun a b => a.height ≤ b.height)
      files := by
  refine Returns.bind (Returns.mono returns_listFiles ?_)
  rintro names after ⟨hafter, rfl⟩
  rw [hafter]
  have hall : ∀ name ∈ namesIn listing files .backup, isBackup name →
      name ∈ backups.map Prod.fst :=
    fun name hmem hname => (h.mem_iff name hname).mp (mem_namesIn.mp hmem)
  refine Returns.bind (Returns.mono (returns_readBackups h hall) ?_)
  rintro blocks after ⟨hafter, read, hread, hsame, rfl⟩
  rw [hafter]
  refine Returns.pure ⟨rfl, ?_, List.pairwise_insertionSort _ _⟩
  -- every backup was read once
  have hreadNodup : (read.map Prod.fst).Nodup := hsame ▸ nodup_namesIn.filter _
  have hperm : read.Perm backups := by
    rw [List.perm_ext_iff_of_nodup hreadNodup.of_map h.nodup.of_map]
    intro backup
    refine ⟨hread backup, fun hmem => ?_⟩
    have hname := h.isBackup backup hmem
    have hlisted : backup.1 ∈ read.map Prod.fst := by
      rw [hsame, List.mem_filter, mem_namesIn, h.mem_iff _ hname]
      exact ⟨List.mem_map_of_mem hmem, hname⟩
    obtain ⟨other, hother, heq⟩ := List.mem_map.mp hlisted
    rw [← List.inj_on_of_nodup_map h.nodup (hread other hother) hmem heq]
    exact hother
  refine (List.perm_insertionSort _ _).trans ?_
  rw [List.nil_append]
  exact hperm.flatMap_right _

/-! ## A rollover -/

lemma takes_atomicJson {Q : Unit → HashMap ArchivePlace Bytes → Prop}
    {C : HashMap ArchivePlace Bytes → Prop} {name : String} {bytes : Bytes} (hC : C files)
    (htorn : ∀ left, C (files.insert (.checkpoints, temporaryName name) left))
    (hQ : Q () (replaced files (.checkpoints, temporaryName name) (.checkpoints, name) bytes)) :
    Takes 2 (atomicJson name bytes) Q C files :=
  takes_replace hC htorn hQ

/-- The name is that of a new backup. -/
lemma takes_uniquePart {C : HashMap ArchivePlace Bytes → Prop} {period : String} (hC : C files) :
    ∀ {left part : ℕ}, Takes 0 (uniquePart period left part) (fun name after => after = files ∧
      files.lookup (.backup, name) = none ∧ ∃ stem, name = stem ++ ".jsonl.zst") C files := by
  intro left
  induction left with
  | zero => exact fun {part} => takes_throw hC
  | succ left ih =>
    intro part
    refine takes_skip (takes_doesExist ?_)
    cases hfound : files.lookup (.backup, period ++ "-part" ++ zeroPadded 2 part ++ ".jsonl.zst") with
    | none => exact takes_pure ⟨rfl, hfound, _, rfl⟩
    | some bytes => exact ih

lemma takes_uniqueBackupPath {C : HashMap ArchivePlace Bytes → Prop} {period : String}
    (hC : C files) : Takes 0 (uniqueBackupPath period) (fun name after => after = files ∧
      files.lookup (.backup, name) = none ∧ ∃ stem, name = stem ++ ".jsonl.zst") C files := by
  refine takes_skip (takes_doesExist ?_)
  cases hfound : files.lookup (.backup, period ++ ".jsonl.zst") with
  | none => exact takes_pure ⟨rfl, hfound, _, rfl⟩
  | some bytes => exact takes_uniquePart hC

lemma takes_compressFile {Q : Unit → HashMap ArchivePlace Bytes → Prop}
    {C : HashMap ArchivePlace Bytes → Prop} {source : ArchivePlace} {name : String} (hC : C files)
    (htorn : ∀ left, C (files.insert (.backup, temporaryName name) left))
    (hQ : ∀ bytes, files.lookup source = some bytes →
      Q () (replaced files (.backup, temporaryName name) (.backup, name) (codec.compress bytes))) :
    Takes 4 (compressFile codec source name) Q C files := by
  refine takes_next (takes_read hC (takes_skip (takes_lift (fun bytes hbytes => ?_) fun _ _ => hC)))
  refine takes_next (takes_write hC htorn (takes_replace (htorn _) (fun left => ?_) ?_))
  · rw [Finmap.insert_insert]
    exact htorn left
  · have hdone := hQ bytes (okOr_eq_ok.mp hbytes)
    rw [← replaced_insert []] at hdone
    exact hdone

/-- The active directory and the backups are the same. -/
def SameBlocks (files after : HashMap ArchivePlace Bytes) : Prop :=
  ∀ place : ArchivePlace, place.1 = .active ∨ place.1 = .backup ∧ isBackup place.2 →
    after.lookup place = files.lookup place

/-- A place that is neither in the active directory nor that of a backup may be written. -/
lemma SameBlocks.insert {after : HashMap ArchivePlace Bytes} (h : SameBlocks files after)
    {place : ArchivePlace} (hplace : ¬ (place.1 = .active ∨ place.1 = .backup ∧ isBackup place.2))
    (bytes : Bytes) : SameBlocks files (after.insert place bytes) := by
  intro other hother
  have hne : other ≠ place := by
    rintro rfl
    exact hplace hother
  rw [lookup_insert_of_ne hne]
  exact h other hother

lemma SameBlocks.replaced {after : HashMap ArchivePlace Bytes} (h : SameBlocks files after)
    {temporary target : ArchivePlace}
    (htemporary : ¬ (temporary.1 = .active ∨ temporary.1 = .backup ∧ isBackup temporary.2))
    (htarget : ¬ (target.1 = .active ∨ target.1 = .backup ∧ isBackup target.2)) (bytes : Bytes) :
    SameBlocks files (replaced after temporary target bytes) := by
  intro other hother
  rw [lookup_replaced_of_ne]
  · exact h other hother
  · rintro rfl
    exact htarget hother
  · rintro rfl
    exact htemporary hother

/-- The first part of a rollover, before anything is removed. -/
def secure [Primitives] (codec : ArchiveCodec) (chain : Blockchain) (period : String) :
    DiskM ArchivePlace Unit := do
  atomicJson (checkpointName period (StateSnapshot.fromChain chain).height)
    (codec.snapshotJson (StateSnapshot.fromChain chain))
  let backup ← uniqueBackupPath period
  compressFile codec (.active, "blocks.jsonl") backup

lemma rollover_eq [Primitives] (chain : Blockchain) (period : String) :
    rollover codec chain period = (do
      if ← Disk.doesExist (.active, "blocks.jsonl") then
        secure codec chain period
        Disk.remove (.active, "blocks.jsonl")
        Disk.attempt (Disk.remove (.active, "period"))
      else return ()) := by
  simp only [rollover, secure, bind_assoc]

/-- The files with a checkpoint. -/
def checkpointed [Primitives] (codec : ArchiveCodec) (files : HashMap ArchivePlace Bytes)
    (chain : Blockchain) (period : String) : HashMap ArchivePlace Bytes :=
  replaced files (.checkpoints, temporaryName (checkpointName period chain.tipHeight))
    (.checkpoints, checkpointName period chain.tipHeight)
    (codec.snapshotJson (StateSnapshot.fromChain chain))

/-- The files after the first part of a rollover. -/
def secured [Primitives] (codec : ArchiveCodec) (files : HashMap ArchivePlace Bytes)
    (chain : Blockchain) (period backup : String) (bytes : Bytes) : HashMap ArchivePlace Bytes :=
  replaced (checkpointed codec files chain period) (.backup, temporaryName backup)
    (.backup, backup) (codec.compress bytes)

lemma not_checkpoint (name : String) : ¬ ((ArchiveDirectory.checkpoints, name).1 = .active ∨
    (ArchiveDirectory.checkpoints, name).1 = .backup ∧ isBackup name) := by
  rintro (h | ⟨h, _⟩) <;> cases h

lemma not_temporary (name : String) :
    ¬ ((ArchiveDirectory.backup, temporaryName name).1 = .active ∨
      (ArchiveDirectory.backup, temporaryName name).1 = .backup ∧
        isBackup (temporaryName name)) := by
  rintro (h | ⟨_, h⟩)
  · cases h
  · rw [isBackup_temporaryName] at h
    cases h

lemma sameBlocks_checkpointed [Primitives] (chain : Blockchain) (period : String) :
    SameBlocks files (checkpointed codec files chain period) := by
  have hrefl : SameBlocks files files := fun _ _ => rfl
  exact hrefl.replaced (not_checkpoint _) (not_checkpoint _) _

/-- The first part of a rollover adds a backup, or it changes none. -/
lemma takes_secure [Primitives] {chain : Blockchain} {period : String} :
    Takes 6 (secure codec chain period) (fun _ after => ∃ bytes backup,
        files.lookup (.active, "blocks.jsonl") = some bytes ∧
        files.lookup (.backup, backup) = none ∧ (∃ stem, backup = stem ++ ".jsonl.zst") ∧
        after = secured codec files chain period backup bytes)
      (SameBlocks files) files := by
  have hrefl : SameBlocks files files := fun _ _ => rfl
  have hcheckpoint := @sameBlocks_checkpointed codec files _ chain period
  refine takes_bind (k := 2) (l := 4) (takes_atomicJson hrefl (fun left => ?_) ?_)
  · exact hrefl.insert (not_checkpoint _) left
  show Takes 4 _ _ _ (checkpointed codec files chain period)
  obtain ⟨files₁, hfiles₁⟩ : ∃ after, after = checkpointed codec files chain period := ⟨_, rfl⟩
  rw [← hfiles₁] at hcheckpoint ⊢
  refine takes_skip (takes_mono (takes_uniqueBackupPath hcheckpoint) ?_ fun _ h => h)
  rintro backup after ⟨hafter, hfree, stem, rfl⟩
  rw [hafter]
  refine takes_compressFile hcheckpoint (fun left => ?_) fun bytes hbytes => ?_
  · exact hcheckpoint.insert (not_temporary _) left
  have hsame := hcheckpoint (.active, "blocks.jsonl") (.inl rfl)
  have hfree' := hcheckpoint (.backup, stem ++ ".jsonl.zst") (.inr ⟨rfl, isBackup_append stem⟩)
  refine ⟨bytes, _, hsame ▸ hbytes, hfree' ▸ hfree, ⟨stem, rfl⟩, ?_⟩
  rw [secured, ← hfiles₁]

lemma returns_uniqueBackupPath {period : String}
    (hfree : files.lookup (.backup, period ++ ".jsonl.zst") = none) :
    Returns (uniqueBackupPath period)
      (fun name after => name = period ++ ".jsonl.zst" ∧ after = files) files := by
  refine Returns.bind (Returns.doesExist ?_)
  rw [hfree]
  exact Returns.pure ⟨rfl, rfl⟩

lemma returns_compressFile {source : ArchivePlace} {name : String} {bytes : Bytes}
    (hbytes : files.lookup source = some bytes) :
    Returns (compressFile codec source name) (fun _ after => after =
      replaced files (.backup, temporaryName name) (.backup, name) (codec.compress bytes))
      files := by
  refine Returns.bind (Returns.read (Returns.bind (Returns.lift (okOr_eq_ok.mpr hbytes) ?_)))
  refine Returns.bind (Returns.write (Returns.replace ?_))
  exact replaced_insert []

lemma returns_atomicJson {name : String} {bytes : Bytes} :
    Returns (atomicJson name bytes) (fun _ after => after =
      replaced files (.checkpoints, temporaryName name) (.checkpoints, name) bytes) files :=
  Returns.replace rfl

/-- Where nothing fails and the name of the period is free, it is that of the backup. -/
lemma returns_secure [Primitives] {chain : Blockchain} {period : String} {bytes : Bytes}
    (hbytes : files.lookup (.active, "blocks.jsonl") = some bytes)
    (hfree : files.lookup (.backup, period ++ ".jsonl.zst") = none) :
    Returns (secure codec chain period) (fun _ after => after =
      secured codec files chain period (period ++ ".jsonl.zst") bytes) files := by
  have hsame := @sameBlocks_checkpointed codec files _ chain period
  refine Returns.bind (Returns.mono returns_atomicJson ?_)
  rintro - files₁ hfiles₁
  have hcheckpointed : files₁ = checkpointed codec files chain period := hfiles₁
  rw [← hcheckpointed] at hsame
  have hbytes₁ := (hsame (.active, "blocks.jsonl") (.inl rfl)).trans hbytes
  have hfree₁ := (hsame (.backup, period ++ ".jsonl.zst")
    (.inr ⟨rfl, isBackup_append period⟩)).trans hfree
  rw [secured, ← hcheckpointed]
  clear hfiles₁ hcheckpointed hsame
  refine Returns.bind (Returns.mono (returns_uniqueBackupPath hfree₁) ?_)
  rintro name after ⟨hname, hafter⟩
  rw [hname, hafter]
  exact returns_compressFile hbytes₁

lemma returns_rollover [Primitives] {chain : Blockchain} {period : String} {name : Bytes}
    (hfree : files.lookup (.backup, period ++ ".jsonl.zst") = none)
    (hperiod : files.lookup (.active, "period") = some name) :
    Returns (rollover codec chain period) (fun _ _ => True) files := by
  rw [rollover_eq]
  refine Returns.bind (Returns.doesExist ?_)
  cases hfound : files.lookup (.active, "blocks.jsonl") with
  | none => exact Returns.pure trivial
  | some bytes =>
    refine Returns.bind (Returns.mono (returns_secure hfound hfree) ?_)
    rintro _ after rfl
    have hsame : ∀ place : ArchivePlace, place.1 = .active →
        (secured codec files chain period (period ++ ".jsonl.zst") bytes).lookup place =
          files.lookup place := by
      rintro ⟨directory, file⟩ hactive
      obtain rfl : directory = .active := hactive
      rw [secured, lookup_replaced_of_ne (by simp) (by simp)]
      exact sameBlocks_checkpointed chain period _ (.inl rfl)
    refine Returns.bind (Returns.remove ((hsame _ rfl).trans hfound) (Returns.attempt ?_))
    apply @Returns.remove _ _ _ _ _ name _ trivial
    rw [Finmap.lookup_erase_ne (by simp), hsame _ rfl, hperiod]

/-! ## An append -/

/-- Is the active file moved away before the record is written? -/
def moves (store : ArchiveStore) (files : HashMap ArchivePlace Bytes) (record : Bytes)
    (timestamp : UInt64) : Bool :=
  match periodFromTimestamp timestamp, storedPeriod files with
  | .ok period, .ok current => decide (store.Rolls files record period current) &&
      (files.lookup (.active, "blocks.jsonl")).isSome
  | _, _ => false

/-- `append_finalized` until it changes the files with the blocks: the period of the block, and
whether the active file is in the backups now. -/
def prepare [Primitives] (listing : Listing ArchivePlace) (codec : ArchiveCodec)
    (store : ArchiveStore) (block : Block) (chain : Blockchain) :
    DiskM ArchivePlace (String × Bool) := do
  let period ← Disk.lift (periodFromTimestamp block.timestamp)
  Disk.lift (ensure ((blockRecord codec block).length ≤ store.maxActiveBytes.toNat)
    "블록 하나가 활성 블록 총합 제한보다 큽니다.")
  let current ← readActivePeriod
  let activeBytes ← directoryBytes listing .active
  if ← Disk.lift (store.needsRollover period current activeBytes (blockRecord codec block).length) then
    if ← Disk.doesExist (.active, "blocks.jsonl") then
      secure codec chain (current.getD period)
      return (period, true)
    else return (period, false)
  else return (period, false)

/-- The rest of `append_finalized`. -/
def finish (codec : ArchiveCodec) (block : Block) : String × Bool → DiskM ArchivePlace Unit
  | (period, moved) => do
    if moved then
      Disk.remove (.active, "blocks.jsonl")
      Disk.attempt (Disk.remove (.active, "period"))
    Disk.append (.active, "blocks.jsonl") (blockRecord codec block)
    Disk.write (.active, "period") (textBytes period)

lemma appendFinalized_eq [Primitives] (store : ArchiveStore) (block : Block)
    (chain : Blockchain) : appendFinalized listing codec store block chain =
      prepare listing codec store block chain >>= finish codec block := by
  unfold appendFinalized prepare
  simp only [bind_assoc]
  congr 1; funext period
  congr 1; funext _
  congr 1; funext current
  congr 1; funext activeBytes
  congr 1; funext rolls
  split
  · rw [rollover_eq, bind_assoc, bind_assoc]
    congr 1; funext found
    cases found
    · rfl
    · simp [finish, bind_assoc]
  · simp [finish]

lemma moves_eq {store : ArchiveStore} {record : Bytes} {timestamp : UInt64} {period : String}
    {current : Option String} (hperiod : periodFromTimestamp timestamp = .ok period)
    (hcurrent : storedPeriod files = .ok current) :
    store.moves files record timestamp = (decide (store.Rolls files record period current) &&
      (files.lookup (.active, "blocks.jsonl")).isSome) := by
  rw [moves, hperiod, hcurrent]

/-- The operations of `prepare`. -/
def prepareOperations (listing : Listing ArchivePlace) (store : ArchiveStore)
    (files : HashMap ArchivePlace Bytes) (record : Bytes) (timestamp : UInt64) : ℕ :=
  (namesIn listing files .active).length + 1 +
    (if store.moves files record timestamp then 6 else 0) + 1

/-- What the first part of an append makes of the files: nothing, or a backup of the active file. -/
def Prepared [Primitives] (codec : ArchiveCodec) (store : ArchiveStore)
    (files : HashMap ArchivePlace Bytes) (block : Block) (chain : Blockchain)
    (result : String × Bool) (after : HashMap ArchivePlace Bytes) : Prop :=
  periodFromTimestamp block.timestamp = .ok result.1 ∧
    result.2 = store.moves files (blockRecord codec block) block.timestamp ∧
    ∃ current, storedPeriod files = .ok current ∧
      if result.2 then ∃ bytes stem, files.lookup (.active, "blocks.jsonl") = some bytes ∧
        files.lookup (.backup, stem ++ ".jsonl.zst") = none ∧
        after = secured codec files chain (current.getD result.1) (stem ++ ".jsonl.zst") bytes
      else after = files

/-- What an append that stops early makes of the files: nothing, or no block is touched. -/
def Stopped (store : ArchiveStore) (files : HashMap ArchivePlace Bytes) (record : Bytes)
    (timestamp : UInt64) (after : HashMap ArchivePlace Bytes) : Prop :=
  after = files ∨ SameBlocks files after ∧ record.length ≤ store.maxActiveBytes.toNat ∧
    store.moves files record timestamp = true

/-- The first part of an append stops before the blocks in the files change. -/
lemma takes_prepare [Primitives] {store : ArchiveStore} {block : Block} {chain : Blockchain} :
    Takes (prepareOperations listing store files (blockRecord codec block) block.timestamp)
      (prepare listing codec store block chain)
      (fun result after => Prepared codec store files block chain result after ∧
        (blockRecord codec block).length ≤ store.maxActiveBytes.toNat)
      (Stopped store files (blockRecord codec block) block.timestamp) files := by
  -- up to the copy of the active file nothing is written
  have hrefl : Stopped store files (blockRecord codec block) block.timestamp files := .inl rfl
  refine takes_skip (takes_lift (fun period hperiod => ?_) fun _ _ => hrefl)
  refine takes_skip (takes_lift (fun _ hfits => ?_) fun _ _ => hrefl)
  rw [ensure_eq_ok] at hfits
  refine takes_next (takes_mono (takes_readActivePeriod hrefl) ?_ fun _ h => h)
  rintro current after ⟨hafter, hcurrent⟩
  rw [hafter]
  refine takes_bind (takes_mono (takes_directoryBytes hrefl) ?_ fun _ h => h)
  rintro total after ⟨hafter, htotal⟩
  rw [hafter]
  refine takes_skip (takes_lift (fun rolls hneeds => ?_) fun _ _ => hrefl)
  have hmoves : store.moves files (blockRecord codec block) block.timestamp = _ :=
    moves_eq hperiod hcurrent
  have hrolls := needsRollover_eq htotal (length_blockRecord_pos codec block) hneeds
  rw [← hrolls] at hmoves
  cases rolls with
  | true =>
    rw [Bool.true_and] at hmoves
    rw [if_pos rfl]
    refine takes_skip (takes_doesExist ?_)
    cases hfound : files.lookup (.active, "blocks.jsonl") with
    | none =>
      rw [hfound, Option.isSome_none] at hmoves
      rw [if_neg (by rw [hmoves]; exact Bool.false_ne_true)]
      exact takes_pure ⟨⟨hperiod, hmoves.symm, current, hcurrent, rfl⟩, hfits⟩
    | some bytes =>
      rw [hfound, Option.isSome_some] at hmoves
      rw [if_pos hmoves]
      refine takes_bind (k := 6) (l := 0) (takes_mono takes_secure ?_
        fun _ h => .inr ⟨h, hfits, hmoves⟩)
      rintro - after ⟨found, backup, hbytes, hfree, ⟨stem, rfl⟩, rfl⟩
      exact takes_pure
        ⟨⟨hperiod, hmoves.symm, current, hcurrent, found, stem, hbytes, hfree, rfl⟩, hfits⟩
  | false =>
    rw [Bool.false_and] at hmoves
    rw [if_neg Bool.false_ne_true, if_neg (by rw [hmoves]; exact Bool.false_ne_true)]
    exact takes_pure ⟨⟨hperiod, hmoves.symm, current, hcurrent, rfl⟩, hfits⟩

/-- The files after the record and its period were written. -/
def written (files : HashMap ArchivePlace Bytes) (record : Bytes) (period : String) :
    HashMap ArchivePlace Bytes :=
  (files.insert (.active, "blocks.jsonl")
    ((files.lookup (.active, "blocks.jsonl")).getD [] ++ record)).insert (.active, "period")
      (textBytes period)

/-- The files from which the active file was removed; its period may be left. -/
def Cleared (files after : HashMap ArchivePlace Bytes) : Prop :=
  after.lookup (.active, "blocks.jsonl") = none ∧
    ∀ place, place ≠ (.active, "blocks.jsonl") → place ≠ (.active, "period") →
      after.lookup place = files.lookup place

lemma wp_finish {block : Block} {period : String}
    {moved : Bool} :
    wp (finish codec block (period, moved)) (fun _ after => ∃ before,
      (if moved then Cleared files before else before = files) ∧
      after = written before (blockRecord codec block) period) (fun _ => True) files := by
  have hwrite : ∀ before : HashMap ArchivePlace Bytes,
      (if moved then Cleared files before else before = files) →
      wp (do
        Disk.append (.active, "blocks.jsonl") (blockRecord codec block)
        Disk.write (.active, "period") (textBytes period)) (fun _ after => ∃ before,
          (if moved then Cleared files before else before = files) ∧
          after = written before (blockRecord codec block) period) (fun _ => True) before := by
    intro before hbefore
    refine wp_bind (wp_append trivial (fun _ => trivial) (wp_write trivial (fun _ => trivial) ?_))
    exact ⟨before, hbefore, rfl⟩
  cases moved with
  | false => exact hwrite files rfl
  | true =>
    refine wp_bind (wp_remove trivial fun _ _ => wp_bind (wp_attempt (wp_remove ?_ fun _ _ => ?_)))
    · exact hwrite _ ⟨Finmap.lookup_erase _ _, fun place hplace _ => Finmap.lookup_erase_ne hplace⟩
    · refine hwrite _ ⟨?_, fun place hplace hplace' => ?_⟩
      · rw [Finmap.lookup_erase_ne (by decide)]
        exact Finmap.lookup_erase _ _
      · rw [Finmap.lookup_erase_ne hplace', Finmap.lookup_erase_ne hplace]

/-- The files after an append. -/
lemma wp_append_written [Primitives] {store : ArchiveStore} {block : Block} {chain : Blockchain} :
    wp (appendFinalized listing codec store block chain) (fun _ after => ∃ result prepared before,
      Prepared codec store files block chain result prepared ∧
      (if result.2 then Cleared prepared before else before = prepared) ∧
      after = written before (blockRecord codec block) result.1) (fun _ => True) files := by
  rw [appendFinalized_eq]
  refine wp_bind (wp_mono takes_prepare.wp ?_ fun _ _ => trivial)
  rintro ⟨period, moved⟩ prepared ⟨hprepared, -⟩
  refine wp_mono wp_finish ?_ fun _ _ => trivial
  rintro - after ⟨before, hbefore, rfl⟩
  exact ⟨(period, moved), prepared, before, hprepared, hbefore, rfl⟩

end ArchiveStore

/-! ## The blocks in the files -/

/-- The files hold blocks: those of the backups, and those of the active file. -/
structure Archived (codec : ArchiveCodec) (files : HashMap ArchivePlace Bytes)
    (backups : List (String × List Block)) (active : List Block) : Prop where
  backups : Backups codec files backups
  activeFile : files.lookup (.active, "blocks.jsonl") =
      some (textBytes (recordsText codec active)) ∨
    files.lookup (.active, "blocks.jsonl") = none ∧ active = []
  reads : ∀ block ∈ active, codec.ReadsBack block

namespace Archived
variable {codec : ArchiveCodec} {files after : HashMap ArchivePlace Bytes}
  {backups : List (String × List Block)} {active : List Block}

open ArchiveStore

lemma congr (h : Archived codec files backups active) (hsame : SameBlocks files after) :
    Archived codec after backups active := by
  refine ⟨h.backups.congr fun name hname => hsame (.backup, name) (.inr ⟨rfl, hname⟩), ?_, h.reads⟩
  rw [hsame (.active, "blocks.jsonl") (.inl rfl)]
  exact h.activeFile

/-- A file that is not there holds no blocks. -/
lemma eq_nil (h : Archived codec files backups active)
    (hnone : files.lookup (.active, "blocks.jsonl") = none) : active = [] := by
  rcases h.activeFile with hsome | ⟨_, hnil⟩
  · rw [hnone] at hsome
    cases hsome
  · exact hnil

/-- The bytes in front of the next record. -/
lemma getD_lookup (h : Archived codec files backups active) :
    (files.lookup (.active, "blocks.jsonl")).getD [] = textBytes (recordsText codec active) := by
  rcases h.activeFile with hsome | ⟨hnone, rfl⟩
  · rw [hsome]
    rfl
  · rw [hnone]
    rfl

/-- The files with a backup of the active file. -/
lemma secured [Primitives] (h : Archived codec files backups active)
    (hzstd : ∀ bytes, codec.decompress (codec.compress bytes) = .ok bytes) {bytes : Bytes}
    {stem period : String} {chain : Blockchain}
    (hbytes : files.lookup (.active, "blocks.jsonl") = some bytes)
    (hfree : files.lookup (.backup, stem ++ ".jsonl.zst") = none) :
    Backups codec (ArchiveStore.secured codec files chain period (stem ++ ".jsonl.zst") bytes)
      (backups ++ [(stem ++ ".jsonl.zst", active)]) := by
  have hactive : bytes = textBytes (recordsText codec active) := by
    rw [← h.getD_lookup, hbytes]
    rfl
  have hcheckpoint := @sameBlocks_checkpointed codec files _ chain period
  refine h.backups.add (isBackup_append stem) hfree lookup_replaced_self ?_ h.reads ?_
  · rw [backupText, if_pos (extension_backup stem), hzstd, hactive]
    exact utf8Text_textBytes _
  · intro other hne hother
    rw [ArchiveStore.secured, lookup_replaced_of_ne]
    · exact hcheckpoint (.backup, other) (.inr ⟨rfl, hother⟩)
    · exact fun heq => hne (Prod.mk.inj heq).2
    · rintro heq
      rw [(Prod.mk.inj heq).2, isBackup_temporaryName] at hother
      cases hother

/-- One more record. -/
lemma written (h : Archived codec files backups active) {block : Block}
    (hreads : codec.ReadsBack block) (period : String) :
    Archived codec (ArchiveStore.written files (blockRecord codec block) period) backups
      (active ++ [block]) := by
  refine ⟨h.backups.congr fun name _ => ?_, .inl ?_, ?_⟩
  · rw [ArchiveStore.written, lookup_insert_of_ne (by simp), lookup_insert_of_ne (by simp)]
  · rw [ArchiveStore.written, lookup_insert_of_ne (by decide), HashMap.lookup_insert_self,
      h.getD_lookup, textBytes_recordsText_concat]
  · intro other hother
    rcases List.mem_append.mp hother with hother | hother
    · exact h.reads other hother
    · rw [List.mem_singleton.mp hother]
      exact hreads

/-- The files after the active file was moved to the backups. -/
lemma cleared (h : Backups codec files backups) (hcleared : Cleared files after) :
    Archived codec after backups [] := by
  refine ⟨h.congr fun name _ => ?_, .inr ⟨hcleared.1, rfl⟩, by simp⟩
  exact hcleared.2 _ (by simp) (by simp)

/-- An append writes the block behind the active ones, or these become a backup first. -/
lemma append [Primitives] (h : Archived codec files backups active) {listing : Listing ArchivePlace}
    (hzstd : ∀ bytes, codec.decompress (codec.compress bytes) = .ok bytes) {store : ArchiveStore}
    {block : Block} {chain : Blockchain} (hreads : codec.ReadsBack block) :
    wp (appendFinalized listing codec store block chain) (fun _ after =>
        if store.moves files (blockRecord codec block) block.timestamp then
          ∃ name, isBackup name ∧ Archived codec after (backups ++ [(name, active)]) [block]
        else Archived codec after backups (active ++ [block]))
      (fun _ => True) files := by
  refine wp_mono wp_append_written ?_ fun _ h => h
  rintro - after ⟨⟨period, moved⟩, prepared, before, ⟨_, hmoved, current, _, hprepared⟩, hbefore, rfl⟩
  rw [← hmoved]
  cases moved with
  | false =>
    obtain rfl : prepared = files := hprepared
    obtain rfl : before = prepared := hbefore
    exact h.written hreads _
  | true =>
    obtain ⟨bytes, stem, hbytes, hfree, rfl⟩ := hprepared
    have hcleared := cleared (h.secured hzstd hbytes hfree) hbefore
    exact ⟨_, isBackup_append stem, hcleared.written hreads _⟩

end Archived

end IeumChain
