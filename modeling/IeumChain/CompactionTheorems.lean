import IeumChain.HistoryTheorems
import IeumChain.Lib.Merging

/-!
# Yearly compaction

The monthly backups of a year are merged into one file that is then moved over the annual backup,
and removed one by one. An annual backup that is there already is lost: its blocks stay only where
the monthly files still hold them.

* `wp_compactYears`: a compaction that returns leaves the blocks of the backups that are not written
  over, and one that stops anywhere leaves at least these;
* `compaction_preserves`: so the blocks never become fewer in a run of compactions and rollovers,
  as long as before each compaction the backups that are not written over hold every block.
  Otherwise they may (`compaction_loses`).
-/

namespace IeumChain

open Lib Lib.Disk ArchiveStore

/-! ## Names -/

/-- The monthly backups of a year, and its annual one. -/
def yearGroup (year : ℕ) : MergeGroup String :=
  ⟨isMonthly (zeroPadded 4 year), zeroPadded 4 year ++ ".jsonl.zst"⟩

lemma toList_year (year : ℕ) : (zeroPadded 4 year).toList = padded 4 year := by
  rw [zeroPadded_natCast, String.toList_ofList]

lemma not_mem_year (year : ℕ) : 'M' ∉ (zeroPadded 4 year).toList := by
  rw [toList_year]
  intro hmem
  exact absurd (isDigit_of_mem_padded hmem) (by decide)

/-- A name without the letter is not that of a monthly backup. -/
lemma isMonthly_eq_false {year name : String} (h : 'M' ∉ name.toList) :
    isMonthly year name = false := by
  rw [isMonthly, Bool.and_eq_false_iff]
  right
  simpa using h

lemma not_mem_append {s t : String} (hs : 'M' ∉ s.toList) (ht : 'M' ∉ t.toList) :
    'M' ∉ (s ++ t).toList := by
  rw [String.toList_append, List.mem_append, not_or]
  exact ⟨hs, ht⟩

lemma target_yearGroup (year : ℕ) :
    (yearGroup year).target = zeroPadded 4 year ++ ".jsonl.zst" := by
  rw [yearGroup]

lemma member_yearGroup (year : ℕ) (name : String) :
    (yearGroup year).member name = isMonthly (zeroPadded 4 year) name := by
  rw [yearGroup]

lemma temporaryName_target (year : ℕ) :
    temporaryName (yearGroup year).target = zeroPadded 4 year ++ ".jsonl" ++ ".tmp" := by
  have hstem : Path.fileStem (zeroPadded 4 year ++ ".jsonl.zst") = zeroPadded 4 year ++ ".jsonl" := by
    have hchars : zeroPadded 4 year ++ ".jsonl.zst" =
        String.ofList ((zeroPadded 4 year ++ ".jsonl").toList ++ '.' :: ['z', 's', 't']) := by
      rw [← String.toList_inj, String.toList_ofList, String.toList_append, String.toList_append,
        List.append_assoc]
      rfl
    rw [hchars, Path.fileStem_append _ (by decide), String.ofList_toList]
    rw [String.toList_append]
    exact List.append_ne_nil_of_right_ne_nil _ (by decide)
  rw [temporaryName, target_yearGroup, hstem]

/-- Neither an annual backup nor the file beside it is merged. -/
lemma not_member_target (year year' : ℕ) :
    (yearGroup year).member (yearGroup year').target = false := by
  rw [target_yearGroup, member_yearGroup]
  exact isMonthly_eq_false (not_mem_append (not_mem_year year') (by decide))

lemma not_member_temporary (year year' : ℕ) :
    (yearGroup year).member (temporaryName (yearGroup year').target) = false := by
  rw [temporaryName_target, member_yearGroup]
  exact isMonthly_eq_false
    (not_mem_append (not_mem_append (not_mem_year year') (by decide)) (by decide))

lemma separate_yearGroups {years : List ℕ} (h : years.Nodup) :
    MergeGroup.Separate (years.map yearGroup) where
  nodup := by
    rw [List.map_map]
    refine h.map fun year year' heq => ?_
    have hchars := congrArg String.toList (show zeroPadded 4 year ++ ".jsonl.zst" =
      zeroPadded 4 year' ++ ".jsonl.zst" from heq)
    rw [String.toList_append, String.toList_append, toList_year, toList_year] at hchars
    exact padded_inj (List.append_cancel_right hchars)
  not_member := by
    intro g hg g' hg'
    obtain ⟨year, -, rfl⟩ := List.mem_map.mp hg
    obtain ⟨year', -, rfl⟩ := List.mem_map.mp hg'
    exact not_member_target year year'

/-! ## Backups that come and go -/

/-- Whatever has the name of a monthly backup is one. -/
def Tidy (files : HashMap ArchivePlace Bytes) : Prop :=
  ∀ year name, ((.backup, name) : ArchivePlace) ∈ files → (yearGroup year).member name →
    isBackup name

lemma Tidy.congr {files after : HashMap ArchivePlace Bytes} (h : Tidy files)
    (hafter : ∀ name, ((.backup, name) : ArchivePlace) ∈ after →
      (.backup, name) ∈ files ∨ isBackup name ∨ ∀ year, (yearGroup year).member name = false) :
    Tidy after := by
  intro year name hmem hname
  rcases hafter name hmem with hold | hbackup | hnot
  · exact h year name hold hname
  · exact hbackup
  · rw [hnot year] at hname
    cases hname

namespace Backups
variable {codec : ArchiveCodec} {files after : HashMap ArchivePlace Bytes}
  {backups : List (String × List Block)}

/-- One backup less. -/
lemma erase (h : Backups codec files backups) (name : String) :
    Backups codec (files.erase (.backup, name)) (backups.filter fun backup => backup.1 ≠ name) where
  nodup := h.nodup.sublist (List.filter_sublist.map _)
  mem_iff := by
    intro other hother
    rw [Finmap.mem_erase, h.mem_iff other hother, List.mem_map, List.mem_map]
    simp only [List.mem_filter, decide_eq_true_eq, Prod.mk.injEq, true_and, ne_eq]
    constructor
    · rintro ⟨hne, backup, hmem, rfl⟩
      exact ⟨backup, ⟨hmem, hne⟩, rfl⟩
    · rintro ⟨backup, ⟨hmem, hne⟩, rfl⟩
      exact ⟨hne, backup, hmem, rfl⟩
  isBackup := fun backup hmem => h.isBackup backup (List.mem_of_mem_filter hmem)
  text := by
    intro backup hmem
    obtain ⟨hmem, hne⟩ := List.mem_filter.mp hmem
    rw [Finmap.lookup_erase_ne fun heq => of_decide_eq_true hne (Prod.mk.inj heq).2]
    exact h.text backup hmem
  reads := fun backup hmem => h.reads backup (List.mem_of_mem_filter hmem)

/-- A new backup takes the place of one of its name. -/
lemma replaced (h : Backups codec files backups) {name temporary : String} {bytes : Bytes}
    {more : List Block} (hname : IeumChain.isBackup name)
    (htemporary : IeumChain.isBackup temporary = false)
    (htext : backupText codec name bytes = .ok (recordsText codec more))
    (hreads : ∀ block ∈ more, codec.ReadsBack block) :
    Backups codec (Disk.replaced files (.backup, temporary) (.backup, name) bytes)
      (backups.filter (fun backup => backup.1 ≠ name) ++ [(name, more)]) := by
  refine (h.erase name).add hname (Finmap.lookup_erase _ _) lookup_replaced_self htext hreads ?_
  intro other hne hother
  rw [lookup_replaced_of_ne, Finmap.lookup_erase_ne]
  · exact fun heq => hne (Prod.mk.inj heq).2
  · exact fun heq => hne (Prod.mk.inj heq).2
  · intro heq
    rw [(Prod.mk.inj heq).2, htemporary] at hother
    cases hother

end Backups

/-! ## One year -/

namespace ArchiveStore
variable {listing : Listing ArchivePlace} {codec : ArchiveCodec}
  {files : HashMap ArchivePlace Bytes} {backups : List (String × List Block)}
  {C : HashMap ArchivePlace Bytes → Prop}

lemma wp_readBackupText (h : Backups codec files backups) (hC : C files) {name : String}
    {more : List Block} (hmem : (name, more) ∈ backups) :
    wp (readBackupText codec name)
      (fun text after => text = recordsText codec more ∧ after = files) C files := by
  obtain ⟨bytes, hbytes, htext⟩ := h.text _ hmem
  refine wp_bind (wp_read hC (wp_lift (fun text hread => ⟨?_, rfl⟩) fun _ _ => hC))
  rw [hbytes] at hread
  exact Except.ok.inj (hread.symm.trans htext)

/-- The texts of some backups are the lines of their blocks. -/
lemma wp_readTexts (h : Backups codec files backups) (hC : C files) :
    ∀ {names : List String} {text : String}, (∀ name ∈ names, name ∈ backups.map Prod.fst) →
      wp (readTexts codec names text) (fun found after => after = files ∧
        ∃ read : List (String × List Block), (∀ backup ∈ read, backup ∈ backups) ∧
          read.map Prod.fst = names ∧ found = text ++ recordsText codec (Backups.blocks read))
        C files := by
  intro names
  induction names with
  | nil => exact fun _ => wp_pure ⟨rfl, [], by simp, rfl, String.append_empty.symm⟩
  | cons name names ih =>
    intro text hnames
    obtain ⟨hname, hrest⟩ := List.forall_mem_cons.mp hnames
    obtain ⟨⟨_, more⟩, hmem, rfl⟩ := List.mem_map.mp hname
    refine wp_bind (wp_mono (wp_readBackupText h hC hmem) ?_ fun _ h => h)
    rintro _ after ⟨rfl, hafter⟩
    rw [hafter]
    refine wp_mono (ih hrest) ?_ fun _ h => h
    rintro found after ⟨hafter, read, hread, hsame, rfl⟩
    refine ⟨hafter, (_, more) :: read, List.forall_mem_cons.mpr ⟨hmem, hread⟩, ?_, ?_⟩
    · rw [List.map_cons, hsame]
    · rw [String.append_assoc, ← recordsText_append]
      rfl

lemma filter_not_mem_cons (name : String) (names : List String) :
    (backups.filter fun backup => backup.1 ≠ name).filter (fun backup => backup.1 ∉ names) =
      backups.filter fun backup => backup.1 ∉ name :: names := by
  rw [List.filter_filter]
  apply List.filter_congr
  intro backup _
  simp [Bool.and_comm]

/-- Whatever the removal of some backups leaves, the others are left. -/
lemma wp_removeBackups : ∀ {names : List String} {files : HashMap ArchivePlace Bytes}
    {backups : List (String × List Block)}, Backups codec files backups → Tidy files →
      wp (removeBackups names) (fun _ after =>
          Backups codec after (backups.filter fun backup => backup.1 ∉ names) ∧ Tidy after)
        (fun after => ∃ removed : List String, (∀ name ∈ removed, name ∈ names) ∧
          Backups codec after (backups.filter fun backup => backup.1 ∉ removed) ∧ Tidy after)
        files := by
  intro names
  induction names with
  | nil =>
    intro files backups h htidy
    refine wp_pure ⟨?_, htidy⟩
    simpa using h
  | cons name names ih =>
    intro files backups h htidy
    refine wp_bind (wp_remove ⟨[], by simp, by simpa using h, htidy⟩ fun _ _ => ?_)
    have htidy' : Tidy (files.erase (.backup, name)) :=
      htidy.congr fun other hother => .inl (Finmap.mem_erase.mp hother).2
    refine wp_mono (ih (h.erase name) htidy') ?_ ?_
    · rintro - after ⟨hafter, htidyAfter⟩
      rw [filter_not_mem_cons] at hafter
      exact ⟨hafter, htidyAfter⟩
    · rintro after ⟨removed, hremoved, hafter, htidyAfter⟩
      rw [filter_not_mem_cons] at hafter
      refine ⟨name :: removed, ?_, hafter, htidyAfter⟩
      exact List.forall_mem_cons.mpr
        ⟨List.mem_cons_self, fun other hother => List.mem_cons_of_mem _ (hremoved other hother)⟩

/-- The monthly backups of a year, in the order in which they are merged. -/
def monthlyNames (listing : Listing ArchivePlace) (files : HashMap ArchivePlace Bytes)
    (year : ℕ) : List String :=
  sortNames ((namesIn listing files .backup).filter (isMonthly (zeroPadded 4 year)))

lemma mem_monthlyNames (h : Backups codec files backups) (htidy : Tidy files) {year : ℕ}
    {name : String} : name ∈ monthlyNames listing files year ↔
      name ∈ backups.map Prod.fst ∧ (yearGroup year).member name := by
  rw [monthlyNames, sortNames, (List.perm_insertionSort _ _).mem_iff, List.mem_filter, mem_namesIn,
    member_yearGroup]
  constructor
  · rintro ⟨hmem, hname⟩
    rw [← member_yearGroup] at hname
    exact ⟨(h.mem_iff name (htidy year name hmem hname)).mp hmem, by rwa [← member_yearGroup]⟩
  · rintro ⟨hmem, hname⟩
    obtain ⟨backup, hbackup, rfl⟩ := List.mem_map.mp hmem
    exact ⟨(h.mem_iff _ (h.isBackup backup hbackup)).mpr hmem, hname⟩

lemma nodup_monthlyNames {year : ℕ} : (monthlyNames listing files year).Nodup :=
  (List.perm_insertionSort _ _).nodup_iff.mpr (nodup_namesIn.filter _)

/-- Reading the monthly backups is reading all members of the group. -/
lemma perm_read (h : Backups codec files backups) (htidy : Tidy files) {year : ℕ}
    {read : List (String × List Block)} (hread : ∀ backup ∈ read, backup ∈ backups)
    (hnames : read.map Prod.fst = monthlyNames listing files year) :
    read.Perm (backups.filter fun backup => (yearGroup year).member backup.1) := by
  have hnodup : (read.map Prod.fst).Nodup := hnames ▸ nodup_monthlyNames
  rw [List.perm_ext_iff_of_nodup hnodup.of_map (h.nodup.of_map.filter _)]
  intro backup
  rw [List.mem_filter]
  constructor
  · intro hmem
    have hname : backup.1 ∈ monthlyNames listing files year := by
      rw [← hnames]
      exact List.mem_map_of_mem hmem
    exact ⟨hread backup hmem, ((mem_monthlyNames h htidy).mp hname).2⟩
  · rintro ⟨hmem, hmember⟩
    have hname : backup.1 ∈ read.map Prod.fst := by
      rw [hnames, mem_monthlyNames h htidy]
      exact ⟨List.mem_map_of_mem hmem, hmember⟩
    obtain ⟨other, hother, heq⟩ := List.mem_map.mp hname
    rw [← List.inj_on_of_nodup_map h.nodup (hread other hother) hmem heq]
    exact hother

/-- What the merge of a year leads to. -/
def Compacted (year : ℕ) (backups after : List (String × List Block)) : Prop :=
  (∀ backup ∈ backups, (yearGroup year).member backup.1 = false) ∧ after = backups ∨
  (∃ backup ∈ backups, (yearGroup year).member backup.1) ∧ ∃ content : List Block,
    content.Perm (Backups.blocks
      (backups.filter fun backup => (yearGroup year).member backup.1)) ∧
    after = (yearGroup year).merged content backups

/-- Wherever the merge of a year stops, what is kept is there. -/
def Reaches (year : ℕ) (backups after : List (String × List Block)) : Prop :=
  ∀ groups, ∀ block ∈ Backups.blocks (MergeGroup.kept (yearGroup year :: groups) backups),
    block ∈ Backups.blocks after

lemma Reaches.refl (year : ℕ) (backups : List (String × List Block)) :
    Reaches year backups backups := by
  intro groups block hblock
  obtain ⟨backup, hbackup, hmem⟩ := List.mem_flatMap.mp hblock
  exact List.mem_flatMap.mpr ⟨backup, List.mem_of_mem_filter hbackup, hmem⟩

/-- The annual backup is in its place. -/
lemma replaced_annual (h : Backups codec files backups) (htidy : Tidy files)
    (hzstd : ∀ bytes, codec.decompress (codec.compress bytes) = .ok bytes) {g : MergeGroup String}
    {stem : String} (htarget : g.target = stem ++ ".jsonl.zst") {content : List Block}
    (hreads : ∀ block ∈ content, codec.ReadsBack block) :
    Backups codec (replaced files (.backup, temporaryName g.target) (.backup, g.target)
        (codec.compress (textBytes (recordsText codec content)))) (g.replaced content backups) ∧
      Tidy (replaced files (.backup, temporaryName g.target) (.backup, g.target)
        (codec.compress (textBytes (recordsText codec content)))) := by
  have hbackup : isBackup g.target := by
    rw [htarget]
    exact isBackup_append stem
  constructor
  · refine h.replaced hbackup (isBackup_temporaryName _) ?_ hreads
    rw [backupText, if_pos (by rw [htarget]; exact extension_backup stem), hzstd]
    exact utf8Text_textBytes _
  · refine htidy.congr fun name hmem => ?_
    by_cases hname : name = g.target
    · rw [hname]
      exact .inr (.inl hbackup)
    · left
      rw [replaced, Finmap.mem_insert] at hmem
      rcases hmem with heq | hmem
      · exact absurd (Prod.mk.inj heq).2 hname
      · exact (Finmap.mem_erase.mp hmem).2

/-- What is written beside the annual backup is no backup. -/
lemma beside (h : Backups codec files backups) (htidy : Tidy files) (year : ℕ) (bytes : Bytes) :
    Backups codec (files.insert (.backup, temporaryName (yearGroup year).target) bytes) backups ∧
      Tidy (files.insert (.backup, temporaryName (yearGroup year).target) bytes) := by
  constructor
  · refine h.congr fun name hname => lookup_insert_of_ne ?_ _
    intro heq
    rw [(Prod.mk.inj heq).2, isBackup_temporaryName] at hname
    cases hname
  · refine htidy.congr fun name hmem => ?_
    rcases Finmap.mem_insert.mp hmem with heq | hmem
    · rw [(Prod.mk.inj heq).2]
      exact .inr (.inr fun year' => not_member_temporary year' year)
    · exact .inl hmem

/-- **One year**: its monthly backups are merged, or they stay or their blocks do. -/
lemma wp_compactYear (h : Backups codec files backups) (htidy : Tidy files)
    (hzstd : ∀ bytes, codec.decompress (codec.compress bytes) = .ok bytes) (year : ℕ) :
    wp (compactYear listing codec (zeroPadded 4 year))
      (fun _ after => ∃ backups', Backups codec after backups' ∧ Tidy after ∧
        Compacted year backups backups')
      (fun after => ∃ backups', Backups codec after backups' ∧ Tidy after ∧
        Reaches year backups backups') files := by
  -- the new file has a temporary name until it is complete, so none of the backups changes
  have hsame := fun bytes => beside h htidy year bytes
  have hstay : ∀ bytes, ∃ backups', Backups codec
      (files.insert (.backup, temporaryName (yearGroup year).target) bytes) backups' ∧
      Tidy (files.insert (.backup, temporaryName (yearGroup year).target) bytes) ∧
      Reaches year backups backups' :=
    fun bytes => ⟨backups, (hsame bytes).1, (hsame bytes).2, Reaches.refl year backups⟩
  have hmonthly : ∀ name, name ∈ monthlyNames listing files year ↔
      name ∈ backups.map Prod.fst ∧ (yearGroup year).member name :=
    fun name => mem_monthlyNames h htidy
  rw [compactYear, ← target_yearGroup]
  refine wp_bind (wp_listFiles ⟨backups, h, htidy, Reaches.refl year backups⟩ ?_)
  show wp (if monthlyNames listing files year = [] then _ else _) _ _ _
  by_cases hnone : monthlyNames listing files year = []
  · rw [if_pos hnone]
    -- no monthly backup of the year: the call ends here
    refine wp_pure ⟨backups, h, htidy, .inl ⟨fun backup hmem => ?_, rfl⟩⟩
    rw [← Bool.not_eq_true]
    intro hmember
    have hname := (hmonthly backup.1).mpr ⟨List.mem_map_of_mem hmem, hmember⟩
    rw [hnone] at hname
    cases hname
  · obtain ⟨first, hfirst⟩ := List.exists_mem_of_ne_nil _ hnone
    have hany : ∃ backup ∈ backups, (yearGroup year).member backup.1 := by
      obtain ⟨hmem, hmember⟩ := (hmonthly first).mp hfirst
      obtain ⟨backup, hbackup, rfl⟩ := List.mem_map.mp hmem
      exact ⟨backup, hbackup, hmember⟩
    rw [if_neg hnone, ← temporaryName]
    -- written in the order of the source: an empty file, the texts, their compression, the rename
    refine wp_bind (wp_write ⟨backups, h, htidy, Reaches.refl year backups⟩ hstay ?_)
    refine wp_bind (wp_mono (wp_readTexts (hsame []).1 (hstay [])
      fun name hname => ((hmonthly name).mp hname).1) ?_ fun _ h => h)
    rintro text after ⟨hafter, read, hread, hnames, htext⟩
    rw [hafter, htext, String.empty_append]
    have hperm := perm_read h htidy hread hnames
    have hcontent : (Backups.blocks read).Perm (Backups.blocks
        (backups.filter fun backup => (yearGroup year).member backup.1)) := hperm.flatMap_right _
    have hreads : ∀ block ∈ Backups.blocks read, codec.ReadsBack block := by
      intro block hblock
      obtain ⟨backup, hbackup, hmem⟩ := List.mem_flatMap.mp hblock
      exact h.reads backup (hread backup hbackup) block hmem
    obtain ⟨hreplaced, htidy'⟩ := replaced_annual h htidy hzstd (target_yearGroup year) hreads
    refine wp_bind (wp_write (hstay []) (fun left => ?_) ?_)
    · rw [Finmap.insert_insert]
      exact hstay left
    rw [Finmap.insert_insert]
    refine wp_bind (wp_rename (hstay _) fun bytes hbytes => ?_)
    rw [HashMap.lookup_insert_self, Option.some.injEq] at hbytes
    rw [← hbytes, erase_insert_self]
    -- the annual file holds every block now, so the monthly ones may go in any order
    refine wp_bind (wp_mono (wp_removeBackups hreplaced htidy') ?_ ?_)
    · rintro - after ⟨hafter, htidyAfter⟩
      rw [← monthlyNames, MergeGroup.filter_replaced (not_member_target year year) hmonthly]
        at hafter
      exact wp_pure ⟨_, hafter, htidyAfter, .inr ⟨hany, _, hcontent, rfl⟩⟩
    · rintro after ⟨removed, hremoved, hafter, htidyAfter⟩
      refine ⟨_, hafter, htidyAfter, fun groups block hblock => ?_⟩
      exact MergeGroup.mem_of_mem_kept (not_member_target year year) hany hcontent
        (fun name hname => ((hmonthly name).mp (hremoved name hname)).2) hblock

/-! ## All years -/

/-- The backups that no annual one is written over. -/
def spared (years : List ℕ) (backups : List (String × List Block)) : List (String × List Block) :=
  MergeGroup.kept (years.map yearGroup) backups

/-- **Every compaction** that returns leaves the blocks of the backups that are not written over, and
one that stops anywhere leaves at least these. -/
lemma wp_compactYears (hzstd : ∀ bytes, codec.decompress (codec.compress bytes) = .ok bytes) :
    ∀ {years : List ℕ} {created : List String} {files : HashMap ArchivePlace Bytes}
      {backups : List (String × List Block)}, years.Nodup → Backups codec files backups →
      Tidy files → wp (compactYears listing codec years created)
        (fun _ after => ∃ backups', Backups codec after backups' ∧ Tidy after ∧
          (Backups.blocks backups').Perm (Backups.blocks (spared years backups)))
        (fun after => ∃ backups', Backups codec after backups' ∧ Tidy after ∧
          ∀ block ∈ Backups.blocks (spared years backups), block ∈ Backups.blocks backups')
        files := by
  intro years
  induction years with
  | nil =>
    intro created files backups _ h htidy
    refine wp_pure ⟨backups, h, htidy, ?_⟩
    have hall : spared [] backups = backups := List.filter_eq_self.mpr fun _ _ => rfl
    rw [hall]
  | cons year years ih =>
    intro created files backups hnodup h htidy
    have hrest := (List.nodup_cons.mp hnodup).2
    refine wp_bind (wp_mono (wp_compactYear h htidy hzstd year) ?_ ?_)
    · rintro annual after ⟨backups', h', htidy', hcompacted⟩
      have hperm : (Backups.blocks (spared years backups')).Perm
          (Backups.blocks (spared (year :: years) backups)) := by
        rcases hcompacted with ⟨hnone, rfl⟩ | ⟨hany, content, hcontent, rfl⟩
        · rw [spared, spared, List.map_cons, MergeGroup.kept_cons_of_forall hnone]
        · exact MergeGroup.kept_merged (separate_yearGroups hnodup) hany hcontent
      refine wp_mono (ih hrest h' htidy') ?_ ?_
      · rintro - last ⟨backups'', h'', htidy'', hblocks⟩
        exact ⟨backups'', h'', htidy'', hblocks.trans hperm⟩
      · rintro last ⟨backups'', h'', htidy'', hblocks⟩
        exact ⟨backups'', h'', htidy'', fun block hblock => hblocks block (hperm.mem_iff.mpr hblock)⟩
    · rintro after ⟨backups', h', htidy', hreaches⟩
      exact ⟨backups', h', htidy', hreaches (years.map yearGroup)⟩

/-- The years that are compacted. -/
def oldYears (currentYear : ℤ) : List ℕ := List.range' 1970 (currentYear - 1971).toNat

lemma wp_compactOldBackups (h : Backups codec files backups) (htidy : Tidy files)
    (hzstd : ∀ bytes, codec.decompress (codec.compress bytes) = .ok bytes) (currentYear : ℤ) :
    wp (compactOldBackups listing codec currentYear)
      (fun _ after => ∃ backups', Backups codec after backups' ∧ Tidy after ∧
        (Backups.blocks backups').Perm (Backups.blocks (spared (oldYears currentYear) backups)))
      (fun after => ∃ backups', Backups codec after backups' ∧ Tidy after ∧
        ∀ block ∈ Backups.blocks (spared (oldYears currentYear) backups),
          block ∈ Backups.blocks backups') files :=
  wp_compactYears hzstd List.nodup_range' h htidy

/-! ## Where nothing fails -/

lemma returns_readTexts (h : Backups codec files backups) :
    ∀ {names : List String} {text : String}, (∀ name ∈ names, name ∈ backups.map Prod.fst) →
      Returns (readTexts codec names text) (fun _ after => after = files) files := by
  intro names
  induction names with
  | nil => exact fun _ => Returns.pure rfl
  | cons name names ih =>
    intro text hnames
    obtain ⟨hname, hrest⟩ := List.forall_mem_cons.mp hnames
    obtain ⟨⟨_, more⟩, hmem, rfl⟩ := List.mem_map.mp hname
    obtain ⟨bytes, hbytes, htext⟩ := h.text _ hmem
    refine Returns.bind (Returns.mono (returns_readBackupText hbytes htext) ?_)
    rintro _ after ⟨rfl, hafter⟩
    rw [hafter]
    exact ih hrest

lemma returns_removeBackups : ∀ {names : List String} {files : HashMap ArchivePlace Bytes},
    names.Nodup → (∀ name ∈ names, ((.backup, name) : ArchivePlace) ∈ files) →
      Returns (removeBackups names) (fun _ _ => True) files := by
  intro names
  induction names with
  | nil => exact fun _ _ => Returns.pure trivial
  | cons name names ih =>
    intro files hnodup hfiles
    obtain ⟨hnew, hrest⟩ := List.nodup_cons.mp hnodup
    obtain ⟨hname, hnames⟩ := List.forall_mem_cons.mp hfiles
    obtain ⟨bytes, hbytes⟩ := Option.isSome_iff_exists.mp (Finmap.lookup_isSome.mpr hname)
    refine Returns.bind (Returns.remove hbytes (ih hrest fun other hother => ?_))
    rw [Finmap.mem_erase]
    refine ⟨fun heq => hnew ?_, hnames other hother⟩
    rw [← (Prod.mk.inj heq).2]
    exact hother

lemma returns_compactYear (h : Backups codec files backups) (htidy : Tidy files) (year : ℕ) :
    Returns (compactYear listing codec (zeroPadded 4 year)) (fun _ _ => True) files := by
  have hmonthly : ∀ name, name ∈ monthlyNames listing files year ↔
      name ∈ backups.map Prod.fst ∧ (yearGroup year).member name :=
    fun name => mem_monthlyNames h htidy
  rw [compactYear, ← target_yearGroup]
  refine Returns.bind (Returns.mono returns_listFiles ?_)
  rintro names after ⟨hafter, hnames⟩
  rw [hafter, hnames]
  show Returns (if monthlyNames listing files year = [] then _ else _) _ _
  by_cases hnone : monthlyNames listing files year = []
  · rw [if_pos hnone]
    exact Returns.pure trivial
  · rw [if_neg hnone, ← temporaryName]
    refine Returns.bind (Returns.write (Returns.bind (Returns.mono (returns_readTexts
      (beside h htidy year []).1 fun name hname => ((hmonthly name).mp hname).1) ?_)))
    rintro text after hafter
    rw [hafter]
    refine Returns.bind (Returns.write (Returns.bind
      (Returns.rename (HashMap.lookup_insert_self _ _ _) ?_)))
    refine Returns.bind (Returns.mono (returns_removeBackups nodup_monthlyNames ?_) fun _ _ _ =>
      Returns.pure trivial)
    intro name hname
    obtain ⟨hmem, hmember⟩ := (hmonthly name).mp hname
    obtain ⟨backup, hbackup, rfl⟩ := List.mem_map.mp hmem
    have htemporary : backup.1 ≠ temporaryName (yearGroup year).target := by
      intro heq
      rw [heq, not_member_temporary] at hmember
      cases hmember
    have hfile := (h.mem_iff _ (h.isBackup backup hbackup)).mpr hmem
    rw [Finmap.mem_insert, Finmap.mem_erase, Finmap.mem_insert, Finmap.mem_insert]
    exact .inr ⟨fun heq => htemporary (Prod.mk.inj heq).2, .inr (.inr hfile)⟩

/-- Where nothing fails a compaction returns. -/
lemma returns_compactYears (hzstd : ∀ bytes, codec.decompress (codec.compress bytes) = .ok bytes) :
    ∀ {years : List ℕ} {created : List String} {files : HashMap ArchivePlace Bytes}
      {backups : List (String × List Block)}, Backups codec files backups → Tidy files →
      Returns (compactYears listing codec years created) (fun _ _ => True) files := by
  intro years
  induction years with
  | nil => exact fun _ _ => Returns.pure trivial
  | cons year years ih =>
    intro created files backups h htidy
    refine Returns.bind (Returns.mono (Returns.of_wp (returns_compactYear h htidy year)
      (wp_compactYear h htidy hzstd year)) ?_)
    rintro annual after ⟨backups', h', htidy', -⟩
    exact ih h' htidy'

/-! ## Rollovers -/

/-- A rollover that returns adds the active blocks as a backup of their own. -/
lemma wp_rollover_backups [Primitives] (h : Backups codec files backups) (htidy : Tidy files)
    (hzstd : ∀ bytes, codec.decompress (codec.compress bytes) = .ok bytes) {active : List Block}
    (hreads : ∀ block ∈ active, codec.ReadsBack block)
    (hactive : files.lookup (.active, "blocks.jsonl") =
      some (textBytes (recordsText codec active))) {chain : Blockchain} {period : String} :
    wp (rollover codec chain period) (fun _ after => ∃ name,
      Backups codec after (backups ++ [(name, active)]) ∧ Tidy after) (fun _ => True) files := by
  have harchived : Archived codec files backups active := ⟨h, .inl hactive, hreads⟩
  rw [rollover_eq]
  refine wp_bind (wp_doesExist ?_)
  rw [hactive, if_pos (show (some _).isSome = true from rfl)]
  refine wp_bind (wp_mono takes_secure.wp ?_ fun _ _ => trivial)
  rintro - after ⟨bytes, backup, hbytes, hfree, ⟨stem, rfl⟩, rfl⟩
  have hsecured : Backups codec
      (secured codec files chain period (stem ++ ".jsonl.zst") bytes)
      (backups ++ [(stem ++ ".jsonl.zst", active)]) := harchived.secured hzstd hbytes hfree
  have hmore : Tidy (secured codec files chain period (stem ++ ".jsonl.zst") bytes) := by
    refine htidy.congr fun name hmem => ?_
    by_cases hname : name = stem ++ ".jsonl.zst"
    · rw [hname]
      exact .inr (.inl (isBackup_append stem))
    · left
      rw [secured, replaced, checkpointed, replaced, Finmap.mem_insert, Finmap.mem_erase,
        Finmap.mem_insert, Finmap.mem_erase] at hmem
      have hother : name ≠ temporaryName (stem ++ ".jsonl.zst") ∧
          ((.backup, name) : ArchivePlace) ∈ files := by simpa [hname] using hmem
      exact hother.2
  -- what is removed then is not in the backup directory
  have hgone : ∀ after : HashMap ArchivePlace Bytes, (∀ name, after.lookup (.backup, name) =
      (secured codec files chain period (stem ++ ".jsonl.zst") bytes).lookup (.backup, name)) →
      ∃ name, Backups codec after (backups ++ [(name, active)]) ∧ Tidy after := by
    intro after hsame
    refine ⟨_, hsecured.congr fun name _ => hsame name, hmore.congr fun name hmem => .inl ?_⟩
    rw [← Finmap.lookup_isSome, ← hsame name, Finmap.lookup_isSome]
    exact hmem
  refine wp_bind (wp_remove trivial fun _ _ => wp_attempt (wp_remove ?_ fun _ _ => ?_))
  · exact hgone _ fun name => Finmap.lookup_erase_ne (by simp)
  · refine hgone _ fun name => ?_
    rw [Finmap.lookup_erase_ne (by simp), Finmap.lookup_erase_ne (by simp)]

end ArchiveStore

/-! ## Runs -/

/-- What is done with the backups: a compaction, which may stop anywhere, or a rollover of an active
file. -/
inductive BackupStep where
  | compact (currentYear : ℤ) (faults : ℕ → Option Fault)
  | rollover (chain : Blockchain) (period : String) (active : List Block)
      (faults : ℕ → Option Fault)

/-- The blocks of the backups, as they are read. -/
def storedBlocks (listing : Listing ArchivePlace) (codec : ArchiveCodec)
    (files : HashMap ArchivePlace Bytes) : Result (List Block) :=
  (readBackupBlocks listing codec ⟨files, fun _ => none, 0, []⟩).1

namespace BackupStep

/-- The files after a step; the rollovers of a run return. -/
def run [Primitives] (listing : Listing ArchivePlace) (codec : ArchiveCodec)
    (files : HashMap ArchivePlace Bytes) : BackupStep → Result (HashMap ArchivePlace Bytes)
  | .compact currentYear faults =>
    .ok (compactOldBackups listing codec currentYear ⟨files, faults, 0, []⟩).2.files
  | .rollover chain period active faults =>
    let answer := ArchiveStore.rollover codec chain period
      ⟨files.insert (.active, "blocks.jsonl") (textBytes (recordsText codec active)), faults, 0, []⟩
    answer.1.map fun _ => answer.2.files

/-- The blocks of an active file are read back from their lines. -/
def ReadsBack (codec : ArchiveCodec) : BackupStep → Prop
  | .compact _ _ => True
  | .rollover _ _ active _ => ∀ block ∈ active, codec.ReadsBack block

/-- A compaction returns. -/
def Completes (listing : Listing ArchivePlace) (codec : ArchiveCodec)
    (files : HashMap ArchivePlace Bytes) : BackupStep → Prop
  | .compact currentYear faults => ∃ created,
    (compactOldBackups listing codec currentYear ⟨files, faults, 0, []⟩).1 = .ok created
  | .rollover _ _ _ _ => False

/-- Before a compaction, the backups that no annual one is written over hold every block once. -/
def Spares (codec : ArchiveCodec) (files : HashMap ArchivePlace Bytes) : BackupStep → Prop
  | .compact currentYear _ => ∃ backups, Backups codec files backups ∧
    (Backups.blocks (spared (oldYears currentYear) backups)).Nodup ∧
    ∀ block ∈ Backups.blocks backups, block ∈ Backups.blocks (spared (oldYears currentYear) backups)
  | .rollover _ _ _ _ => True

section
variable [Primitives] {listing : Listing ArchivePlace} {codec : ArchiveCodec}
  {files after : HashMap ArchivePlace Bytes} {backups : List (String × List Block)}

/-- **A step takes no block away**, and a compaction that returns leaves every block once. -/
lemma run_blocks (h : Backups codec files backups) (htidy : Tidy files)
    (hzstd : ∀ bytes, codec.decompress (codec.compress bytes) = .ok bytes) {step : BackupStep}
    (hreads : step.ReadsBack codec) (hspares : step.Spares codec files)
    (hrun : run listing codec files step = .ok after) :
    ∃ held backups', Backups codec files held ∧ Backups codec after backups' ∧ Tidy after ∧
      (∀ block ∈ Backups.blocks held, block ∈ Backups.blocks backups') ∧
      (step.Completes listing codec files → (Backups.blocks backups').Nodup ∧
        ∀ block ∈ Backups.blocks backups', block ∈ Backups.blocks held) := by
  cases step with
  | compact currentYear faults =>
    obtain ⟨held, hheld, honce, hall⟩ := hspares
    obtain rfl := Except.ok.inj hrun
    have hspec : _ ∧ _ := @wp_compactOldBackups listing codec files held hheld htidy hzstd
      currentYear ⟨files, faults, 0, []⟩ rfl
    cases hresult : (compactOldBackups listing codec currentYear ⟨files, faults, 0, []⟩).1 with
    | ok created =>
      obtain ⟨backups', hafter, htidy', hperm⟩ := hspec.1 created hresult
      refine ⟨held, backups', hheld, hafter, htidy', fun block hblock => ?_, fun _ => ⟨?_, ?_⟩⟩
      · exact hperm.mem_iff.mpr (hall block hblock)
      · exact hperm.nodup_iff.mpr honce
      · intro block hblock
        obtain ⟨backup, hbackup, hmem⟩ := List.mem_flatMap.mp (hperm.mem_iff.mp hblock)
        exact List.mem_flatMap.mpr ⟨backup, List.mem_of_mem_filter hbackup, hmem⟩
    | error e =>
      obtain ⟨backups', hafter, htidy', hreaches⟩ := hspec.2 e hresult
      refine ⟨held, backups', hheld, hafter, htidy', fun block hblock => ?_, ?_⟩
      · exact hreaches block (hall block hblock)
      · rintro ⟨created, hcreated⟩
        rw [hresult] at hcreated
        cases hcreated
  -- the active file is filled by the blocks of the period, apart from the backups
  | rollover chain period active faults =>
    obtain ⟨filled, hfilled⟩ : ∃ filled, filled =
      files.insert (.active, "blocks.jsonl") (textBytes (recordsText codec active)) := ⟨_, rfl⟩
    have hactive : filled.lookup (.active, "blocks.jsonl") =
        some (textBytes (recordsText codec active)) := by
      rw [hfilled]
      exact HashMap.lookup_insert_self _ _ _
    have hbackups : Backups codec filled backups := by
      rw [hfilled]
      exact h.congr fun name _ => lookup_insert_of_ne (by simp) _
    have htidy' : Tidy filled := by
      refine htidy.congr fun name hmem => .inl ?_
      rw [hfilled, Finmap.mem_insert] at hmem
      exact hmem.resolve_left (by simp)
    simp only [run, ← hfilled] at hrun
    have hspec := (@wp_rollover_backups codec filled backups _ hbackups htidy' hzstd active hreads
      hactive chain period ⟨filled, faults, 0, []⟩ rfl).1
    cases hresult : (ArchiveStore.rollover codec chain period ⟨filled, faults, 0, []⟩).1 with
    | error e =>
      rw [hresult] at hrun
      cases hrun
    | ok u =>
      rw [hresult] at hrun
      obtain rfl := Except.ok.inj hrun
      obtain ⟨name, hafter, htidyAfter⟩ := hspec u hresult
      refine ⟨backups, _, h, hafter, htidyAfter, fun block hblock => ?_, fun hcompletes => ?_⟩
      · rw [Backups.blocks, List.flatMap_append]
        exact List.mem_append_left _ hblock
      · exact hcompletes.elim

/-- The files of a run hold backups. -/
lemma run_backups (h : Backups codec files backups) (htidy : Tidy files)
    (hzstd : ∀ bytes, codec.decompress (codec.compress bytes) = .ok bytes)
    {steps : List BackupStep} (hreads : ∀ step ∈ steps, step.ReadsBack codec)
    (hspares : Along (fun before step => ∀ now,
      before.foldlM (run listing codec) files = .ok now → step.Spares codec now) steps) :
    ∀ {after}, steps.foldlM (run listing codec) files = .ok after →
      ∃ backups', Backups codec after backups' ∧ Tidy after := by
  induction steps using List.reverseRecOn with
  | nil =>
    intro after hrun
    obtain rfl : files = after := Except.ok.inj hrun
    exact ⟨backups, h, htidy⟩
  | append_singleton steps step ih =>
    intro after hrun
    obtain ⟨hbefore, hlast⟩ := along_concat.mp hspares
    rw [List.foldlM_append] at hrun
    obtain ⟨now, hnow, hrest⟩ := bind_eq_ok.mp hrun
    obtain ⟨last, hstep, hend⟩ := foldlM_cons_eq_ok.mp hrest
    obtain rfl : last = after := Except.ok.inj hend
    obtain ⟨held, hheld, htidy'⟩ :=
      ih (fun step hmem => hreads step (List.mem_append_left _ hmem)) hbefore hnow
    obtain ⟨-, backups', -, hafter, htidyAfter, -⟩ :=
      run_blocks hheld htidy' hzstd (hreads step (by simp)) (hlast now hnow) hstep
    exact ⟨backups', hafter, htidyAfter⟩

end

end BackupStep

/-- What is read is the blocks of the backups. -/
lemma storedBlocks_perm {listing : Listing ArchivePlace} {codec : ArchiveCodec}
    {files : HashMap ArchivePlace Bytes} {backups : List (String × List Block)}
    (h : Backups codec files backups) : ∃ found, storedBlocks listing codec files = .ok found ∧
      found.Perm (Backups.blocks backups) := by
  obtain ⟨found, d, hread, -, -, hperm, -⟩ :=
    @returns_readBackupBlocks listing codec files backups h ⟨files, fun _ => none, 0, []⟩
      (fun _ _ => rfl) rfl
  exact ⟨found, congrArg Prod.fst hread, hperm⟩

open BackupStep in
/-- **Compaction preserves history** in every run of compactions, which may stop anywhere, and of
rollovers, as long as before each compaction the backups that no annual one is written over hold
every block once: no step takes a block away, and a compaction that returns leaves every block
once. -/
theorem compaction_preserves [Primitives] (listing : Listing ArchivePlace) (codec : ArchiveCodec)
    (steps : List BackupStep) (files : HashMap ArchivePlace Bytes)
    (backups : List (String × List Block)) (h : Backups codec files backups) (htidy : Tidy files)
    (hjson : ∀ step ∈ steps, step.ReadsBack codec)
    (hzstd : ∀ bytes, codec.decompress (codec.compress bytes) = .ok bytes)
    (hspares : Along (fun before step => ∀ now,
      before.foldlM (run listing codec) files = .ok now → step.Spares codec now) steps) :
    Along (fun before step => ∀ now after, before.foldlM (run listing codec) files = .ok now →
      run listing codec now step = .ok after → ∃ found found',
        storedBlocks listing codec now = .ok found ∧ storedBlocks listing codec after = .ok found' ∧
        (∀ block ∈ found, block ∈ found') ∧
        (step.Completes listing codec now →
          found'.Nodup ∧ ∀ block ∈ found', block ∈ found)) steps := by
  intro before step rest heq now after hnow hstep
  obtain ⟨held, hheld, htidy'⟩ : ∃ held, Backups codec now held ∧ Tidy now := by
    refine run_backups h htidy hzstd (fun step hmem => hjson step ?_) ?_ hnow
    · rw [heq]
      exact List.mem_append_left _ hmem
    · exact fun earlier a later hbefore => hspares earlier a (later ++ step :: rest) (by
        rw [heq, hbefore, List.append_assoc, List.cons_append])
  obtain ⟨held', backups', hheld', hafter, -, hkeeps, honce⟩ :=
    run_blocks hheld htidy' hzstd (hjson step (by rw [heq]; simp)) (hspares before step rest heq now
      hnow) hstep
  obtain ⟨found, hfound, hperm⟩ := @storedBlocks_perm listing codec now held' hheld'
  obtain ⟨found', hfound', hperm'⟩ := @storedBlocks_perm listing codec after backups' hafter
  refine ⟨found, found', hfound, hfound', fun block hblock => ?_, fun hcompletes => ⟨?_, ?_⟩⟩
  · exact hperm'.mem_iff.mpr (hkeeps block (hperm.mem_iff.mp hblock))
  · exact hperm'.nodup_iff.mpr (honce hcompletes).1
  · exact fun block hblock =>
      hperm.mem_iff.mpr ((honce hcompletes).2 block (hperm'.mem_iff.mp hblock))

/-! ## A month after the year was compacted -/

namespace LateMonth
open IeumChain.TwoBlocks

/-- The year 1970 was compacted with the first block, and its last month has the second. -/
def files : HashMap ArchivePlace Bytes :=
  ((∅ : HashMap ArchivePlace Bytes).insert (.backup, "1970" ++ ".jsonl.zst")
    (textBytes (recordsText codec [Devnet.first]))).insert (.backup, "197012M" ++ ".jsonl.zst")
      (textBytes (recordsText codec [Devnet.second]))

def backups : List (String × List Block) :=
  [("1970" ++ ".jsonl.zst", [Devnet.first]), ("197012M" ++ ".jsonl.zst", [Devnet.second])]

/-- The last month alone. -/
def month : HashMap ArchivePlace Bytes :=
  (∅ : HashMap ArchivePlace Bytes).insert (.backup, "197012M" ++ ".jsonl.zst")
    (textBytes (recordsText codec [Devnet.second]))

attribute [local instance] Devnet.primitives

lemma backups_empty : Backups codec ∅ [] where
  nodup := List.nodup_nil
  mem_iff := fun name _ => by simp [Finmap.notMem_empty]
  isBackup := by simp
  text := by simp
  reads := by simp

lemma add {files : HashMap ArchivePlace Bytes} {backups : List (String × List Block)}
    (h : Backups codec files backups) {stem : String} {block : Block}
    (hreads : codec.ReadsBack block)
    (hfree : files.lookup (.backup, stem ++ ".jsonl.zst") = none) :
    Backups codec (files.insert (.backup, stem ++ ".jsonl.zst")
      (textBytes (recordsText codec [block]))) (backups ++ [(stem ++ ".jsonl.zst", [block])]) := by
  refine h.add (isBackup_append stem) hfree (HashMap.lookup_insert_self _ _ _) ?_
    (List.forall_mem_singleton.mpr hreads) fun other hne _ => lookup_insert_of_ne ?_ _
  · rw [backupText, if_pos (extension_backup stem)]
    exact utf8Text_textBytes _
  · exact fun heq => hne (Prod.mk.inj heq).2

lemma backups_month : Backups codec month [("197012M" ++ ".jsonl.zst", [Devnet.second])] :=
  add backups_empty readsBack_second rfl

lemma backups_files : Backups codec files backups := by
  refine add (add backups_empty readsBack_first rfl) readsBack_second ?_
  exact lookup_insert_of_ne (fun heq => absurd (Prod.mk.inj heq).2 (by decide)) _

lemma tidy_insert {files : HashMap ArchivePlace Bytes} (h : Tidy files) (stem : String)
    (bytes : Bytes) : Tidy (files.insert (.backup, stem ++ ".jsonl.zst") bytes) := by
  refine h.congr fun name hmem => ?_
  rcases Finmap.mem_insert.mp hmem with heq | hmem
  · rw [(Prod.mk.inj heq).2]
    exact .inr (.inl (isBackup_append stem))
  · exact .inl hmem

lemma tidy_empty : Tidy ∅ := fun _ _ hmem _ => absurd hmem Finmap.notMem_empty

lemma year : zeroPadded 4 (1970 : ℕ) = "1970" := by decide

lemma member_month : (yearGroup 1970).member ("197012M" ++ ".jsonl.zst") = true := by
  rw [member_yearGroup, year]
  decide

/-- The annual backup is written over, whatever it holds. -/
lemma blocks_spared {annual : List (String × List Block)}
    (h : ∀ backup ∈ annual, backup.1 = "1970" ++ ".jsonl.zst") :
    Backups.blocks (spared [1970] (annual ++ [("197012M" ++ ".jsonl.zst", [Devnet.second])])) =
      [Devnet.second] := by
  have htarget : (yearGroup 1970).target = "1970" ++ ".jsonl.zst" := by
    rw [target_yearGroup, year]
  have hover : MergeGroup.overwritten [yearGroup 1970]
      ((annual ++ [("197012M" ++ ".jsonl.zst", [Devnet.second])]).map Prod.fst) =
        ["1970" ++ ".jsonl.zst"] := by
    have hany : ((annual ++ [("197012M" ++ ".jsonl.zst", [Devnet.second])]).map Prod.fst).any
        (yearGroup 1970).member = true :=
      List.any_eq_true.mpr ⟨_, by simp, member_month⟩
    rw [MergeGroup.overwritten, hany, htarget]
    rfl
  have hannual : annual.filter (fun backup => backup.1 ∉ ["1970" ++ ".jsonl.zst"]) = [] := by
    rw [List.filter_eq_nil_iff]
    intro backup hmem
    simp [h backup hmem]
  rw [spared, List.map_singleton, MergeGroup.kept, hover, List.filter_append, hannual]
  rfl

end LateMonth

open LateMonth IeumChain.TwoBlocks in
/-- The annual backup of a year is written over when a last month is compacted: the first block is
gone. -/
theorem compaction_loses : ∃ created d found found',
    compactOldBackups archiveListing codec 1972 ⟨LateMonth.files, fun _ => none, 0, []⟩ =
      (.ok created, d) ∧
    storedBlocks archiveListing codec LateMonth.files = .ok found ∧ Devnet.first ∈ found ∧
    storedBlocks archiveListing codec d.files = .ok found' ∧ Devnet.first ∉ found' := by
  have htidy : Tidy LateMonth.files := tidy_insert (tidy_insert tidy_empty _ _) _ _
  obtain ⟨created, d, hrun, -, backups', hafter, -, hperm⟩ := Returns.of_wp
    (returns_compactYears decompress_compress backups_files htidy)
    (wp_compactOldBackups backups_files htidy decompress_compress 1972)
    ⟨LateMonth.files, fun _ => none, 0, []⟩ (fun _ _ => rfl) rfl
  obtain ⟨found, hfound, hbefore⟩ := @storedBlocks_perm archiveListing _ _ _ backups_files
  obtain ⟨found', hfound', hblocks⟩ := @storedBlocks_perm archiveListing _ _ _ hafter
  refine ⟨created, d, found, found', hrun, hfound, ?_, hfound', ?_⟩
  · exact hbefore.mem_iff.mpr List.mem_cons_self
  · have hlast := hblocks.trans hperm
    rw [show oldYears 1972 = [1970] from rfl,
      show LateMonth.backups = [("1970" ++ ".jsonl.zst", [Devnet.first])] ++
        [("197012M" ++ ".jsonl.zst", [Devnet.second])] from rfl,
      blocks_spared (List.forall_mem_singleton.mpr rfl)] at hlast
    rw [hlast.mem_iff, List.mem_singleton]
    exact fun heq => absurd (congrArg Block.height heq) (by decide)

open LateMonth IeumChain.TwoBlocks BackupStep in
attribute [local instance] Devnet.primitives in
/-- Where there is no annual backup yet, the last month is compacted. -/
theorem compaction_preserves_month : ∃ after found found',
    run archiveListing codec month (.compact 1972 fun _ => none) = .ok after ∧
    storedBlocks archiveListing codec month = .ok found ∧
    storedBlocks archiveListing codec after = .ok found' ∧
    (∀ block ∈ found, block ∈ found') ∧ found'.Nodup ∧ ∀ block ∈ found', block ∈ found := by
  have htidy : Tidy month := tidy_insert tidy_empty _ _
  obtain ⟨created, d, hcompleted, -⟩ := returns_compactYears decompress_compress backups_month htidy
    ⟨month, fun _ => none, 0, []⟩ (fun _ _ => rfl) rfl
  have hspared : Backups.blocks (spared (oldYears 1972)
      [("197012M" ++ ".jsonl.zst", [Devnet.second])]) = [Devnet.second] := by
    have hblocks := @blocks_spared [] (by simp)
    rwa [List.nil_append] at hblocks
  have hspares : (BackupStep.compact 1972 fun _ => none).Spares codec month := by
    refine ⟨_, backups_month, ?_, ?_⟩
    · rw [hspared]
      exact List.nodup_singleton _
    · rw [hspared]
      exact fun block hblock => hblock
  have hpreserves := compaction_preserves archiveListing codec [.compact 1972 fun _ => none] month
    _ backups_month htidy (List.forall_mem_singleton.mpr trivial) decompress_compress (by
      rw [← List.nil_append [_], along_concat]
      refine ⟨along_nil _, fun now hnow => ?_⟩
      obtain rfl : month = now := Except.ok.inj hnow
      exact hspares)
  obtain ⟨found, found', hfound, hfound', hkeeps, honce⟩ :=
    hpreserves [] (.compact 1972 fun _ => none) [] rfl month _ rfl rfl
  exact ⟨_, found, found', rfl, hfound, hfound', hkeeps,
    honce ⟨created, congrArg Prod.fst hcompleted⟩⟩

end IeumChain
