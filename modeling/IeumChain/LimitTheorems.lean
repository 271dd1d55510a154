import IeumChain.Archive
import IeumChain.Lib.Runs
import Mathlib.Algebra.BigOperators.Group.Finset.Basic

/-!
# The bytes of the active directory

An append makes room for the record before it writes it, and it writes the name of the period then,
which nothing made room for. Where a file of the period is there already it is written over with the
same name; where the append begins a new one, the limit may be passed (`active_limit_iff`).
-/

namespace IeumChain

open Lib Lib.Disk

/-! ## Bytes of a directory -/

/-- The length of a file, and nothing if there is none. -/
def sizeAt (files : HashMap ArchivePlace Bytes) (place : ArchivePlace) : ℕ :=
  ((files.lookup place).map List.length).getD 0

/-- The bytes of the files of a directory. -/
def bytesIn (files : HashMap ArchivePlace Bytes) (directory : ArchiveDirectory) : ℕ :=
  ∑ place ∈ files.keys.filter fun place => place.1 = directory, sizeAt files place

/-- A place of the active directory that the store does not write. -/
def IsOther (place : ArchivePlace) : Prop :=
  place.1 = .active ∧ place.2 ≠ "blocks.jsonl" ∧ place.2 ≠ "period"

instance : DecidablePred IsOther := fun _ => inferInstanceAs (Decidable (_ ∧ _))

/-- The bytes of the other files of the active directory. -/
def otherBytes (files : HashMap ArchivePlace Bytes) : ℕ :=
  ∑ place ∈ files.keys.filter IsOther, sizeAt files place

lemma sizeAt_eq_zero {files : HashMap ArchivePlace Bytes} {place : ArchivePlace}
    (h : place ∉ files) : sizeAt files place = 0 := by
  rw [sizeAt, Finmap.lookup_eq_none.mpr h]
  rfl

/-- A sum over files is a sum over any places that have no others with the property. -/
lemma sum_files {files : HashMap ArchivePlace Bytes} {c : ArchivePlace → Prop} [DecidablePred c]
    {places : Finset ArchivePlace} (h : ∀ place ∈ places, c place)
    (hall : ∀ place ∈ files, c place → place ∈ places) :
    ∑ place ∈ files.keys.filter c, sizeAt files place = ∑ place ∈ places, sizeAt files place := by
  apply Finset.sum_subset
  · intro place hplace
    obtain ⟨hmem, hc⟩ := Finset.mem_filter.mp hplace
    exact hall place (Finmap.mem_keys.mp hmem) hc
  · intro place hplace hnot
    apply sizeAt_eq_zero
    exact fun hmem => hnot (Finset.mem_filter.mpr ⟨Finmap.mem_keys.mpr hmem, h place hplace⟩)

lemma bytesIn_active (files : HashMap ArchivePlace Bytes) :
    bytesIn files .active = otherBytes files + sizeAt files (.active, "blocks.jsonl") +
      sizeAt files (.active, "period") := by
  have hother : ∀ {place}, place ∈ files.keys.filter IsOther → IsOther place :=
    fun h => (Finset.mem_filter.mp h).2
  have hperiod : ((.active, "period") : ArchivePlace) ∉ files.keys.filter IsOther :=
    fun hmem => (hother hmem).2.2 rfl
  have hblocks : ((.active, "blocks.jsonl") : ArchivePlace) ∉
      insert ((.active, "period") : ArchivePlace) (files.keys.filter IsOther) := by
    rw [Finset.mem_insert, not_or]
    exact ⟨by decide, fun hmem => (hother hmem).2.1 rfl⟩
  have hsum : bytesIn files .active = ∑ place ∈ insert ((.active, "blocks.jsonl") : ArchivePlace)
      (insert ((.active, "period") : ArchivePlace) (files.keys.filter IsOther)),
        sizeAt files place := by
    apply sum_files
    · intro place hplace
      rcases Finset.mem_insert.mp hplace with rfl | hplace
      · rfl
      rcases Finset.mem_insert.mp hplace with rfl | hplace
      · rfl
      · exact (hother hplace).1
    · rintro ⟨directory, name⟩ hmem hactive
      obtain rfl : directory = .active := hactive
      rw [Finset.mem_insert, Finset.mem_insert, Finset.mem_filter, Finmap.mem_keys]
      by_cases hname : name = "blocks.jsonl"
      · exact .inl (by rw [hname])
      by_cases hname' : name = "period"
      · exact .inr (.inl (by rw [hname']))
      · exact .inr (.inr ⟨hmem, rfl, hname, hname'⟩)
  have hothers : otherBytes files = ∑ place ∈ files.keys.filter IsOther, sizeAt files place := rfl
  rw [hsum, Finset.sum_insert hblocks, Finset.sum_insert hperiod, ← hothers]
  omega

/-- The other files count the same where they are the same. -/
lemma otherBytes_congr {files after : HashMap ArchivePlace Bytes}
    (h : ∀ place, IsOther place → after.lookup place = files.lookup place) :
    otherBytes after = otherBytes files := by
  have hkeys : after.keys.filter IsOther = files.keys.filter IsOther := by
    ext place
    rw [Finset.mem_filter, Finset.mem_filter, Finmap.mem_keys, Finmap.mem_keys]
    constructor
    · rintro ⟨hmem, hother⟩
      rw [← Finmap.lookup_isSome, h place hother, Finmap.lookup_isSome] at hmem
      exact ⟨hmem, hother⟩
    · rintro ⟨hmem, hother⟩
      rw [← Finmap.lookup_isSome, ← h place hother, Finmap.lookup_isSome] at hmem
      exact ⟨hmem, hother⟩
  rw [otherBytes, otherBytes, hkeys]
  apply Finset.sum_congr rfl
  intro place hmem
  rw [sizeAt, sizeAt, h place (Finset.mem_filter.mp hmem).2]

/-! ## Listings -/

/-- The names of a directory, as it is listed. -/
def namesIn (listing : Listing ArchivePlace) (files : HashMap ArchivePlace Bytes)
    (directory : ArchiveDirectory) : List String :=
  ((listing.places files).filter fun place => place.1 = directory).map Prod.snd

section Names
variable {listing : Listing ArchivePlace} {files : HashMap ArchivePlace Bytes}
  {directory : ArchiveDirectory}

lemma mem_namesIn {name : String} :
    name ∈ namesIn listing files directory ↔ ((directory, name) : ArchivePlace) ∈ files := by
  rw [namesIn, List.mem_map]
  constructor
  · rintro ⟨⟨other, name⟩, hmem, rfl⟩
    obtain ⟨hplace, hdirectory⟩ := List.mem_filter.mp hmem
    obtain rfl : other = directory := of_decide_eq_true hdirectory
    exact (listing.mem_places files _).mp hplace
  · intro hmem
    refine ⟨(directory, name), List.mem_filter.mpr ⟨?_, decide_eq_true rfl⟩, rfl⟩
    exact (listing.mem_places files _).mpr hmem

/-- A directory without files. -/
lemma namesIn_eq_nil (h : ∀ name, ((directory, name) : ArchivePlace) ∉ files) :
    namesIn listing files directory = [] := by
  rw [List.eq_nil_iff_forall_not_mem]
  intro name hmem
  exact h name (mem_namesIn.mp hmem)

lemma nodup_namesIn : (namesIn listing files directory).Nodup := by
  refine ((listing.nodup files).filter _).map_on ?_
  rintro ⟨a, name⟩ ha ⟨b, name'⟩ hb hsame
  obtain rfl : a = directory := of_decide_eq_true (List.mem_filter.mp ha).2
  obtain rfl : b = a := of_decide_eq_true (List.mem_filter.mp hb).2
  rw [show name = name' from hsame]

end Names

namespace ArchiveStore
variable {listing : Listing ArchivePlace} {codec : ArchiveCodec}

/-! ## What the operations find -/

/-- The sum of the lengths, up to the largest number. -/
lemma takes_sumSizes {directory : ArchiveDirectory} {files : HashMap ArchivePlace Bytes}
    {C : HashMap ArchivePlace Bytes → Prop} (hC : C files) :
    ∀ {names : List String} {sum : ℕ}, sum < 2 ^ 64 →
      Takes names.length (sumSizes directory names sum) (fun total after => after = files ∧
        total = min (sum + (names.map fun name => sizeAt files (directory, name)).sum)
          (2 ^ 64 - 1)) C files := by
  intro names
  induction names with
  | nil =>
    intro sum hsum
    refine takes_pure ⟨rfl, ?_⟩
    rw [List.map_nil, List.sum_nil]
    omega
  | cons name names ih =>
    intro sum hsum
    refine takes_next (takes_size hC fun bytes hbytes => ?_)
    refine takes_mono (ih (by omega)) ?_ fun _ h => h
    rintro total after ⟨hafter, htotal⟩
    refine ⟨hafter, ?_⟩
    have hsize : sizeAt files (directory, name) = bytes.length := by
      rw [sizeAt, hbytes]
      rfl
    rw [htotal, List.map_cons, List.sum_cons, hsize]
    omega

lemma sum_names (files : HashMap ArchivePlace Bytes) (directory : ArchiveDirectory) :
    ((namesIn listing files directory).map fun name => sizeAt files (directory, name)).sum =
      bytesIn files directory := by
  have hsame : (namesIn listing files directory).map
      (fun name => sizeAt files (directory, name)) =
        ((listing.places files).filter fun place => place.1 = directory).map (sizeAt files) := by
    rw [namesIn, List.map_map]
    apply List.map_congr_left
    rintro ⟨other, name⟩ hmem
    obtain rfl : other = directory := by simpa using (List.mem_filter.mp hmem).2
    rfl
  rw [hsame, ← List.sum_toFinset _ ((listing.nodup files).filter _)]
  symm
  apply sum_files
  · intro place hplace
    simpa using (List.mem_filter.mp (List.mem_toFinset.mp hplace)).2
  · intro place hmem hdirectory
    refine List.mem_toFinset.mpr (List.mem_filter.mpr ⟨?_, by simpa using hdirectory⟩)
    exact (listing.mem_places files place).mpr hmem

lemma takes_directoryBytes {directory : ArchiveDirectory} {files : HashMap ArchivePlace Bytes}
    {C : HashMap ArchivePlace Bytes → Prop} (hC : C files) :
    Takes ((namesIn listing files directory).length + 1) (directoryBytes listing directory)
      (fun total after => after = files ∧ total = min (bytesIn files directory) (2 ^ 64 - 1))
      C files := by
  refine takes_next (takes_next (takes_list hC (takes_pure ?_)))
  show Takes _ (sumSizes directory (namesIn listing files directory) 0) _ _ _
  refine takes_mono (takes_sumSizes hC (by decide)) ?_ fun _ h => h
  rintro total after ⟨hafter, htotal⟩
  rw [sum_names, Nat.zero_add] at htotal
  exact ⟨hafter, htotal⟩

lemma utf8Text_textBytes (s : String) : utf8Text (textBytes s) = .ok s := by
  rw [utf8Text, decodeText_eq_some.mpr rfl]
  rfl

/-- The period that is stored. -/
def storedPeriod (files : HashMap ArchivePlace Bytes) : Result (Option String) :=
  match files.lookup (.active, "period") with
  | some bytes => do
    let value ← utf8Text bytes
    return some (trim value)
  | none => return none

lemma takes_readActivePeriod {files : HashMap ArchivePlace Bytes}
    {C : HashMap ArchivePlace Bytes → Prop} (hC : C files) :
    Takes 1 readActivePeriod
      (fun period after => after = files ∧ storedPeriod files = .ok period) C files := by
  refine takes_next (takes_read hC (takes_lift (fun period hperiod => ⟨rfl, ?_⟩) fun _ _ => hC))
  exact hperiod

/-- The stored name is no longer than its file. -/
lemma textLen_le_of_storedPeriod {files : HashMap ArchivePlace Bytes} {period : String}
    (h : storedPeriod files = .ok (some period)) :
    textLen period ≤ sizeAt files (.active, "period") := by
  unfold storedPeriod at h
  cases hbytes : files.lookup (.active, "period") with
  | none =>
    rw [hbytes] at h
    exact absurd (Except.ok.inj h) (by simp)
  | some bytes =>
    rw [hbytes] at h
    simp only [bind_eq_ok, pure_eq_ok, utf8Text, okOr_eq_ok, decodeText_eq_some,
      Option.some.injEq] at h
    obtain ⟨value, hvalue, rfl⟩ := h
    rw [sizeAt, hbytes, Option.map_some, Option.getD_some, ← hvalue]
    exact textLen_trim_le value

/-! ## An append -/

lemma leaves_uniquePart {S : ArchivePlace → Prop} {period : String} :
    ∀ {left part : ℕ}, Leaves S (uniquePart period left part) := by
  intro left
  induction left with
  | zero => exact fun {part} => Leaves.throw _
  | succ left ih =>
    intro part
    refine Leaves.bind (Leaves.doesExist _) fun found => ?_
    cases found
    · exact Leaves.pure _
    · exact ih

lemma leaves_uniqueBackupPath {S : ArchivePlace → Prop} {period : String} :
    Leaves S (uniqueBackupPath period) := by
  refine Leaves.bind (Leaves.doesExist _) fun found => ?_
  cases found
  · exact Leaves.pure _
  · exact leaves_uniquePart

/-- The active directory is left alone until its file is removed. -/
lemma leaves_atomicJson {S : ArchivePlace → Prop} (h : ∀ name, ¬ S (.checkpoints, name))
    (name : String) (bytes : Bytes) : Leaves S (atomicJson name bytes) :=
  Leaves.bind (Leaves.write (h _) _) fun _ => Leaves.rename (h _) (h _)

lemma leaves_compressFile {S : ArchivePlace → Prop} (h : ∀ name, ¬ S (.backup, name))
    (source : ArchivePlace) (destination : String) :
    Leaves S (compressFile codec source destination) := by
  refine Leaves.bind (Leaves.read _) fun _ => Leaves.bind (Leaves.lift _) fun _ => ?_
  refine Leaves.bind (Leaves.write (h _) _) fun _ => Leaves.bind (Leaves.write (h _) _) fun _ => ?_
  exact Leaves.rename (h _) (h _)

lemma leaves_rollover [Primitives] (chain : Blockchain) (period : String) :
    Leaves IsOther (rollover codec chain period) := by
  refine Leaves.bind (Leaves.doesExist _) fun found => ?_
  cases found
  · exact Leaves.pure _
  · refine Leaves.bind
      (leaves_atomicJson (fun name h => ArchiveDirectory.noConfusion h.1) _ _) fun _ => ?_
    refine Leaves.bind leaves_uniqueBackupPath fun backup => ?_
    refine Leaves.bind
      (leaves_compressFile (fun name h => ArchiveDirectory.noConfusion h.1) _ _) fun _ => ?_
    refine Leaves.bind (Leaves.remove fun h => h.2.1 rfl) fun _ => ?_
    exact Leaves.attempt (Leaves.remove fun h => h.2.2 rfl)

/-- After a rollover there is no active file. -/
lemma wp_rollover [Primitives] {chain : Blockchain} {period : String}
    {files : HashMap ArchivePlace Bytes} :
    wp (rollover codec chain period)
      (fun _ after => after.lookup (.active, "blocks.jsonl") = none) (fun _ => True) files := by
  refine wp_bind (wp_doesExist ?_)
  cases hfound : files.lookup (.active, "blocks.jsonl") with
  | none => exact wp_pure hfound
  | some bytes =>
    have htrue : ∀ {α : Type} (x : DiskM ArchivePlace α) files,
        wp x (fun _ _ => True) (fun _ => True) files :=
      fun x files d _ => ⟨fun _ _ => trivial, fun _ _ => trivial⟩
    refine wp_bind (wp_mono (htrue _ _) (fun _ _ _ => ?_) fun _ _ => trivial)
    refine wp_bind (wp_mono (htrue _ _) (fun _ _ _ => ?_) fun _ _ => trivial)
    refine wp_bind (wp_mono (htrue _ _) (fun _ _ _ => ?_) fun _ _ => trivial)
    refine wp_bind (wp_remove trivial fun _ _ => wp_attempt (wp_remove ?_ fun _ _ => ?_))
    · exact Finmap.lookup_erase _ _
    · rw [Finmap.lookup_erase_ne (by decide)]
      exact Finmap.lookup_erase _ _

/-- The active file is moved to the backups before the record is written. -/
def Rolls (store : ArchiveStore) (files : HashMap ArchivePlace Bytes) (record : Bytes)
    (period : String) (current : Option String) : Prop :=
  (∃ value ∈ current, value ≠ period) ∨
    store.maxActiveBytes.toNat < bytesIn files .active + record.length

instance (store : ArchiveStore) (files : HashMap ArchivePlace Bytes) (record : Bytes)
    (period : String) (current : Option String) :
    Decidable (store.Rolls files record period current) := inferInstanceAs (Decidable (_ ∨ _))

lemma length_blockRecord_pos (codec : ArchiveCodec) (block : Block) :
    1 ≤ (blockRecord codec block).length := by
  rw [blockRecord, textBytes_append, List.length_append]
  exact Nat.le_add_left 1 _

/-- What `append_finalized` decides from the bytes it counted. -/
lemma needsRollover_eq {store : ArchiveStore} {files : HashMap ArchivePlace Bytes} {record : Bytes}
    {period : String} {current : Option String} {total : ℕ} {rolls : Bool}
    (htotal : total = min (bytesIn files .active) (2 ^ 64 - 1)) (hrecord : 1 ≤ record.length)
    (h : store.needsRollover period current total record.length = .ok rolls) :
    rolls = decide (store.Rolls files record period current) := by
  rw [needsRollover] at h
  split at h
  · rename_i hmonth
    rw [← Except.ok.inj h]
    exact (decide_eq_true (.inl hmonth)).symm
  · rename_i hmonth
    simp only [bind_eq_ok, ensure_eq_ok, pure_eq_ok] at h
    obtain ⟨_, hsum, rfl⟩ := h
    -- a record is not empty, so a sum that fits is not cut off
    have hexact : total = bytesIn files .active := by omega
    rw [hexact, decide_eq_decide, Rolls]
    exact ⟨.inr, fun h => h.resolve_left hmonth⟩

lemma needsRollover_returns (store : ArchiveStore) (period : String) (current : Option String)
    {total record : ℕ} (hsum : total + record < 2 ^ 64) :
    ∃ rolls, store.needsRollover period current total record = .ok rolls := by
  unfold needsRollover
  split
  · exact ⟨_, rfl⟩
  · rw [ensure_eq_ok (u := ()).mpr hsum]
    exact ⟨_, rfl⟩

/-- The bytes of the active directory after the writes of an append. -/
lemma wp_writeRecord {files before : HashMap ArchivePlace Bytes} {record : Bytes} {period : String}
    (hsame : ∀ place, IsOther place → before.lookup place = files.lookup place) :
    wp (do
      Disk.append (.active, "blocks.jsonl") record
      Disk.write (.active, "period") (textBytes period)) (fun _ after =>
        after.lookup (.active, "period") = some (textBytes period) ∧
        bytesIn after .active = otherBytes files + sizeAt before (.active, "blocks.jsonl") +
          record.length + textLen period) (fun _ => True) before := by
  refine wp_bind (wp_append trivial (fun _ => trivial) (wp_write trivial (fun _ => trivial) ?_))
  have hblocks : sizeAt ((before.insert (.active, "blocks.jsonl")
      ((before.lookup (.active, "blocks.jsonl")).getD [] ++ record)).insert (.active, "period")
        (textBytes period)) (.active, "blocks.jsonl") =
      sizeAt before (.active, "blocks.jsonl") + record.length := by
    rw [sizeAt, lookup_insert_of_ne (by decide), HashMap.lookup_insert_self, Option.map_some,
      Option.getD_some, List.length_append, sizeAt]
    cases before.lookup (.active, "blocks.jsonl") <;> rfl
  have hperiod : sizeAt ((before.insert (.active, "blocks.jsonl")
      ((before.lookup (.active, "blocks.jsonl")).getD [] ++ record)).insert (.active, "period")
        (textBytes period)) (.active, "period") = textLen period := by
    rw [sizeAt, HashMap.lookup_insert_self]
    rfl
  have hother : otherBytes ((before.insert (.active, "blocks.jsonl")
      ((before.lookup (.active, "blocks.jsonl")).getD [] ++ record)).insert (.active, "period")
        (textBytes period)) = otherBytes files := by
    apply otherBytes_congr
    intro place hplace
    have hnot : place ≠ (.active, "period") := by
      rintro rfl
      exact hplace.2.2 rfl
    have hnot' : place ≠ (.active, "blocks.jsonl") := by
      rintro rfl
      exact hplace.2.1 rfl
    rw [lookup_insert_of_ne hnot, lookup_insert_of_ne hnot', hsame place hplace]
  refine ⟨HashMap.lookup_insert_self _ _ _, ?_⟩
  rw [bytesIn_active, hblocks, hperiod, hother]
  omega

/-- The bytes of the active directory after an append. -/
lemma wp_appendFinalized [Primitives] {store : ArchiveStore} {block : Block} {chain : Blockchain}
    {files : HashMap ArchivePlace Bytes} :
    wp (appendFinalized listing codec store block chain)
      (fun _ after => ∃ period current, periodFromTimestamp block.timestamp = .ok period ∧
        storedPeriod files = .ok current ∧
        after.lookup (.active, "period") = some (textBytes period) ∧
        bytesIn after .active = otherBytes files +
          (if store.Rolls files (blockRecord codec block) period current then 0
            else sizeAt files (.active, "blocks.jsonl")) +
          (blockRecord codec block).length + textLen period) (fun _ => True) files := by
  refine wp_bind (wp_lift (fun period hperiod => ?_) fun _ _ => trivial)
  refine wp_bind (wp_lift (fun _ _ => ?_) fun _ _ => trivial)
  refine wp_bind (wp_mono (takes_readActivePeriod (C := fun _ => True) trivial).wp ?_ fun _ _ => trivial)
  rintro current files₁ ⟨hsame, hcurrent⟩
  rw [hsame]
  refine wp_bind (wp_mono (takes_directoryBytes (C := fun _ => True) trivial).wp ?_ fun _ _ => trivial)
  rintro total files₂ ⟨hsame, htotal⟩
  rw [hsame]
  refine wp_bind (wp_lift (fun rolls hneeds => ?_) fun _ _ => trivial)
  have hrolls := needsRollover_eq htotal (length_blockRecord_pos codec block) hneeds
  split
  · -- rolled over: the file is new
    rename_i hroll
    rw [hroll] at hrolls
    refine wp_bind (wp_mono (wp_leaves (leaves_rollover _ _) wp_rollover) ?_ fun _ _ => trivial)
    rintro _ before ⟨hnone, hbefore⟩
    refine wp_mono (wp_writeRecord hbefore) ?_ fun _ _ => trivial
    rintro _ after ⟨hstored, hbytes⟩
    refine ⟨period, current, hperiod, hcurrent, hstored, ?_⟩
    have hempty : sizeAt before (.active, "blocks.jsonl") = 0 := by
      rw [sizeAt, hnone]
      rfl
    rw [hbytes, hempty, if_pos (of_decide_eq_true hrolls.symm)]
  · -- not rolled over: the record is appended
    rename_i hkeep
    rw [Bool.eq_false_of_not_eq_true hkeep] at hrolls
    refine wp_mono (wp_writeRecord fun _ _ => rfl) ?_ fun _ _ => trivial
    rintro _ after ⟨hstored, hbytes⟩
    refine ⟨period, current, hperiod, hcurrent, hstored, ?_⟩
    rw [hbytes, if_neg (of_decide_eq_false hrolls.symm)]

/-! ## The report -/

lemma wp_listFiles {Q : List String → HashMap ArchivePlace Bytes → Prop}
    {directory : ArchiveDirectory} {files : HashMap ArchivePlace Bytes}
    {C : HashMap ArchivePlace Bytes → Prop} (hC : C files) (hQ : Q (namesIn listing files directory) files) :
    wp (listFiles listing directory) Q C files :=
  wp_bind (wp_list hC (wp_pure hQ))

lemma returns_listFiles {directory : ArchiveDirectory} {files : HashMap ArchivePlace Bytes} :
    Returns (listFiles listing directory) (fun names after => after = files ∧
      names = namesIn listing files directory) files :=
  Returns.bind (Returns.list (Returns.pure ⟨rfl, rfl⟩))

lemma returns_sumSizes {directory : ArchiveDirectory} {files : HashMap ArchivePlace Bytes} :
    ∀ {names : List String} {sum : ℕ}, (∀ name ∈ names, (directory, name) ∈ files) →
      sum < 2 ^ 64 → Returns (sumSizes directory names sum) (fun total after => after = files ∧
        total = min (sum + (names.map fun name => sizeAt files (directory, name)).sum)
          (2 ^ 64 - 1)) files := by
  intro names
  induction names with
  | nil =>
    intro sum _ hsum
    refine Returns.pure ⟨rfl, ?_⟩
    rw [List.map_nil, List.sum_nil]
    omega
  | cons name names ih =>
    intro sum hnames hsum
    obtain ⟨hname, hrest⟩ := List.forall_mem_cons.mp hnames
    obtain ⟨bytes, hbytes⟩ := Option.isSome_iff_exists.mp (Finmap.lookup_isSome.mpr hname)
    refine Returns.bind (Returns.size hbytes ?_)
    refine Returns.mono (ih hrest (by omega)) ?_
    rintro total after ⟨hafter, htotal⟩
    refine ⟨hafter, ?_⟩
    have hsize : sizeAt files (directory, name) = bytes.length := by
      rw [sizeAt, hbytes]
      rfl
    rw [htotal, List.map_cons, List.sum_cons, hsize]
    omega

lemma returns_directoryBytes {directory : ArchiveDirectory}
    {files : HashMap ArchivePlace Bytes} :
    Returns (directoryBytes listing directory) (fun total after => after = files ∧
      total = min (bytesIn files directory) (2 ^ 64 - 1)) files := by
  refine Returns.bind (Returns.mono returns_listFiles ?_)
  rintro names _ ⟨rfl, rfl⟩
  rename_i files
  refine Returns.mono (returns_sumSizes ?_ (by decide)) ?_
  · exact fun name hname => mem_namesIn.mp hname
  · rintro total after ⟨hafter, htotal⟩
    rw [sum_names, Nat.zero_add] at htotal
    exact ⟨hafter, htotal⟩

/-- The report has the bytes of the active directory. -/
lemma returns_status {store : ArchiveStore} {files : HashMap ArchivePlace Bytes}
    {period : Option String} (hperiod : storedPeriod files = .ok period) :
    Returns (status listing store) (fun report _ =>
      report.activeBytes = min (bytesIn files .active) (2 ^ 64 - 1)) files := by
  refine Returns.bind (Returns.mono returns_listFiles ?_)
  rintro checkpoints files₁ ⟨hsame, _⟩
  rw [hsame]
  refine Returns.bind (Returns.mono returns_listFiles ?_)
  rintro backups files₂ ⟨hsame, _⟩
  rw [hsame]
  refine Returns.bind (Returns.mono returns_directoryBytes ?_)
  rintro total files₃ ⟨hsame, htotal⟩
  rw [hsame]
  refine Returns.bind (Returns.bind (Returns.read (Returns.lift hperiod ?_)))
  exact Returns.pure htotal

/-- The active directory has at most the bytes of the limit, as `status` reports them. -/
def LimitKept (listing : Listing ArchivePlace) (store : ArchiveStore) (d : Disk ArchivePlace) :
    Prop :=
  ∃ report d', status listing store d.sound = (.ok report, d') ∧
    report.activeBytes ≤ store.maxActiveBytes.toNat

lemma limitKept_iff {store : ArchiveStore} (hlimit : store.maxActiveBytes ≤ 100000000)
    {d : Disk ArchivePlace} {period : Option String} (hperiod : storedPeriod d.files = .ok period) :
    LimitKept listing store d ↔ bytesIn d.files .active ≤ store.maxActiveBytes.toNat := by
  obtain ⟨report, d', hstatus, _, hbytes⟩ :=
    @returns_status listing store d.files _ hperiod d.sound (sound_sound d) rfl
  have hsmall : store.maxActiveBytes.toNat ≤ 100000000 := UInt64.le_iff_toNat_le.mp hlimit
  constructor
  · rintro ⟨report', d'', hstatus', hkept⟩
    rw [hstatus] at hstatus'
    obtain rfl : report = report' := Except.ok.inj (congrArg Prod.fst hstatus')
    omega
  · intro hkept
    exact ⟨report, d', hstatus, by omega⟩

/-! ## A run of appends -/

/-- The append goes on with the file of its period. -/
def Continues (store : ArchiveStore) (files : HashMap ArchivePlace Bytes) (record : Bytes)
    (period : String) : Prop :=
  storedPeriod files = .ok (some period) ∧
    bytesIn files .active + record.length ≤ store.maxActiveBytes.toNat

/-- What is in the active directory when the record is written: an active file without a period
stays if the record fits, and any other is moved away. -/
def remainingBytes (store : ArchiveStore) (files : HashMap ArchivePlace Bytes) (record : Bytes) :
    ℕ :=
  otherBytes files +
    if files.lookup (.active, "period") = none ∧
        bytesIn files .active + record.length ≤ store.maxActiveBytes.toNat then
      sizeAt files (.active, "blocks.jsonl")
    else 0

/-- There is room for the record and for the name of its period. -/
def HasRoom (store : ArchiveStore) (files : HashMap ArchivePlace Bytes) (record : Bytes)
    (timestamp : UInt64) : Prop :=
  ∀ period, periodFromTimestamp timestamp = .ok period →
    store.Continues files record period ∨
      store.remainingBytes files record + record.length + textLen period ≤
        store.maxActiveBytes.toNat

lemma storedPeriod_eq_none {files : HashMap ArchivePlace Bytes} :
    storedPeriod files = .ok none ↔ files.lookup (.active, "period") = none := by
  unfold storedPeriod
  cases files.lookup (.active, "period") with
  | none => exact ⟨fun _ => rfl, fun _ => rfl⟩
  | some bytes =>
    simp only [bind_eq_ok, pure_eq_ok]
    constructor
    · rintro ⟨_, _, hvalue⟩
      cases hvalue
    · intro hvalue
      cases hvalue

/-- An append that does not go on with a file adds to what remains. -/
lemma remainingBytes_eq {store : ArchiveStore} {files : HashMap ArchivePlace Bytes}
    {record : Bytes} {period : String} {current : Option String}
    (hcurrent : storedPeriod files = .ok current) (hnew : ¬ store.Continues files record period) :
    otherBytes files + (if store.Rolls files record period current then 0
      else sizeAt files (.active, "blocks.jsonl")) = store.remainingBytes files record := by
  rw [remainingBytes]
  congr 1
  split
  · rename_i hrolls
    rw [if_neg]
    rintro ⟨hnone, hfits⟩
    rw [storedPeriod_eq_none.mpr hnone] at hcurrent
    obtain rfl : none = current := Except.ok.inj hcurrent
    rcases hrolls with ⟨value, hvalue, _⟩ | hlarge
    · cases hvalue
    · omega
  · rename_i hkeeps
    rw [Rolls, not_or, not_lt] at hkeeps
    obtain ⟨hsame, hfits⟩ := hkeeps
    rw [if_pos]
    refine ⟨storedPeriod_eq_none.mp ?_, hfits⟩
    cases current with
    | none => exact hcurrent
    | some value =>
      have hvalue : value = period := by
        by_contra hne
        exact hsame ⟨value, rfl, hne⟩
      exact absurd ⟨hvalue ▸ hcurrent, hfits⟩ hnew

/-- One append keeps the limit exactly when it goes on with a file or there is room. -/
theorem append_limit_iff [Primitives] {store : ArchiveStore}
    (hlimit : store.maxActiveBytes ≤ 100000000) {block : Block} {chain : Blockchain}
    {d d' : Disk ArchivePlace}
    (happend : appendFinalized listing codec store block chain d = (.ok (), d')) :
    LimitKept listing store d' ↔
      store.HasRoom d.files (blockRecord codec block) block.timestamp := by
  have hspec : ∃ period current, periodFromTimestamp block.timestamp = .ok period ∧
      storedPeriod d.files = .ok current ∧
      d'.files.lookup (.active, "period") = some (textBytes period) ∧
      bytesIn d'.files .active = otherBytes d.files +
        (if store.Rolls d.files (blockRecord codec block) period current then 0
          else sizeAt d.files (.active, "blocks.jsonl")) +
        (blockRecord codec block).length + textLen period := by
    have hrun := (wp_appendFinalized d rfl).1 () (congrArg Prod.fst happend)
    rw [happend] at hrun
    exact hrun
  obtain ⟨period, current, hperiod, hcurrent, hstored, hbytes⟩ := hspec
  have hafter : storedPeriod d'.files = .ok (some (trim period)) := by
    simp only [storedPeriod, hstored, utf8Text_textBytes]
    rfl
  rw [limitKept_iff hlimit hafter, hbytes]
  have hroom : store.HasRoom d.files (blockRecord codec block) block.timestamp ↔
      store.Continues d.files (blockRecord codec block) period ∨
        store.remainingBytes d.files (blockRecord codec block) +
          (blockRecord codec block).length + textLen period ≤ store.maxActiveBytes.toNat := by
    constructor
    · exact fun h => h period hperiod
    · intro h other hother
      obtain rfl : period = other := Except.ok.inj (hperiod.symm.trans hother)
      exact h
  rw [hroom]
  by_cases hcontinues : store.Continues d.files (blockRecord codec block) period
  · -- the file of the period is written over with the name that it has
    obtain ⟨hsame, hfits⟩ := hcontinues
    have hlength := textLen_le_of_storedPeriod hsame
    have hkeeps : ¬ store.Rolls d.files (blockRecord codec block) period current := by
      rw [hcurrent] at hsame
      obtain rfl : current = some period := Except.ok.inj hsame
      rintro (⟨value, hvalue, hne⟩ | hlarge)
      · exact hne (Option.some.inj hvalue).symm
      · omega
    have htotal := bytesIn_active d.files
    rw [if_neg hkeeps]
    exact ⟨fun _ => .inl ⟨hsame, hfits⟩, fun _ => by omega⟩
  · -- otherwise the bytes that stay, the record and the name of the period are all there is
    rw [remainingBytes_eq hcurrent hcontinues]
    exact ⟨.inr, fun h => h.resolve_left hcontinues⟩

/-- The disk after some calls of `append_finalized`, whatever they answer. -/
def appends [Primitives] (listing : Listing ArchivePlace) (codec : ArchiveCodec)
    (store : ArchiveStore) (d : Disk ArchivePlace) (calls : List (Block × Blockchain)) :
    Disk ArchivePlace :=
  calls.foldl (fun d call => (appendFinalized listing codec store call.1 call.2 d).2) d

end ArchiveStore

open ArchiveStore in
/-- **The limit of the active directory** is kept by every append of a run that returns exactly
when each of these goes on with the file of its period or finds room for record and period. -/
theorem active_limit_iff [Primitives] (listing : Listing ArchivePlace) (codec : ArchiveCodec)
    (maxActiveBytes : UInt64) (d d₀ : Disk ArchivePlace) (store : ArchiveStore)
    (hnew : ArchiveStore.new maxActiveBytes d = (.ok store, d₀))
    (calls : List (Block × Blockchain)) :
    Along (fun before call => ∀ d', appendFinalized listing codec store call.1 call.2
        (appends listing codec store d₀ before) = (.ok (), d') → LimitKept listing store d') calls ↔
      Along (fun before call => ∀ d', appendFinalized listing codec store call.1 call.2
          (appends listing codec store d₀ before) = (.ok (), d') →
        store.HasRoom (appends listing codec store d₀ before).files (blockRecord codec call.1)
          call.1.timestamp) calls := by
  have hlimit : store.maxActiveBytes ≤ 100000000 := by
    simp only [ArchiveStore.new, bind_eq, lift_eq, pure_eq, ensure_eq_ok] at hnew
    obtain ⟨_, _, ⟨⟨_, hle⟩, _⟩, _, _, _, _, _, _, _, _, _, rfl, _⟩ := hnew
    exact hle
  have hstep : ∀ before (call : Block × Blockchain), (∀ d', appendFinalized listing codec store
      call.1 call.2 (appends listing codec store d₀ before) = (.ok (), d') →
        LimitKept listing store d') ↔ ∀ d', appendFinalized listing codec store call.1 call.2
          (appends listing codec store d₀ before) = (.ok (), d') →
        store.HasRoom (appends listing codec store d₀ before).files (blockRecord codec call.1)
          call.1.timestamp := by
    intro before call
    exact forall_congr' fun d' => forall_congr' fun happend => append_limit_iff hlimit happend
  constructor
  · exact fun h before call after heq => (hstep before call).mp (h before call after heq)
  · exact fun h before call after heq => (hstep before call).mpr (h before call after heq)

/-! ## The first block of a store -/

def ArchiveDirectory.number : ArchiveDirectory → ℕ
  | .active => 0
  | .backup => 1
  | .checkpoints => 2

/-- The files of a store, by directory and name. -/
def archiveListing : Listing ArchivePlace :=
  Listing.sorted (fun place => (toLex (place.1.number, place.2) : ℕ ×ₗ String)) <| by
    rintro ⟨directory, name⟩ ⟨directory', name'⟩ h
    obtain ⟨hnumber, rfl⟩ := Prod.mk.inj (toLex.injective h)
    have hsame : directory = directory' := by
      cases directory <;> cases directory' <;> first | rfl | cases hnumber
    rw [hsame]

namespace FirstBlock

open ArchiveStore

def block : Block :=
  { height := 1
    previousHash := ""
    timestamp := 1
    producer := "p"
    transactions := []
    systemEvents := []
    hash := "" }

/-- The text of the block, and no other encoding. -/
def codec : ArchiveCodec :=
  { blockJson := fun _ => "\x7b\"height\":1,\"previous_hash\":\"\",\"timestamp\":1,\"producer\":\"p\"," ++
      "\"transactions\":[],\"hash\":\"\"\x7d"
    parseBlock := fun _ => .ok block
    snapshotJson := fun _ => []
    parseSnapshot := fun _ => .error "EOF while parsing a value at line 1 column 0"
    compress := fun bytes => bytes
    decompress := fun bytes => .ok bytes }

lemma length_record : (blockRecord codec block).length = 89 := by
  show textLen (codec.blockJson block ++ "\n") = 89
  decide

lemma period : periodFromTimestamp block.timestamp = .ok "197001M" := by
  decide

def emptyDisk : Disk ArchivePlace := ⟨∅, fun _ => none, 0, []⟩

lemma new_emptyDisk {maxActiveBytes : UInt64}
    (hmax : maxActiveBytes ≠ 0 ∧ maxActiveBytes ≤ 100000000) :
    ∃ d₀, ArchiveStore.new maxActiveBytes emptyDisk = (.ok ⟨maxActiveBytes⟩, d₀) ∧
      d₀.Sound ∧ d₀.files = ∅ := by
  have hreturns : Returns (ArchiveStore.new maxActiveBytes)
      (fun store files => store = ⟨maxActiveBytes⟩ ∧ files = ∅) ∅ := by
    refine Returns.bind (Returns.lift (a := ()) (ensure_eq_ok.mpr hmax) ?_)
    exact Returns.bind (Returns.operate (Returns.pure (Returns.bind (Returns.operate (Returns.pure
      (Returns.bind (Returns.operate (Returns.pure (Returns.pure ⟨rfl, rfl⟩)))))))))
  obtain ⟨store, d₀, hnew, hsound, rfl, hfiles⟩ := hreturns emptyDisk (fun _ _ => rfl) rfl
  exact ⟨d₀, hnew, hsound, hfiles⟩

lemma append_first [Primitives] {store : ArchiveStore} (chain : Blockchain)
    (hmax : 89 ≤ store.maxActiveBytes.toNat) {d₀ : Disk ArchivePlace} (hsound : d₀.Sound)
    (hfiles : d₀.files = ∅) :
    ∃ d', appendFinalized archiveListing codec store block chain d₀ = (.ok (), d') := by
  have hreturns : Returns (appendFinalized archiveListing codec store block chain)
      (fun _ _ => True) ∅ := by
    refine Returns.bind (Returns.lift period ?_)
    refine Returns.bind (Returns.lift (a := ()) (ensure_eq_ok.mpr (by rw [length_record]; exact hmax)) ?_)
    refine Returns.bind (Returns.bind (Returns.read (Returns.lift rfl ?_)))
    refine Returns.bind (Returns.mono returns_directoryBytes ?_)
    rintro total _ ⟨rfl, rfl⟩
    have hkeeps : store.needsRollover "197001M" none (min (bytesIn ∅ .active) (2 ^ 64 - 1))
        (blockRecord codec block).length = .ok false := by
      rw [length_record, needsRollover, if_neg (by simp), ensure_eq_ok (u := ()).mpr (by decide)]
      exact congrArg Except.ok (decide_eq_false (not_lt.mpr hmax))
    refine Returns.bind (Returns.lift hkeeps ?_)
    rw [if_neg Bool.false_ne_true]
    exact Returns.bind (Returns.append (Returns.write trivial))
  obtain ⟨_, d', happend, _⟩ := hreturns d₀ hsound hfiles
  exact ⟨d', happend⟩

lemma otherBytes_empty : otherBytes ∅ = 0 := rfl

lemma remainingBytes_empty (store : ArchiveStore) (record : Bytes) :
    store.remainingBytes ∅ record = 0 := by
  have hblocks : sizeAt ∅ (.active, "blocks.jsonl") = 0 := rfl
  rw [remainingBytes, otherBytes_empty, hblocks, ite_self]

end FirstBlock

open ArchiveStore in
/-- With room for its period, the first block keeps the limit. -/
theorem active_limit_first : ∃ d₀, ArchiveStore.new 96 FirstBlock.emptyDisk = (.ok ⟨96⟩, d₀) ∧
    ∀ [Primitives] chain, ∃ d', appendFinalized archiveListing FirstBlock.codec ⟨96⟩
      FirstBlock.block chain d₀ = (.ok (), d') ∧ LimitKept archiveListing ⟨96⟩ d' := by
  have hmax : (96 : UInt64) ≠ 0 ∧ (96 : UInt64) ≤ 100000000 := by decide
  obtain ⟨d₀, hnew, hsound, hfiles⟩ := FirstBlock.new_emptyDisk hmax
  refine ⟨d₀, hnew, fun chain => ?_⟩
  have hrecord : 89 ≤ (ArchiveStore.mk 96).maxActiveBytes.toNat := by decide
  obtain ⟨d', happend⟩ := FirstBlock.append_first chain hrecord hsound hfiles
  have hrun := (active_limit_iff archiveListing FirstBlock.codec 96 FirstBlock.emptyDisk d₀ ⟨96⟩ hnew
    [(FirstBlock.block, chain)]).mpr
  refine ⟨d', happend, hrun ?_ [] (FirstBlock.block, chain) [] rfl d' happend⟩
  rw [← List.nil_append [(FirstBlock.block, chain)], along_concat]
  refine ⟨along_nil _, fun _ _ period hperiod => .inr ?_⟩
  obtain rfl := Except.ok.inj (FirstBlock.period.symm.trans hperiod)
  show remainingBytes ⟨96⟩ d₀.files _ + _ + _ ≤ _
  rw [hfiles, FirstBlock.remainingBytes_empty, FirstBlock.length_record]
  decide

open ArchiveStore in
/-- A first block whose record is as long as the limit passes it by the length of its period. -/
theorem active_limit_passed : ∃ d₀, ArchiveStore.new 89 FirstBlock.emptyDisk = (.ok ⟨89⟩, d₀) ∧
    ∀ [Primitives] chain, ∃ d', appendFinalized archiveListing FirstBlock.codec ⟨89⟩
      FirstBlock.block chain d₀ = (.ok (), d') ∧ ¬ LimitKept archiveListing ⟨89⟩ d' := by
  have hmax : (89 : UInt64) ≠ 0 ∧ (89 : UInt64) ≤ 100000000 := by decide
  obtain ⟨d₀, hnew, hsound, hfiles⟩ := FirstBlock.new_emptyDisk hmax
  refine ⟨d₀, hnew, fun chain => ?_⟩
  have hrecord : 89 ≤ (ArchiveStore.mk 89).maxActiveBytes.toNat := by decide
  obtain ⟨d', happend⟩ := FirstBlock.append_first chain hrecord hsound hfiles
  refine ⟨d', happend, fun hkept => ?_⟩
  rcases (append_limit_iff hmax.2 happend).mp hkept _ FirstBlock.period with ⟨hsame, _⟩ | hroom
  · rw [hfiles] at hsame
    exact absurd (Except.ok.inj hsame) (by simp)
  · rw [hfiles, FirstBlock.remainingBytes_empty, FirstBlock.length_record] at hroom
    exact absurd hroom (by decide)

end IeumChain
