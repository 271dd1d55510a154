import IeumChain.EmbeddedDbTheorems

/-!
# Taking over the old image

Whether the first `open` imports the image of an older version depends on whether the file of the
database was there before, and the file is made before the import is committed. An attempt that ends
in between leaves an empty database, which every later `open` takes for the real one. The image is
kept exactly when no attempt ends there (`import_never_skipped_iff`).
-/

namespace IeumChain

open Lib

namespace EmbeddedDb

/-! ## The import -/

/-- An image the import accepts. -/
def Importable (image : LegacyDatabaseImage) : Prop :=
  image.schemaVersion = 1 ∧ ∀ k v, image.values.lookup k = some v → Database.Fits (k, some v)

lemma foldl_put {entries : List (String × Bytes)} : ∀ {db : EmbeddedDb},
    (entries.map Prod.fst).Nodup →
      (entries.foldl (fun db entry => db.put entry.1 entry.2) db).file = db.file ∧
      ∀ k w, (entries.foldl (fun db entry => db.put entry.1 entry.2) db).pending.lookup k = some w ↔
        (∃ v, (k, v) ∈ entries ∧ w = some v) ∨
        (k ∉ entries.map Prod.fst ∧ db.pending.lookup k = some w) := by
  induction entries with
  | nil =>
    intro db _
    exact ⟨rfl, fun k w => by simp⟩
  | cons entry entries ih =>
    obtain ⟨key, value⟩ := entry
    intro db hnodup
    rw [List.map_cons, List.nodup_cons] at hnodup
    obtain ⟨hfile, hpending⟩ := @ih (db.put key value) hnodup.2
    refine ⟨hfile, fun k w => ?_⟩
    rw [List.foldl_cons, hpending, put, HashMap.lookup_insert]
    by_cases hk : k = key
    · have hother : ∀ v, (k, v) ∉ entries := fun v hmem =>
        hnodup.1 (List.mem_map.mpr ⟨_, hmem, hk⟩)
      rw [if_pos hk]
      simp [hk, hnodup.1, hk ▸ hother, eq_comm]
    · simp [hk]

lemma putAll_file (db : EmbeddedDb) (values : HashMap String Bytes) :
    (db.putAll values).file = db.file :=
  (foldl_put (nodup_sortedEntries values)).1

/-- The writes of an import are those of the image. -/
lemma putAll_pending {db : EmbeddedDb} (h : db.pending = ∅) (values : HashMap String Bytes)
    (k : String) : (db.putAll values).pending.lookup k = (values.lookup k).map some := by
  apply Option.ext
  intro w
  rw [putAll, (foldl_put (nodup_sortedEntries values)).2, h]
  simp [mem_sortedEntries, eq_comm]

/-- What the import leaves in a new file. -/
structure Imported (image : LegacyDatabaseImage) (d : Database) : Prop where
  kv : ∀ k, d.kv.lookup k = image.values.lookup k
  metadata : d.metadata = Database.empty.insertRows.metadata.insert "generation"
    (Database.storedInteger image.generation)

/-- An import into a new file succeeds for an importable image only. -/
lemma importLegacy_eq_ok {image : LegacyDatabaseImage} {db : EmbeddedDb}
    (h : opened.importLegacy (.ok image) = .ok db) :
    Importable image ∧ Imported image db.file ∧ db.pending = ∅ := by
  simp only [importLegacy, bind_eq_ok, ensure_eq_ok] at h
  obtain ⟨legacy, hlegacy, _, hschema, hcommit⟩ := h
  obtain rfl := Except.ok.inj hlegacy
  split at hcommit
  · cases hcommit
  next migrated hmigrated =>
    obtain rfl := Except.ok.inj hcommit
    obtain ⟨hfits, hempty, ⟨file, hmetadata, hfile⟩, hkv⟩ := commitWithGeneration_eq_ok hmigrated
    have hpending := @putAll_pending opened rfl image.values
    rw [putAll_file] at hmetadata
    refine ⟨⟨hschema, fun k v hv => ?_⟩, ⟨fun k => ?_, ?_⟩, hempty⟩
    · refine hfits (k, some v) (mem_sortedEntries.mpr ?_)
      rw [hpending, hv, Option.map_some]
    · rw [hkv, view, hpending, putAll_file]
      cases image.values.lookup k <;> rfl
    · have hrow : "generation" ∈ file.metadata := by
        rw [hmetadata]
        decide
      rw [hfile, Database.updateGeneration, if_pos hrow]
      exact congrArg (Finmap.insert "generation" _) hmetadata

lemma importLegacy_of_importable {image : LegacyDatabaseImage} (h : Importable image) :
    ∃ db, opened.importLegacy (.ok image) = .ok db := by
  have hfits : ∀ write ∈ sortedEntries (opened.putAll image.values).pending,
      Database.Fits write := by
    rintro ⟨k, w⟩ hmem
    rw [mem_sortedEntries, putAll_pending rfl] at hmem
    obtain ⟨v, hv, rfl⟩ := Option.map_eq_some_iff.mp hmem
    exact h.2 k v hv
  obtain ⟨file, hfile⟩ :=
    Database.foldlM_applyEntry_of_fits (opened.putAll image.values).file hfits
  simp only [importLegacy, bind_eq_ok, ensure_eq_ok]
  refine ⟨{ file := file.updateGeneration image.generation, pending := ∅ }, image, rfl, (), h.1, ?_⟩
  rw [commitWithGeneration, hfile]
  rfl

end EmbeddedDb

namespace Directory

/-! ## Attempts that end early -/

lemma mem_insertOrIgnore {metadata : HashMap String ℤ} {name name' : String} {value : ℤ} :
    name' ∈ Database.insertOrIgnore metadata name value ↔ name' = name ∨ name' ∈ metadata := by
  unfold Database.insertOrIgnore
  split
  next hmem =>
    refine ⟨.inr, ?_⟩
    rintro (rfl | h)
    · exact hmem
    · exact h
  next => exact Finmap.mem_insert

/-- Rows that are there are not inserted. -/
lemma insertRows_of_mem {d : Database} (hschema : "schema_version" ∈ d.metadata)
    (hgeneration : "generation" ∈ d.metadata) : d.insertRows = d := by
  have hmetadata : Database.insertOrIgnore (Database.insertOrIgnore d.metadata "schema_version" 2)
      "generation" 0 = d.metadata := by
    unfold Database.insertOrIgnore
    rw [if_pos hschema, if_pos hgeneration]
  unfold Database.insertRows
  simp only [hmetadata]

lemma insertRows_insertRows (d : Database) : d.insertRows.insertRows = d.insertRows :=
  insertRows_of_mem (mem_insertOrIgnore.mpr (.inr (mem_insertOrIgnore.mpr (.inl rfl))))
    (mem_insertOrIgnore.mpr (.inl rfl))

/-- There is a file which is never taken for a new one. With its rows inserted it is the given
one. -/
def Settled (rows : Database) (dir : Directory) : Prop :=
  ∃ d, dir.database = some d ∧ d.insertRows = rows

/-- Opening a settled directory changes no row and returns what is there. -/
lemma Settled.openSteps {rows : Database} {dir : Directory} (h : Settled rows dir)
    (hschema : rows.readMetadata "schema_version" = .ok 2) :
    ∃ d, d.insertRows = rows ∧ dir.openSteps = ([{ dir with database := some d },
      { dir with database := some rows }], .ok { file := rows, pending := ∅ }) := by
  obtain ⟨d, hd, hrows⟩ := h
  refine ⟨d, hrows, ?_⟩
  unfold Directory.openSteps
  simp only [hd, Option.getD_some, Option.isNone_some, hrows, hschema]
  rfl

lemma Settled.interrupted {rows : Database} {dir : Directory} (h : Settled rows dir)
    (hschema : rows.readMetadata "schema_version" = .ok 2) (n : ℕ) :
    Settled rows (dir.interrupted n) := by
  obtain ⟨d, hd, hsteps⟩ := h.openSteps hschema
  have hrows : rows.insertRows = rows := by rw [← hd, insertRows_insertRows]
  rw [Directory.interrupted, hsteps]
  rcases n with _ | _ | n
  · exact h
  · exact ⟨d, rfl, hd⟩
  · rw [List.take_of_length_le (by simp)]
    exact ⟨rows, rfl, hrows⟩

lemma Settled.foldl_interrupted {rows : Database}
    (hschema : rows.readMetadata "schema_version" = .ok 2) (stops : List ℕ) :
    ∀ {dir : Directory}, Settled rows dir → Settled rows (stops.foldl Directory.interrupted dir) := by
  induction stops with
  | nil => exact fun h => h
  | cons n stops ih => exact fun h => ih (h.interrupted hschema n)

/-! ## The image -/

/-- The directory an older version has left. -/
def old (image : LegacyDatabaseImage) : Directory :=
  { database := none, legacy := some (.ok image), legacyCopy := none }

/-- If the directory can be opened, everything in the image is visible. -/
def Keeps (image : LegacyDatabaseImage) (dir : Directory) : Prop :=
  ∀ db, dir.openSteps.2 = .ok db →
    (∀ k v, image.values.lookup k = some v → db.get k = .ok (some v)) ∧
    db.generation = .ok image.generation

/-- An image that says no more than a new database. -/
def NothingToLose (image : LegacyDatabaseImage) : Prop :=
  image.values = ∅ ∧ image.generation = 0

/-- The first attempt that made the file did not end before the import, and the generation is one
SQLite can store. -/
def Spared (image : LegacyDatabaseImage) (stops : List ℕ) : Prop :=
  match stops.find? (· ≠ 0) with
  | none => EmbeddedDb.Importable image → image.generation.toNat < 2 ^ 63
  | some n => EmbeddedDb.Importable image ∧ 3 ≤ n ∧ image.generation.toNat < 2 ^ 63

lemma openSteps_old {image : LegacyDatabaseImage} :
    (old image).openSteps = match EmbeddedDb.opened.importLegacy (.ok image) with
      | .error e => ([{ old image with database := some Database.empty },
          { old image with database := some EmbeddedDb.opened.file }], .error e)
      | .ok db => ([{ old image with database := some Database.empty },
          { old image with database := some EmbeddedDb.opened.file },
          { old image with database := some db.file },
          { database := some db.file, legacy := none, legacyCopy := some (.ok image) }], .ok db) := rfl

/-! ## What is visible -/

lemma Settled.keeps_iff {rows : Database} {dir : Directory} (h : Settled rows dir)
    (hschema : rows.readMetadata "schema_version" = .ok 2) (image : LegacyDatabaseImage) :
    Keeps image dir ↔ (∀ k v, image.values.lookup k = some v → rows.kv.lookup k = some v) ∧
      rows.readMetadata "generation" = .ok image.generation := by
  obtain ⟨_, _, hsteps⟩ := h.openSteps hschema
  have hget : ∀ k v, ({ file := rows, pending := ∅ } : EmbeddedDb).get k = .ok (some v) ↔
      rows.kv.lookup k = some v := fun k v => EmbeddedDb.get_eq_some
  rw [Keeps, hsteps]
  simp only [Except.ok.injEq, forall_eq', hget, EmbeddedDb.generation]

lemma opened_schema : EmbeddedDb.opened.file.readMetadata "schema_version" = .ok 2 := rfl

/-- A new database has nothing but the generation 0. -/
lemma Settled.keeps_blank {dir : Directory} (h : Settled EmbeddedDb.opened.file dir)
    (image : LegacyDatabaseImage) : Keeps image dir ↔ NothingToLose image := by
  have hzero : EmbeddedDb.opened.file.readMetadata "generation" = .ok 0 := rfl
  rw [h.keeps_iff opened_schema, hzero]
  constructor
  · rintro ⟨hvalues, hgeneration⟩
    refine ⟨Finmap.ext_lookup fun k => ?_, (Except.ok.inj hgeneration).symm⟩
    cases hvalue : image.values.lookup k with
    | none => rfl
    | some v => cases hvalues k v hvalue
  · rintro ⟨hvalues, hgeneration⟩
    rw [hvalues, hgeneration]
    exact ⟨fun k v hv => absurd hv (by simp), rfl⟩

section
variable {image : LegacyDatabaseImage} {d : Database} (h : EmbeddedDb.Imported image d)
include h

lemma imported_schema : d.readMetadata "schema_version" = .ok 2 := by
  have hlookup : d.metadata.lookup "schema_version" = some 2 := by
    rw [h.metadata, HashMap.lookup_insert, if_neg (by decide)]
    rfl
  simp only [Database.readMetadata, bind_eq_ok, okOr_eq_ok, ensure_eq_ok, pure_eq_ok]
  exact ⟨2, hlookup, (), by decide, rfl⟩

lemma imported_generation :
    d.readMetadata "generation" = .ok image.generation ↔ image.generation.toNat < 2 ^ 63 := by
  have hlookup : d.metadata.lookup "generation"
      = some (Database.storedInteger image.generation) := by
    rw [h.metadata, HashMap.lookup_insert_self]
  have hread : d.readMetadata "generation"
      = .ok (UInt64.ofNat (min image.generation.toNat (2 ^ 63 - 1))) := by
    simp only [Database.readMetadata, bind_eq_ok, okOr_eq_ok, ensure_eq_ok, pure_eq_ok]
    refine ⟨_, hlookup, (), ?_, ?_⟩
    · unfold Database.storedInteger
      omega
    · congr 1
      unfold Database.storedInteger
      omega
  have hsmall : min image.generation.toNat (2 ^ 63 - 1) < UInt64.size :=
    (Nat.min_le_right _ _).trans_lt (by decide)
  rw [hread, Except.ok.injEq, ← UInt64.toNat_inj, UInt64.toNat_ofNat_of_lt' hsmall]
  omega

lemma imported_insertRows : d.insertRows = d := by
  apply insertRows_of_mem <;> rw [h.metadata, Finmap.mem_insert]
  · exact .inr (by decide)
  · exact .inl rfl

/-- The image is visible after the import, unless its generation is too large. -/
lemma Settled.keeps_imported {dir : Directory} (hdir : Settled d dir) :
    Keeps image dir ↔ image.generation.toNat < 2 ^ 63 := by
  rw [hdir.keeps_iff (imported_schema h), imported_generation h, and_iff_right]
  intro k v hv
  rw [h.kv, hv]

end

/-! ## Any number of attempts -/

/-- The first attempt that makes the file decides. -/
lemma settled_of_find {image : LegacyDatabaseImage} {n : ℕ} (stops : List ℕ)
    (h : stops.find? (· ≠ 0) = some n) :
    (EmbeddedDb.Importable image ∧ 3 ≤ n ∧ ∃ d, EmbeddedDb.Imported image d ∧
      Settled d (stops.foldl interrupted (old image))) ∨
    (¬ (EmbeddedDb.Importable image ∧ 3 ≤ n) ∧
      Settled EmbeddedDb.opened.file (stops.foldl interrupted (old image))) := by
  induction stops with
  | nil => cases h
  | cons stop stops ih =>
    rw [List.find?_cons] at h
    rw [List.foldl_cons]
    cases stop with
    | zero => exact ih h
    | succ k =>
      obtain rfl : k + 1 = n := by simpa using h
      have hblank : ∀ dir, Settled EmbeddedDb.opened.file dir →
          Settled EmbeddedDb.opened.file (stops.foldl interrupted dir) :=
        fun dir hdir => hdir.foldl_interrupted opened_schema stops
      have hrows : EmbeddedDb.opened.file.insertRows = EmbeddedDb.opened.file :=
        insertRows_insertRows _
      cases himport : EmbeddedDb.opened.importLegacy (.ok image) with
      | error e =>
        right
        have hrefused : ¬ EmbeddedDb.Importable image := by
          intro hok
          obtain ⟨db, hdb⟩ := EmbeddedDb.importLegacy_of_importable hok
          rw [hdb] at himport
          cases himport
        refine ⟨fun hboth => hrefused hboth.1, hblank _ ?_⟩
        rw [interrupted, openSteps_old, himport]
        rcases k with _ | k
        · exact ⟨_, rfl, rfl⟩
        · rw [List.take_of_length_le (by simp)]
          exact ⟨_, rfl, hrows⟩
      | ok db =>
        obtain ⟨hok, himported, _⟩ := EmbeddedDb.importLegacy_eq_ok himport
        have hfile := imported_insertRows himported
        rw [interrupted, openSteps_old, himport]
        -- the steps of the opening: the file, its first rows, the import, the new name of the image
        rcases k with _ | _ | _ | k
        · exact .inr ⟨fun hboth => absurd hboth.2 (by decide), hblank _ ⟨_, rfl, rfl⟩⟩
        · exact .inr ⟨fun hboth => absurd hboth.2 (by decide), hblank _ ⟨_, rfl, hrows⟩⟩
        · refine .inl ⟨hok, le_rfl, db.file, himported, ?_⟩
          exact Settled.foldl_interrupted (imported_schema himported) stops ⟨_, rfl, hfile⟩
        · refine .inl ⟨hok, by omega, db.file, himported, ?_⟩
          refine Settled.foldl_interrupted (imported_schema himported) stops ?_
          rw [List.take_of_length_le (by simp)]
          exact ⟨_, rfl, hfile⟩

/-- Attempts that made no file change nothing. -/
lemma foldl_interrupted_of_find {dir : Directory} (stops : List ℕ)
    (h : stops.find? (· ≠ 0) = none) : stops.foldl interrupted dir = dir := by
  induction stops with
  | nil => rfl
  | cons stop stops ih =>
    rw [List.find?_cons] at h
    cases stop with
    | zero => exact ih h
    | succ k => simp at h

/-- **When the old image is never lost.** For every image and every sequence of attempts to open its
directory that end after some durable step: whenever the directory can be opened afterwards, every
key of the image has its value and the generation is that of the image, exactly when the image says
no more than a new database, or the first attempt that made the file of the database had committed
the import, and the generation is below `2 ^ 63`. -/
theorem import_never_skipped_iff (image : LegacyDatabaseImage) (stops : List ℕ) :
    Keeps image (stops.foldl interrupted (old image)) ↔
      NothingToLose image ∨ Spared image stops := by
  unfold Spared
  cases hfind : stops.find? (· ≠ 0) with
  | none =>
    -- no attempt came as far as a step, and the directory is still the old one
    rw [foldl_interrupted_of_find stops hfind]
    simp only
    by_cases hok : EmbeddedDb.Importable image
    · obtain ⟨db, hdb⟩ := EmbeddedDb.importLegacy_of_importable hok
      obtain ⟨_, himported, hpending⟩ := EmbeddedDb.importLegacy_eq_ok hdb
      have hkeeps : Keeps image (old image) ↔ image.generation.toNat < 2 ^ 63 := by
        have hdir : Settled db.file { old image with database := some db.file } :=
          ⟨_, rfl, imported_insertRows himported⟩
        rw [← hdir.keeps_imported himported]
        obtain ⟨_, _, hsteps⟩ := hdir.openSteps (imported_schema himported)
        have hsame : db = { file := db.file, pending := ∅ } := by rw [← hpending]
        rw [Keeps, Keeps, hsteps, openSteps_old, hdb]
        simp only
        rw [← hsame]
      rw [hkeeps]
      constructor
      · exact fun hlt => .inr fun _ => hlt
      · rintro (⟨_, hzero⟩ | hspared)
        · rw [hzero]
          decide
        · exact hspared hok
    · -- an image that cannot be imported is refused by every opening
      refine iff_of_true ?_ (.inr fun h => absurd h hok)
      intro db hdb
      rw [openSteps_old] at hdb
      cases himport : EmbeddedDb.opened.importLegacy (.ok image) with
      | error e =>
        rw [himport] at hdb
        cases hdb
      | ok db' => exact absurd (EmbeddedDb.importLegacy_eq_ok himport).1 hok
  | some n =>
    -- the first attempt that came further decides what the file holds ever after
    simp only
    rcases settled_of_find stops hfind with ⟨hok, hn, d, himported, hdir⟩ | ⟨hnot, hdir⟩
    · rw [hdir.keeps_imported himported]
      constructor
      · exact fun hlt => .inr ⟨hok, hn, hlt⟩
      · rintro (⟨_, hzero⟩ | ⟨_, _, hlt⟩)
        · rw [hzero]
          decide
        · exact hlt
    · rw [hdir.keeps_blank]
      exact ⟨.inl, fun h => h.resolve_right fun hspared => hnot ⟨hspared.1, hspared.2.1⟩⟩

/-! ### One key -/

/-- An image with one key. -/
def oneKey : LegacyDatabaseImage :=
  { schemaVersion := 1, generation := 7, values := HashMap.ofList [("canonical/current", [1])] }

/-- The first attempt ends when the file is made, and the second one returns an empty database. -/
theorem import_skipped : ¬ Keeps oneKey ([1].foldl interrupted (old oneKey)) := by
  intro hkeeps
  have hopen : ([1].foldl interrupted (old oneKey)).openSteps.2 = .ok EmbeddedDb.opened := rfl
  have hvalue := (hkeeps _ hopen).1 "canonical/current" [1] (by decide)
  exact absurd (EmbeddedDb.get_eq_some.mp hvalue) (by decide)

end Directory

end IeumChain
