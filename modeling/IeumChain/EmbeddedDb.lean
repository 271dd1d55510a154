import IeumChain.Lib.Like
import IeumChain.Lib.Result
import IeumChain.Lib.SortedEntries
import IeumChain.Lib.Text

/-!
# The embedded database (`embedded_db.rs`)

A store of keys and values in a SQLite file. Writes are collected in memory and committed in one
transaction; a scan reads the rows of the file and puts the pending writes over them. The first
`open` of a directory takes over the image an older version has left there.

A table that does not exist yet is an empty one here. `openSteps` lists what `open` makes durable,
step by step, so that an attempt can end after any of them.
-/

namespace IeumChain

open Lib

/-- `LegacyDatabaseImage`. -/
structure LegacyDatabaseImage where
  schemaVersion : UInt32
  generation : UInt64
  values : HashMap String Bytes

/-! ## The file -/

/-- The default of `SQLITE_MAX_LENGTH`: the bytes of a text, a blob or a row. -/
def maxLength : ℕ := 10 ^ 9

/-- The default of `SQLITE_MAX_LIKE_PATTERN_LENGTH`. -/
def maxLikePattern : ℕ := 50000

/-- A text that is bound to a statement. -/
abbrev BoundText := { value : String // textLen value ≤ maxLength }

/-- `Statement::bind_text`. -/
def bindText (value : String) : Result BoundText :=
  if 2 ^ 31 ≤ textLen value then .error "SQLite key가 너무 큽니다."
  else if h : textLen value ≤ maxLength then .ok ⟨value, h⟩
  else .error "string or blob too big"

/-- `Statement::bind_blob`. -/
def bindBlob (value : Bytes) : Result Unit := do
  ensure (value.length < 2 ^ 31) "SQLite value가 너무 큽니다."
  ensure (value.length ≤ maxLength) "string or blob too big"

/-- The bytes of a number in the header of a record. -/
def varintLen (n : ℕ) : ℕ := n.log2 / 7 + 1

/-- The record of a row: a header with the types of the two columns, and the columns. -/
def recordLen (key : String) (value : Bytes) : ℕ :=
  1 + varintLen (2 * textLen key + 13) + varintLen (2 * value.length + 12) +
    textLen key + value.length

/-- The tables `metadata` and `kv`. Every key was bound to a statement once. -/
structure Database where
  metadata : HashMap String ℤ
  kv : HashMap String Bytes
  bound : ∀ key ∈ kv, textLen key ≤ maxLength

namespace Database

/-- A new file. -/
def empty : Database := ⟨∅, ∅, fun _ h => absurd h Finmap.notMem_empty⟩

/-- `INSERT OR IGNORE INTO metadata`. -/
def insertOrIgnore (metadata : HashMap String ℤ) (name : String) (value : ℤ) : HashMap String ℤ :=
  if name ∈ metadata then metadata else metadata.insert name value

/-- The rows `initialize` inserts. -/
def insertRows (d : Database) : Database :=
  { d with metadata :=
      insertOrIgnore (insertOrIgnore d.metadata "schema_version" 2) "generation" 0 }

/-- `metadata`. -/
def readMetadata (d : Database) (name : String) : Result UInt64 := do
  let value ← okOr (d.metadata.lookup name) s!"SQLite metadata가 없습니다: {name}"
  ensure (0 ≤ value) s!"SQLite metadata가 음수입니다: {name}"
  return UInt64.ofNat value.toNat

/-- What a number in the text of a statement is read back as: one that is no 64-bit integer is a
real, which becomes the largest integer. -/
def storedInteger (n : UInt64) : ℤ := min n.toNat (2 ^ 63 - 1)

/-- `UPDATE metadata SET value = {generation} WHERE name = 'generation'`. -/
def updateGeneration (d : Database) (generation : UInt64) : Database :=
  if "generation" ∈ d.metadata then
    { d with metadata := d.metadata.insert "generation" (storedInteger generation) }
  else d

/-- `INSERT INTO kv(key, value) ... ON CONFLICT(key) DO UPDATE SET value = excluded.value`. -/
def upsert (d : Database) (key : BoundText) (value : Bytes) : Database :=
  { d with
    kv := d.kv.insert key.1 value
    bound := fun k hk => by
      rcases Finmap.mem_insert.mp hk with rfl | hk
      · exact key.2
      · exact d.bound k hk }

/-- `DELETE FROM kv WHERE key = ?1`. -/
def delete (d : Database) (key : BoundText) : Database :=
  { d with
    kv := d.kv.erase key.1
    bound := fun k hk => d.bound k (Finmap.mem_erase.mp hk).2 }

/-- One pending write of `apply_pending`. -/
def applyEntry (d : Database) : String × Option Bytes → Result Database
  | (key, some value) => do
    let key ← bindText key
    bindBlob value
    ensure (recordLen key.1 value ≤ maxLength) "string or blob too big"
    return d.upsert key value
  | (key, none) => do
    let key ← bindText key
    return d.delete key

/-- `SELECT key, value FROM kv WHERE key LIKE ?1 ESCAPE '\\' ORDER BY key`. -/
def selectLike (d : Database) (pattern : BoundText) : Result (List (String × Bytes)) := do
  -- `LIKE` looks at the length of its pattern when it is evaluated, at the first row
  ensure ((sortedEntries d.kv).isEmpty ∨ textLen pattern.1 ≤ maxLikePattern)
    "LIKE or GLOB pattern too complex"
  return (sortedEntries d.kv).filter fun row => like '\\' pattern.1.toList row.1.toList

end Database

/-! ## The handle -/

/-- An open database: the file and the writes not committed yet. -/
structure EmbeddedDb where
  file : Database
  pending : HashMap String (Option Bytes)

namespace EmbeddedDb

/-- `get`. -/
def get (db : EmbeddedDb) (key : String) : Result (Option Bytes) :=
  match db.pending.lookup key with
  | some value => .ok value
  | none => do
    let key ← bindText key
    return db.file.kv.lookup key.1

/-- `put`. -/
def put (db : EmbeddedDb) (key : String) (value : Bytes) : EmbeddedDb :=
  { db with pending := db.pending.insert key (some value) }

/-- `remove`. -/
def remove (db : EmbeddedDb) (key : String) : EmbeddedDb :=
  { db with pending := db.pending.insert key none }

/-- `str::replace` of one character. -/
def replaceChar (text : List Char) (c : Char) (by' : List Char) : List Char :=
  text.flatMap fun d => if d = c then by' else [d]

/-- The prefix as a pattern: the three replacements one after the other, and a percent sign. -/
def prefixPattern (pre : String) : String :=
  String.ofList (replaceChar (replaceChar (replaceChar pre.toList '\\' ['\\', '\\'])
    '%' ['\\', '%']) '_' ['\\', '_'] ++ ['%'])

/-- One pending write of the loop in `scan_prefix`. -/
def overlay (pre : String) (values : List (String × Bytes)) (write : String × Option Bytes) :
    List (String × Bytes) :=
  if startsWith write.1 pre = true then
    values.filter (fun row => row.1 ≠ write.1) ++ (write.2.map fun value => (write.1, value)).toList
  else values

/-- `scan_prefix`. -/
def scanPrefix (db : EmbeddedDb) (pre : String) : Result (List (String × Bytes)) := do
  let pattern ← bindText (prefixPattern pre)
  let values ← db.file.selectLike pattern
  return sortByKey ((sortedEntries db.pending).foldl (overlay pre) values)

/-- `generation`. -/
def generation (db : EmbeddedDb) : Result UInt64 := db.file.readMetadata "generation"

/-- `commit_with_generation`: on an error the transaction is rolled back. -/
def commitWithGeneration (db : EmbeddedDb) (generation : UInt64) : Result Unit × EmbeddedDb :=
  match (sortedEntries db.pending).foldlM Database.applyEntry db.file with
  | .error e => (.error e, db)
  | .ok file => (.ok (), { file := file.updateGeneration generation, pending := ∅ })

/-- `commit`. -/
def commit (db : EmbeddedDb) : Result UInt64 × EmbeddedDb :=
  match db.generation with
  | .error e => (.error e, db)
  | .ok generation =>
    let next := if generation.toNat + 1 < 2 ^ 64 then generation + 1 else generation
    let (result, db) := db.commitWithGeneration next
    (result.map fun _ => next, db)

/-! ## Opening -/

/-- The loop of `import_legacy`. -/
def putAll (db : EmbeddedDb) (values : HashMap String Bytes) : EmbeddedDb :=
  (sortedEntries values).foldl (fun db entry => db.put entry.1 entry.2) db

/-- `import_legacy` up to its commit. -/
def importLegacy (db : EmbeddedDb) (file : Result LegacyDatabaseImage) : Result EmbeddedDb := do
  let legacy ← file.mapError fun e => s!"기존 embedded DB 손상: {e}"
  ensure (legacy.schemaVersion = 1) "지원하지 않는 기존 embedded DB schema입니다."
  match (db.putAll legacy.values).commitWithGeneration legacy.generation with
  | (.error e, _) => .error e
  | (.ok (), migrated) => return migrated

end EmbeddedDb

/-- The files in the directory of the database: `ieum-state.sqlite3`, `ieum-state.db` with what it
parses to, and the copy the import leaves of it. -/
structure Directory where
  database : Option Database
  legacy : Option (Result LegacyDatabaseImage)
  legacyCopy : Option (Result LegacyDatabaseImage)

namespace Directory

/-- `EmbeddedDb::open`: the directory after each of its durable steps, and what it returns. -/
def openSteps (dir : Directory) : List Directory × Result EmbeddedDb :=
  let isNew := dir.database.isNone
  let file := dir.database.getD Database.empty
  let created := { dir with database := some file }
  let rows := file.insertRows
  let initialized := { dir with database := some rows }
  let db : EmbeddedDb := { file := rows, pending := ∅ }
  match rows.readMetadata "schema_version" with
  | .error e => ([created, initialized], .error e)
  | .ok schema =>
    if schema ≠ 2 then
      ([created, initialized], .error s!"지원하지 않는 SQLite schema입니다: {schema}")
    else
      match isNew, dir.legacy with
      | true, some file =>
        match db.importLegacy file with
        | .error e => ([created, initialized], .error e)
        | .ok migrated =>
          let imported := { dir with database := some migrated.file }
          let renamed := { imported with legacy := none, legacyCopy := some file }
          ([created, initialized, imported, renamed], .ok migrated)
      | _, _ => ([created, initialized], .ok db)

/-- The directory after an attempt that fails or crashes when `n` steps are durable. -/
def interrupted (dir : Directory) (n : ℕ) : Directory :=
  ((dir.openSteps.1.take n).getLast?).getD dir

end Directory

end IeumChain
