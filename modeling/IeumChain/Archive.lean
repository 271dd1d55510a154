import IeumChain.Lib.Decimal
import IeumChain.Lib.Disk
import IeumChain.Lib.Paths
import IeumChain.Storage

/-!
# The archive (`archive.rs`)

The blocks of the current month stand in one file, a line a block. When the month changes or the
file has become too large it is moved to the backups, and the state before the next block is kept as
a checkpoint. The backups of a year are merged when it is long past.

* `periodFromTimestamp` names the calendar month of a timestamp without a time library. Its
  arithmetic is on 64-bit signed integers, with truncating division, and every operation is checked
  for overflow;
* a place is a directory of the store and a name in it;
* the encodings are parameters, and so is the order in which a directory lists its files.
-/

namespace IeumChain

open Lib

/-- The result of an operation on `i64`. -/
def i64 (operation : String) (x : ℤ) : Result ℤ :=
  if -2 ^ 63 ≤ x ∧ x < 2 ^ 63 then .ok x
  else .error ("attempt to " ++ operation ++ " with overflow")

/-- The year and the month that `period_from_timestamp` computes. -/
def yearMonth (timestamp : UInt64) : Result (ℤ × ℤ) := do
  let days := (timestamp / 86400).toBitVec.toInt
  let z ← i64 "add" (days + 719468)
  let floored ← if 0 ≤ z then pure z else i64 "subtract" (z - 146096)
  let era := floored.tdiv 146097
  let eraDays ← i64 "multiply" (era * 146097)
  let doe ← i64 "subtract" (z - eraDays)
  let withoutFourth ← i64 "subtract" (doe - doe.tdiv 1460)
  let withCentury ← i64 "add" (withoutFourth + doe.tdiv 36524)
  let withoutEra ← i64 "subtract" (withCentury - doe.tdiv 146096)
  let yoe := withoutEra.tdiv 365
  let eraYears ← i64 "multiply" (era * 400)
  let year ← i64 "add" (yoe + eraYears)
  let commonDays ← i64 "multiply" (365 * yoe)
  let withFourth ← i64 "add" (commonDays + yoe.tdiv 4)
  let yearDays ← i64 "subtract" (withFourth - yoe.tdiv 100)
  let doy ← i64 "subtract" (doe - yearDays)
  let fiveDays ← i64 "multiply" (5 * doy)
  let shifted ← i64 "add" (fiveDays + 2)
  let mp := shifted.tdiv 153
  let month ← i64 "add" (mp + if mp < 10 then 3 else -9)
  let year ← i64 "add" (year + if month ≤ 2 then 1 else 0)
  return (year, month)

/-- An integer with the format `0width`. -/
def zeroPadded (width : ℕ) (x : ℤ) : String :=
  if 0 ≤ x then String.ofList ((toString x.toNat).toList.leftpad width '0')
  else "-" ++ String.ofList ((toString (-x).toNat).toList.leftpad (width - 1) '0')

lemma zeroPadded_natCast (width n : ℕ) :
    zeroPadded width (n : ℤ) = String.ofList (padded width n) := by
  rw [zeroPadded, if_pos (Int.natCast_nonneg n), Int.toNat_natCast, Nat.toString_eq_ofList_toDigits,
    String.toList_ofList]
  rfl

/-- `period_from_timestamp`. -/
def periodFromTimestamp (timestamp : UInt64) : Result String := do
  let (year, month) ← yearMonth timestamp
  return zeroPadded 4 year ++ zeroPadded 2 month ++ "M"

inductive ArchiveDirectory where
  | active
  | backup
  | checkpoints
deriving DecidableEq

/-- A file of the store. -/
abbrev ArchivePlace := ArchiveDirectory × String

/-- What `serde_json` and `zstd` do with the values of this module. -/
structure ArchiveCodec where
  blockJson : Block → String
  parseBlock : String → Result Block
  snapshotJson : StateSnapshot → Bytes
  parseSnapshot : Bytes → Result StateSnapshot
  compress : Bytes → Bytes
  decompress : Bytes → Result Bytes

structure ArchiveStatus where
  activeBytes : ℕ
  maxActiveBytes : UInt64
  activePeriod : String
  latestCheckpoint : Option String
  backups : List String
deriving DecidableEq

structure ArchiveStore where
  maxActiveBytes : UInt64
deriving DecidableEq

/-- The names of a directory in ascending order. -/
def sortNames (names : List String) : List String := names.insertionSort (· ≤ ·)

/-- `fs::read_to_string` of a file that was read. -/
def utf8Text (bytes : Bytes) : Result String :=
  okOr (decodeText bytes) "stream did not contain valid UTF-8"

namespace ArchiveStore

/-- `ArchiveStore::new`. A directory stands for the place of an empty name in it. -/
def new (maxActiveBytes : UInt64) : DiskM ArchivePlace ArchiveStore := do
  Disk.lift (ensure (maxActiveBytes ≠ 0 ∧ maxActiveBytes ≤ 100000000)
    "활성 블록 총합 제한은 1바이트 이상 100MB 이하여야 합니다.")
  Disk.createDir (.active, "")
  Disk.createDir (.backup, "")
  Disk.createDir (.checkpoints, "")
  return { maxActiveBytes }

/-- `list_files`, without the directory in front of the names. -/
def listFiles (listing : Listing ArchivePlace) (directory : ArchiveDirectory) :
    DiskM ArchivePlace (List String) := do
  let places ← Disk.list listing fun place => place.1 = directory
  return places.map Prod.snd

/-- The loop of `directory_bytes`. -/
def sumSizes (directory : ArchiveDirectory) : List String → ℕ → DiskM ArchivePlace ℕ
  | [], sum => return sum
  | name :: names, sum => do
    let length ← Disk.size (directory, name)
    sumSizes directory names (min (sum + length) (2 ^ 64 - 1))

/-- `directory_bytes`. -/
def directoryBytes (listing : Listing ArchivePlace) (directory : ArchiveDirectory) :
    DiskM ArchivePlace ℕ := do
  let names ← listFiles listing directory
  sumSizes directory names 0

/-- `read_active_period`. -/
def readActivePeriod : DiskM ArchivePlace (Option String) := do
  let stored ← Disk.read (.active, "period")
  Disk.lift do
    match stored with
    | some bytes =>
      let value ← utf8Text bytes
      return some (trim value)
    | none => return none

/-- `atomic_json`, of a checkpoint. -/
def atomicJson (name : String) (bytes : Bytes) : DiskM ArchivePlace Unit := do
  Disk.write (.checkpoints, Path.fileStem name ++ ".tmp") bytes
  Disk.rename (.checkpoints, Path.fileStem name ++ ".tmp") (.checkpoints, name)

/-- The loop of `unique_backup_path`, with the parts that are left. -/
def uniquePart (period : String) : ℕ → ℕ → DiskM ArchivePlace String
  | 0, _ => throw "attempt to add with overflow"
  | left + 1, part => do
    let candidate := period ++ "-part" ++ zeroPadded 2 part ++ ".jsonl.zst"
    if ← Disk.doesExist (.backup, candidate) then uniquePart period left (part + 1)
    else return candidate

/-- `unique_backup_path`. -/
def uniqueBackupPath (period : String) : DiskM ArchivePlace String := do
  let first := period ++ ".jsonl.zst"
  if ← Disk.doesExist (.backup, first) then uniquePart period (2 ^ 32 - 2) 2
  else return first

/-- `compress_file`, into the backups. -/
def compressFile (codec : ArchiveCodec) (source : ArchivePlace) (destination : String) :
    DiskM ArchivePlace Unit := do
  let temporary : ArchivePlace := (.backup, Path.fileStem destination ++ ".tmp")
  let stored ← Disk.read source
  let bytes ← Disk.lift (okOr stored "No such file or directory (os error 2)")
  Disk.write temporary []
  Disk.write temporary (codec.compress bytes)
  Disk.rename temporary (.backup, destination)

/-- The name of a checkpoint. -/
def checkpointName (period : String) (height : UInt64) : String :=
  period ++ "-h" ++ zeroPadded 12 height.toNat ++ ".json"

/-- `rollover`. -/
def rollover [Primitives] (codec : ArchiveCodec) (chain : Blockchain) (period : String) :
    DiskM ArchivePlace Unit := do
  if ← Disk.doesExist (.active, "blocks.jsonl") then
    let snapshot := StateSnapshot.fromChain chain
    atomicJson (checkpointName period snapshot.height) (codec.snapshotJson snapshot)
    let backup ← uniqueBackupPath period
    compressFile codec (.active, "blocks.jsonl") backup
    Disk.remove (.active, "blocks.jsonl")
    Disk.attempt (Disk.remove (.active, "period"))
  else return ()

/-- The line of a block, with its line feed. -/
def blockRecord (codec : ArchiveCodec) (block : Block) : Bytes :=
  textBytes (codec.blockJson block ++ "\n")

/-- Does the active file go to the backups before a record? The sizes are added only where the month
is the same. -/
def needsRollover (store : ArchiveStore) (period : String) (currentPeriod : Option String)
    (activeBytes recordBytes : ℕ) : Result Bool :=
  if ∃ value ∈ currentPeriod, value ≠ period then return true
  else do
    ensure (activeBytes + recordBytes < 2 ^ 64) "attempt to add with overflow"
    return decide (store.maxActiveBytes.toNat < activeBytes + recordBytes)

/-- `append_finalized`. -/
def appendFinalized [Primitives] (listing : Listing ArchivePlace) (codec : ArchiveCodec)
    (store : ArchiveStore) (block : Block) (chainBefore : Blockchain) :
    DiskM ArchivePlace Unit := do
  let period ← Disk.lift (periodFromTimestamp block.timestamp)
  let record := blockRecord codec block
  Disk.lift (ensure (record.length ≤ store.maxActiveBytes.toNat)
    "블록 하나가 활성 블록 총합 제한보다 큽니다.")
  let currentPeriod ← readActivePeriod
  let activeBytes ← directoryBytes listing .active
  if ← Disk.lift (store.needsRollover period currentPeriod activeBytes record.length) then
    rollover codec chainBefore (currentPeriod.getD period)
  Disk.append (.active, "blocks.jsonl") record
  Disk.write (.active, "period") (textBytes period)

/-- `status`. -/
def status (listing : Listing ArchivePlace) (store : ArchiveStore) :
    DiskM ArchivePlace ArchiveStatus := do
  let checkpoints ← listFiles listing .checkpoints
  let backups ← listFiles listing .backup
  let activeBytes ← directoryBytes listing .active
  let activePeriod ← readActivePeriod
  return {
    activeBytes
    maxActiveBytes := store.maxActiveBytes
    activePeriod := activePeriod.getD ""
    latestCheckpoint := (sortNames checkpoints).getLast?
    backups := sortNames backups }

/-- `load_latest_snapshot`. -/
def loadLatestSnapshot (listing : Listing ArchivePlace) (codec : ArchiveCodec) :
    DiskM ArchivePlace (Option StateSnapshot) := do
  let checkpoints ← listFiles listing .checkpoints
  match (sortNames checkpoints).getLast? with
  | none => return none
  | some name =>
    let stored ← Disk.read (.checkpoints, name)
    let bytes ← Disk.lift (okOr stored "No such file or directory (os error 2)")
    let snapshot ← Disk.lift (codec.parseSnapshot bytes)
    return some snapshot

/-- The blocks of the lines that are not blank. -/
def parseLines (codec : ArchiveCodec) (text : String) : Result (List Block) :=
  ((lines text).filter fun line => !isBlank line).mapM codec.parseBlock

/-- `load_active_blocks`. -/
def loadActiveBlocks (codec : ArchiveCodec) : DiskM ArchivePlace (List Block) := do
  let stored ← Disk.read (.active, "blocks.jsonl")
  Disk.lift do
    match stored with
    | some bytes =>
      let text ← utf8Text bytes
      parseLines codec text
    | none => return []

/-- `read_backup_text`. -/
def readBackupText (codec : ArchiveCodec) (name : String) : DiskM ArchivePlace String := do
  let stored ← Disk.read (.backup, name)
  Disk.lift do
    let bytes ← okOr stored "No such file or directory (os error 2)"
    if Path.extension name = some "zst" then
      let plain ← codec.decompress bytes
      utf8Text plain
    else utf8Text bytes

/-- The loop of `read_backup_blocks`. -/
def readBackups (codec : ArchiveCodec) : List String → List Block →
    DiskM ArchivePlace (List Block)
  | [], blocks => return blocks
  | name :: names, blocks => do
    if endsWith name ".jsonl" || endsWith name ".jsonl.zst" then
      let text ← readBackupText codec name
      let more ← Disk.lift (parseLines codec text)
      readBackups codec names (blocks ++ more)
    else readBackups codec names blocks

/-- `read_backup_blocks`. Blocks of one height stay in the order in which they were read. -/
def readBackupBlocks (listing : Listing ArchivePlace) (codec : ArchiveCodec) :
    DiskM ArchivePlace (List Block) := do
  let names ← listFiles listing .backup
  let blocks ← readBackups codec names []
  return blocks.insertionSort fun a b => a.height ≤ b.height

/-- The texts of some backups, one behind the other. -/
def readTexts (codec : ArchiveCodec) : List String → String → DiskM ArchivePlace String
  | [], text => return text
  | name :: names, text => do
    let more ← readBackupText codec name
    readTexts codec names (text ++ more)

/-- The removal of some backups. -/
def removeBackups : List String → DiskM ArchivePlace Unit
  | [] => return ()
  | name :: names => do
    Disk.remove (.backup, name)
    removeBackups names

/-- Is it a monthly backup of a year? -/
def isMonthly (year name : String) : Bool := startsWith name year && name.toList.contains 'M'

/-- One year of the loop of `compact_old_backups`. -/
def compactYear (listing : Listing ArchivePlace) (codec : ArchiveCodec) (year : String) :
    DiskM ArchivePlace (Option String) := do
  let annual := year ++ ".jsonl.zst"
  let names ← listFiles listing .backup
  let monthly := sortNames (names.filter (isMonthly year))
  if monthly = [] then return none
  else
    let temporary : ArchivePlace := (.backup, Path.fileStem annual ++ ".tmp")
    Disk.write temporary []
    let text ← readTexts codec monthly ""
    Disk.write temporary (codec.compress (textBytes text))
    Disk.rename temporary (.backup, annual)
    removeBackups monthly
    return some annual

/-- The loop of `compact_old_backups` over the years. -/
def compactYears (listing : Listing ArchivePlace) (codec : ArchiveCodec) : List ℕ → List String →
    DiskM ArchivePlace (List String)
  | [], created => return created
  | year :: years, created => do
    let annual ← compactYear listing codec (zeroPadded 4 year)
    compactYears listing codec years (created ++ annual.toList)

/-- `compact_old_backups`. -/
def compactOldBackups (listing : Listing ArchivePlace) (codec : ArchiveCodec) (currentYear : ℤ) :
    DiskM ArchivePlace (List String) :=
  compactYears listing codec (List.range' 1970 (currentYear - 1971).toNat) []

end ArchiveStore

end IeumChain
