import IeumChain.Archive
import IeumChain.Lib.Disk
import IeumChain.Lib.Paths
import IeumChain.Storage
import IeumChain.TipQuorum

/-!
# The download of a snapshot (`snapshot_sync.rs`)

A snapshot is a state in JSON, compressed and cut into chunks. Its manifest has the tip it belongs
to and the hashes of the chunks, and a node that joins collects the chunks in files, under a
directory that has the snapshot's id as its name. After a restart it goes on with the chunks it
has.

The encodings are parameters, and a place that a path leads to is found from the working directory
`cwd` of the process. `there` are directories that are there when a download is opened; the ones
that are missing on the way to its own are made.
-/

namespace IeumChain

open Lib

structure SnapshotManifest where
  snapshotId : String
  tip : SyncTip
  chunkCount : UInt32
  compressedBytes : UInt64
  chunkHashes : List String
deriving DecidableEq

structure SnapshotChunk where
  snapshotId : String
  index : UInt32
  bytes : Bytes
deriving DecidableEq

structure ResumeProgress where
  manifest : SnapshotManifest
  received : Finset UInt32
deriving DecidableEq

/-- What `serde_json` and `zstd` do with the values of this module. -/
structure SnapshotCodec where
  progressJson : ResumeProgress → Bytes
  parseProgress : Bytes → Option ResumeProgress
  snapshotJson : StateSnapshot → Bytes
  parseSnapshot : Bytes → Result StateSnapshot
  compress : Bytes → Bytes
  decompress : Bytes → Result Bytes

/-- `chunks` of a slice. -/
def chunksOf (size : ℕ) (bytes : Bytes) : List Bytes :=
  if size = 0 ∨ bytes = [] then []
  else bytes.take size :: chunksOf size (bytes.drop size)
termination_by bytes.length
decreasing_by
  rename_i h
  rw [not_or] at h
  have hlength := List.length_pos_of_ne_nil h.2
  rw [List.length_drop]
  omega

namespace SnapshotManifest

/-- `SnapshotManifest::build`. -/
def build [Primitives] (codec : SnapshotCodec) (snapshot : StateSnapshot) (chunkBytes : ℕ) :
    Result (SnapshotManifest × List SnapshotChunk) := do
  ensure (chunkBytes ≠ 0) "snapshot chunk 크기는 0보다 커야 합니다."
  let compressed := codec.compress (codec.snapshotJson snapshot)
  let snapshotId := sha256Hex compressed
  let chunks := (chunksOf chunkBytes compressed).mapIdx fun index bytes =>
    SnapshotChunk.mk snapshotId (UInt32.ofNat index) bytes
  let manifest : SnapshotManifest :=
    { snapshotId
      tip :=
        { height := snapshot.height
          blockHash := snapshot.blockHash
          stateRoot := snapshot.stateHash }
      chunkCount := UInt32.ofNat chunks.length
      compressedBytes := UInt64.ofNat compressed.length
      chunkHashes := chunks.map fun chunk => sha256Hex chunk.bytes }
  return (manifest, chunks)

/-- `SnapshotManifest::verify`. -/
def verify (m : SnapshotManifest) : Result Unit := do
  ensure (m.chunkCount ≠ 0 ∧ m.chunkCount.toNat = m.chunkHashes.length)
    "snapshot manifest chunk 수가 올바르지 않습니다."
  ensure (textLen m.snapshotId = 64 ∧ ∀ value ∈ m.chunkHashes, textLen value = 64)
    "snapshot manifest 해시 길이가 올바르지 않습니다."

end SnapshotManifest

/-- A name below a path. -/
def child (p : Path) (name : String) : Path := p.join ⟨false, [name]⟩

/-- `atomic_write`. -/
def atomicWrite (cwd : Place) (path : Path) (bytes : Bytes) : DiskM Place Unit := do
  let temporary := path.withExtension "tmp"
  Disk.write (temporary.resolve cwd) bytes
  Disk.rename (temporary.resolve cwd) (path.resolve cwd)

structure SnapshotDownload where
  root : Path
  progress : ResumeProgress
deriving DecidableEq

namespace SnapshotDownload

/-- `chunk_path`. -/
def chunkPath (s : SnapshotDownload) (index : UInt32) : Path :=
  child (child s.root "chunks") (zeroPadded 8 index.toNat ++ ".chunk")

/-- `persist_progress`. -/
def persistProgress (cwd : Place) (codec : SnapshotCodec) (s : SnapshotDownload) :
    DiskM Place Unit :=
  atomicWrite cwd (child s.root "resume.json") (codec.progressJson s.progress)

/-- `SnapshotDownload::open`. -/
def openIn (cwd : Place) (there : List Place) (codec : SnapshotCodec) (dataDir : Path)
    (manifest : SnapshotManifest) : DiskM Place SnapshotDownload := do
  Disk.lift manifest.verify
  let root := (child dataDir "sync").join (Path.ofText manifest.snapshotId)
  Disk.createDirs ((child root "chunks").missing cwd there)
  let stored ← Disk.read ((child root "resume.json").resolve cwd)
  let progress ← Disk.lift do
    match stored with
    | some bytes =>
      let progress ← okOr (codec.parseProgress bytes) "snapshot 재개 파일이 손상되었습니다."
      ensure (progress.manifest = manifest)
        "재개 중인 snapshot manifest가 피어 응답과 다릅니다."
      return progress
    | none => return { manifest, received := ∅ }
  let download : SnapshotDownload := { root, progress }
  download.persistProgress cwd codec
  return download

/-- `missing`. -/
def missing (s : SnapshotDownload) : List UInt32 :=
  ((List.range s.progress.manifest.chunkCount.toNat).map UInt32.ofNat).filter fun index =>
    index ∉ s.progress.received

/-- `is_complete`. -/
def isComplete (s : SnapshotDownload) : Bool :=
  s.progress.received.card = s.progress.manifest.chunkCount.toNat

/-- The checks of `accept`. -/
def checkChunk [Primitives] (s : SnapshotDownload) (chunk : SnapshotChunk) : Result Unit := do
  ensure (chunk.snapshotId = s.progress.manifest.snapshotId) "다른 snapshot의 chunk입니다."
  let expected ← okOr s.progress.manifest.chunkHashes[chunk.index.toNat]?
    "snapshot chunk index가 범위를 벗어났습니다."
  ensure (sha256Hex chunk.bytes = expected) "snapshot chunk 해시가 일치하지 않습니다."

/-- The download with one more chunk. -/
def received (s : SnapshotDownload) (index : UInt32) : SnapshotDownload :=
  { s with progress := { s.progress with received := insert index s.progress.received } }

/-- `accept`. A chunk that is written counts as received, also where the progress is not. -/
def accept [Primitives] (cwd : Place) (codec : SnapshotCodec) (s : SnapshotDownload)
    (chunk : SnapshotChunk) (d : Disk Place) : Result Bool × SnapshotDownload × Disk Place :=
  match s.checkChunk chunk with
  | .error e => (.error e, s, d)
  | .ok () =>
    match atomicWrite cwd (s.chunkPath chunk.index) chunk.bytes d with
    | (.error e, d) => (.error e, s, d)
    | (.ok (), d) =>
      let s := s.received chunk.index
      match s.persistProgress cwd codec d with
      | (.error e, d) => (.error e, s, d)
      | (.ok (), d) => (.ok s.isComplete, s, d)

/-- The loop of `finish` over the files of the chunks. -/
def readChunks (cwd : Place) (s : SnapshotDownload) : List UInt32 → Bytes → DiskM Place Bytes
  | [], compressed => return compressed
  | index :: rest, compressed => do
    let stored ← Disk.read ((s.chunkPath index).resolve cwd)
    let bytes ← Disk.lift (okOr stored "No such file or directory (os error 2)")
    readChunks cwd s rest (compressed ++ bytes)

/-- What `finish` makes of the chunks. -/
def assemble [Primitives] (codec : SnapshotCodec) (manifest : SnapshotManifest)
    (compressed : Bytes) : Result StateSnapshot := do
  ensure (compressed.length = manifest.compressedBytes.toNat)
    "snapshot 압축 크기가 manifest와 다릅니다."
  ensure (sha256Hex compressed = manifest.snapshotId)
    "완성된 snapshot ID가 manifest와 다릅니다."
  let bytes ← codec.decompress compressed
  let snapshot ← codec.parseSnapshot bytes
  ensure (snapshot.height = manifest.tip.height ∧ snapshot.blockHash = manifest.tip.blockHash ∧
      snapshot.stateHash = manifest.tip.stateRoot)
    "완성된 snapshot 상태가 교차검증 tip과 다릅니다."
  return snapshot

/-- `finish`. Room is made for the compressed bytes first, and a vector has less than 2^63. -/
def finish [Primitives] (cwd : Place) (codec : SnapshotCodec) (s : SnapshotDownload) :
    DiskM Place StateSnapshot := do
  Disk.lift (ensure s.isComplete "snapshot chunk가 아직 모두 도착하지 않았습니다.")
  Disk.lift (ensure (s.progress.manifest.compressedBytes.toNat < 2 ^ 63) "capacity overflow")
  let compressed ← readChunks cwd s
    ((List.range s.progress.manifest.chunkCount.toNat).map UInt32.ofNat) []
  Disk.lift (assemble codec s.progress.manifest compressed)

end SnapshotDownload

end IeumChain
