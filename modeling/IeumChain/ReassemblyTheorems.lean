import IeumChain.Devnet
import IeumChain.DownloadTheorems
import IeumChain.Lib.Decimal

/-!
# A download puts the snapshot together again

A node opens a download as often as it likes and offers it chunks, genuine and others, in any order.

* `Cut` says what `build` makes of the compressed snapshot, and `isCut_build` that it does;
* `Holds` is the invariant between the calls: the progress, the file it is resumed from and the files
  of the chunks agree with the chunks that were accepted;
* `download_reassembles`: so what is missing is what was not accepted, and nothing is missing
  exactly when `finish` gives the snapshot back.
-/

namespace IeumChain

open Lib Lib.Disk

/-! ## Chunks -/

lemma flatten_chunksOf {size : ℕ} (hsize : size ≠ 0) (bytes : Bytes) :
    (chunksOf size bytes).flatten = bytes := by
  induction bytes using chunksOf.induct size with
  | case1 bytes hnone =>
    rw [chunksOf, if_pos hnone]
    exact (hnone.resolve_left hsize).symm
  | case2 bytes hsome ih =>
    rw [chunksOf, if_neg hsome, List.flatten_cons, ih, List.take_append_drop]

/-- The bytes of numbered chunks. -/
lemma map_bytes (id : String) (parts : List Bytes) :
    (parts.mapIdx fun index bytes => SnapshotChunk.mk id (UInt32.ofNat index) bytes).map
      SnapshotChunk.bytes = parts := by
  rw [List.mapIdx_eq_zipIdx_map, List.map_map]
  exact List.zipIdx_map_fst 0 parts

/-- What a manifest and its chunks are of the compressed bytes of a snapshot. -/
structure Cut [Primitives] (snapshot : StateSnapshot) (compressed : Bytes) (m : SnapshotManifest)
    (cs : List SnapshotChunk) : Prop where
  count : m.chunkCount.toNat = cs.length
  index : ∀ i (h : i < cs.length), (cs[i].index).toNat = i
  snapshotId : ∀ c ∈ cs, c.snapshotId = m.snapshotId
  hashes : m.chunkHashes = cs.map fun c => sha256Hex c.bytes
  whole : (cs.map SnapshotChunk.bytes).flatten = compressed
  manifestId : m.snapshotId = sha256Hex compressed
  size : m.compressedBytes.toNat = compressed.length
  tip : m.tip = ⟨snapshot.height, snapshot.blockHash, snapshot.stateHash⟩

/-- `build` cuts the compressed snapshot. -/
lemma isCut_build [Primitives] {codec : SnapshotCodec} {snapshot : StateSnapshot} {chunkBytes : ℕ}
    {m : SnapshotManifest} {cs : List SnapshotChunk}
    (hbuild : SnapshotManifest.build codec snapshot chunkBytes = .ok (m, cs))
    (hcount : cs.length < 2 ^ 32)
    (hmemory : (codec.compress (codec.snapshotJson snapshot)).length < 2 ^ 63) :
    Cut snapshot (codec.compress (codec.snapshotJson snapshot)) m cs := by
  simp only [SnapshotManifest.build, bind_eq_ok, ensure_eq_ok, pure_eq_ok, Prod.mk.injEq] at hbuild
  obtain ⟨_, hsize, rfl, rfl⟩ := hbuild
  constructor
  · exact UInt32.toNat_ofNat_of_lt' hcount
  · intro i h
    rw [List.getElem_mapIdx]
    exact UInt32.toNat_ofNat_of_lt' (h.trans hcount)
  · intro c hc
    obtain ⟨i, h, rfl⟩ := List.mem_mapIdx.mp hc
    rfl
  · rfl
  · rw [map_bytes, flatten_chunksOf hsize]
  · rfl
  · exact UInt64.toNat_ofNat_of_lt' (hmemory.trans (by decide))
  · rfl

namespace Cut
variable [Primitives] {snapshot : StateSnapshot} {compressed : Bytes} {m : SnapshotManifest}
  {cs : List SnapshotChunk}

/-- The chunk of an index. -/
lemma exists_chunk (h : Cut snapshot compressed m cs) {index : UInt32}
    (hindex : index.toNat < cs.length) : ∃ c ∈ cs, c.index = index ∧ cs[index.toNat]? = some c := by
  refine ⟨cs[index.toNat], List.getElem_mem hindex, ?_, List.getElem?_eq_getElem hindex⟩
  exact UInt32.toNat_inj.mp (h.index index.toNat hindex)

/-- A chunk stands at its index. -/
lemma getElem_index (h : Cut snapshot compressed m cs) {c : SnapshotChunk} (hc : c ∈ cs) :
    cs[c.index.toNat]? = some c := by
  obtain ⟨i, hi, rfl⟩ := List.getElem_of_mem hc
  rw [h.index i hi]
  exact List.getElem?_eq_getElem hi

lemma index_lt (h : Cut snapshot compressed m cs) {c : SnapshotChunk} (hc : c ∈ cs) :
    c.index.toNat < cs.length := by
  have hget := h.getElem_index hc
  exact (List.getElem?_eq_some_iff.mp hget).1

lemma verify (h : Cut snapshot compressed m cs) (hne : cs ≠ []) : m.verify = .ok () := by
  refine SnapshotManifest.verify_eq_ok.mpr ⟨?_, ?_, ?_, ?_⟩
  · intro hzero
    have hcount := h.count
    rw [hzero] at hcount
    exact hne (List.eq_nil_of_length_eq_zero hcount.symm)
  · rw [h.hashes, List.length_map, h.count]
  · rw [h.manifestId, textLen_sha256Hex]
  · intro value hvalue
    rw [h.hashes] at hvalue
    obtain ⟨c, _, rfl⟩ := List.mem_map.mp hvalue
    exact textLen_sha256Hex _

end Cut

/-! ## Files -/

/-- An atomic write changes its file, and another one on the way. -/
lemma returns_atomicWrite {cwd : Place} {p : Path} {name : String} (hname : Path.IsName name)
    (bytes : Bytes) {files : HashMap Place Bytes} :
    Returns (atomicWrite cwd (child p name) bytes) (fun _ after =>
      after.lookup (p.resolve cwd ++ [name]) = some bytes ∧
        ∀ place, place ≠ p.resolve cwd ++ [name] →
          place ≠ p.resolve cwd ++ [Path.fileStem name ++ "." ++ "tmp"] →
            after.lookup place = files.lookup place) files := by
  have htemporary : Path.IsName (Path.fileStem name ++ "." ++ "tmp") := isName_append (by decide)
  have hplace : ((child p name).withExtension "tmp").resolve cwd =
      p.resolve cwd ++ [Path.fileStem name ++ "." ++ "tmp"] := by
    rw [child, Path.withExtension_join]
    exact resolve_child htemporary p cwd
  rw [atomicWrite, hplace, resolve_child hname]
  refine Returns.bind (Returns.write (Returns.rename (HashMap.lookup_insert_self _ _ _) ⟨?_, ?_⟩))
  · exact HashMap.lookup_insert_self _ _ _
  · intro place hne hne'
    rw [lookup_insert_of_ne hne, Finmap.lookup_erase_ne hne', lookup_insert_of_ne hne']

namespace SnapshotDownload

/-- The name of the file of a chunk. -/
def chunkName (index : UInt32) : String := zeroPadded 8 (index.toNat : ℤ) ++ ".chunk"

lemma toList_chunkName (index : UInt32) :
    (chunkName index).toList = padded 8 index.toNat ++ ".chunk".toList := by
  rw [chunkName, zeroPadded_natCast, String.toList_append, String.toList_ofList]

lemma chunkName_inj {i j : UInt32} (h : chunkName i = chunkName j) : i = j := by
  have hlists := congrArg String.toList h
  rw [toList_chunkName, toList_chunkName] at hlists
  exact UInt32.toNat_inj.mp (padded_inj (List.append_cancel_right hlists))

/-- The file of a chunk is no temporary one. -/
lemma chunkName_ne (index : UInt32) (stem : String) : chunkName index ≠ stem ++ "." ++ "tmp" := by
  intro h
  have hlast := congrArg (fun s : String => s.toList.getLast?) h
  simp only [toList_chunkName, String.toList_append] at hlast
  rw [List.getLast?_append_of_ne_nil _ (by decide), List.getLast?_append_of_ne_nil _ (by decide)]
    at hlast
  exact absurd hlast (by decide)

/-- The place of a chunk below the directory of a download. -/
def chunkPlace (directory : Place) (index : UInt32) : Place :=
  directory ++ ["chunks"] ++ [chunkName index]

lemma resolve_chunkPath (s : SnapshotDownload) (cwd : Place) (index : UInt32) :
    (s.chunkPath index).resolve cwd = chunkPlace (s.root.resolve cwd) index := by
  rw [chunkPath, resolve_child (isName_chunk index), resolve_chunks]
  rfl

lemma chunkPlace_inj {directory : Place} {i j : UInt32}
    (h : chunkPlace directory i = chunkPlace directory j) : i = j := by
  have hnames := List.append_cancel_left h
  exact chunkName_inj (List.singleton_inj.mp hnames)

/-- A file beside the chunks is none of them. -/
lemma chunkPlace_ne (directory : Place) (index : UInt32) (name : String) :
    chunkPlace directory index ≠ directory ++ [name] := by
  intro h
  have hlength := congrArg List.length h
  simp [chunkPlace] at hlength

/-! ## The invariant -/

/-- The progress of a download and its files agree with the chunks that were accepted. -/
structure Holds (cwd : Place) (codec : SnapshotCodec) (dataDir : Path) (m : SnapshotManifest)
    (cs : List SnapshotChunk) (s : SnapshotDownload) (accepted : Finset UInt32)
    (files : HashMap Place Bytes) : Prop where
  root : s.root = rootPath dataDir m
  progress : s.progress = ⟨m, accepted⟩
  within : ∀ index ∈ accepted, index.toNat < cs.length
  resume : files.lookup ((rootPath dataDir m).resolve cwd ++ ["resume.json"]) =
    some (codec.progressJson ⟨m, accepted⟩)
  chunks : ∀ c ∈ cs, c.index ∈ accepted →
    files.lookup (chunkPlace ((rootPath dataDir m).resolve cwd) c.index) = some c.bytes

section Calls
variable {cwd : Place} {there : List Place} {codec : SnapshotCodec} {dataDir : Path}
  {m : SnapshotManifest} {cs : List SnapshotChunk} {s : SnapshotDownload}
  {accepted : Finset UInt32} {files : HashMap Place Bytes}

/-- Once the progress is written, everything agrees. -/
lemma returns_persistProgress (hroot : s.root = rootPath dataDir m)
    (hprogress : s.progress = ⟨m, accepted⟩) (hwithin : ∀ index ∈ accepted, index.toNat < cs.length)
    (hchunks : ∀ c ∈ cs, c.index ∈ accepted →
      files.lookup (chunkPlace ((rootPath dataDir m).resolve cwd) c.index) = some c.bytes) :
    Returns (s.persistProgress cwd codec)
      (fun _ after => Holds cwd codec dataDir m cs s accepted after) files := by
  rw [persistProgress, hroot, hprogress]
  refine Returns.mono (returns_atomicWrite (by decide) _) ?_
  rintro - after ⟨hresume, hframe⟩
  refine ⟨hroot, hprogress, hwithin, hresume, fun c hc hmem => ?_⟩
  rw [hframe _ (chunkPlace_ne _ _ _) (chunkPlace_ne _ _ _)]
  exact hchunks c hc hmem

/-- A download that is opened for the first time, or again. -/
lemma returns_openIn (hverify : m.verify = .ok ())
    (hstored : files.lookup ((rootPath dataDir m).resolve cwd ++ ["resume.json"]) = none ∧
        accepted = ∅ ∨
      files.lookup ((rootPath dataDir m).resolve cwd ++ ["resume.json"]) =
        some (codec.progressJson ⟨m, accepted⟩) ∧
      codec.parseProgress (codec.progressJson ⟨m, accepted⟩) = some ⟨m, accepted⟩)
    (hwithin : ∀ index ∈ accepted, index.toNat < cs.length)
    (hchunks : ∀ c ∈ cs, c.index ∈ accepted →
      files.lookup (chunkPlace ((rootPath dataDir m).resolve cwd) c.index) = some c.bytes) :
    Returns (openIn cwd there codec dataDir m)
      (fun s after => Holds cwd codec dataDir m cs s accepted after) files := by
  have hresume : (child (rootPath dataDir m) "resume.json").resolve cwd =
      (rootPath dataDir m).resolve cwd ++ ["resume.json"] := resolve_child (by decide) _ _
  have hpersist : Returns (do
      persistProgress cwd codec ⟨rootPath dataDir m, ⟨m, accepted⟩⟩
      return SnapshotDownload.mk (rootPath dataDir m) ⟨m, accepted⟩)
      (fun s after => Holds cwd codec dataDir m cs s accepted after) files := by
    refine Returns.bind (Returns.mono (returns_persistProgress rfl rfl hwithin hchunks) ?_)
    exact fun _ _ hholds => Returns.pure hholds
  refine Returns.bind (Returns.lift hverify (Returns.bind (Returns.createDirs ?_)))
  refine Returns.bind (Returns.read ?_)
  have hplace : (child ((child dataDir "sync").join (Path.ofText m.snapshotId)) "resume.json"
      ).resolve cwd = (rootPath dataDir m).resolve cwd ++ ["resume.json"] := hresume
  rw [hplace]
  rcases hstored with ⟨hnone, rfl⟩ | ⟨hsome, hparse⟩
  · rw [hnone]
    exact Returns.bind (Returns.lift rfl hpersist)
  · rw [hsome]
    refine Returns.bind (Returns.lift (a := ⟨m, accepted⟩) ?_ hpersist)
    simp only [hparse, bind_eq_ok, okOr_eq_ok, ensure_eq_ok, pure_eq_ok]
    exact ⟨_, rfl, (), rfl, rfl⟩

variable [Primitives] {snapshot : StateSnapshot} {compressed : Bytes}

lemma checkChunk_eq_ok {chunk : SnapshotChunk} : s.checkChunk chunk = .ok () ↔
    chunk.snapshotId = s.progress.manifest.snapshotId ∧
      s.progress.manifest.chunkHashes[chunk.index.toNat]? = some (sha256Hex chunk.bytes) := by
  simp only [checkChunk, bind_eq_ok, ensure_eq_ok, okOr_eq_ok]
  constructor
  · rintro ⟨_, hid, expected, hexpected, hhash⟩
    exact ⟨hid, by rw [hexpected, hhash]⟩
  · rintro ⟨hid, hexpected⟩
    exact ⟨(), hid, _, hexpected, rfl⟩

/-- The chunks that pass the checks are the genuine ones. -/
lemma checkChunk_iff (hcut : Cut snapshot compressed m cs) (hmanifest : s.progress.manifest = m)
    {chunk : SnapshotChunk} {inputs : Bytes → Prop} (hfree : CollisionFree inputs)
    (hgenuine : ∀ c ∈ cs, inputs c.bytes) (hchunk : inputs chunk.bytes) :
    s.checkChunk chunk = .ok () ↔ chunk ∈ cs := by
  rw [checkChunk_eq_ok, hmanifest, hcut.hashes, List.getElem?_map, Option.map_eq_some_iff]
  constructor
  · rintro ⟨hid, c, hget, hhash⟩
    obtain ⟨hlt, hc⟩ := List.getElem?_eq_some_iff.mp hget
    have hmem : c ∈ cs := hc ▸ List.getElem_mem hlt
    have hbytes : c.bytes = chunk.bytes := hfree.eq_of_hex (hgenuine c hmem) hchunk hhash
    have hindex : c.index = chunk.index := by
      rw [← hc]
      exact UInt32.toNat_inj.mp (hcut.index _ hlt)
    have hsame : c = chunk := by
      cases c
      cases chunk
      simp only [SnapshotChunk.mk.injEq]
      exact ⟨(hcut.snapshotId _ hmem).trans hid.symm, hindex, hbytes⟩
    exact hsame ▸ hmem
  · intro hmem
    exact ⟨hcut.snapshotId chunk hmem, chunk, hcut.getElem_index hmem, rfl⟩

/-- A chunk that does not pass the checks changes nothing. -/
lemma accept_of_error {chunk : SnapshotChunk} {e : String} (h : s.checkChunk chunk = .error e)
    (d : Disk Place) : s.accept cwd codec chunk d = (.error e, s, d) := by
  rw [accept, h]

/-- The file of one more chunk, and the files of the others. -/
lemma chunks_insert (hcut : Cut snapshot compressed m cs)
    (hholds : Holds cwd codec dataDir m cs s accepted files) {chunk : SnapshotChunk}
    (hmem : chunk ∈ cs) {after : HashMap Place Bytes}
    (hwritten : after.lookup (chunkPlace ((rootPath dataDir m).resolve cwd) chunk.index) =
      some chunk.bytes)
    (hframe : ∀ place, place ≠ chunkPlace ((rootPath dataDir m).resolve cwd) chunk.index →
      place ≠ (rootPath dataDir m).resolve cwd ++ ["chunks"] ++
        [Path.fileStem (chunkName chunk.index) ++ "." ++ "tmp"] →
      after.lookup place = files.lookup place) :
    ∀ c ∈ cs, c.index ∈ insert chunk.index accepted →
      after.lookup (chunkPlace ((rootPath dataDir m).resolve cwd) c.index) = some c.bytes := by
  intro c hc hindex
  by_cases hsame : c.index = chunk.index
  · have hchunk : some c = some chunk := by
      rw [← hcut.getElem_index hc, hsame, hcut.getElem_index hmem]
    rw [hsame, hwritten, Option.some.inj hchunk]
  · rw [hframe _ (fun h => hsame (chunkPlace_inj h))]
    · exact hholds.chunks c hc (Finset.mem_of_mem_insert_of_ne hindex hsame)
    · intro h
      exact chunkName_ne _ _ (List.singleton_inj.mp (List.append_cancel_left h))

/-- A chunk that passes the checks is written, and the progress after it. -/
lemma accept_of_ok (hcut : Cut snapshot compressed m cs) {chunk : SnapshotChunk}
    (h : s.checkChunk chunk = .ok ()) {d : Disk Place} (hsound : d.Sound)
    (hroot : s.root = rootPath dataDir m) :
    ∃ d', s.accept cwd codec chunk d =
      (.ok (s.received chunk.index).isComplete, s.received chunk.index, d') ∧ d'.Sound ∧
        (Holds cwd codec dataDir m cs s accepted d.files → chunk ∈ cs →
          Holds cwd codec dataDir m cs (s.received chunk.index) (insert chunk.index accepted)
            d'.files) := by
  have hwrite := @returns_atomicWrite cwd (child s.root "chunks") _ (isName_chunk chunk.index)
    chunk.bytes d.files
  obtain ⟨_, d₁, hwritten, hsound₁, hfile, hframe⟩ := hwrite d hsound rfl
  rw [resolve_chunks, hroot] at hfile hframe
  have hpersist : Returns ((s.received chunk.index).persistProgress cwd codec)
      (fun _ after => Holds cwd codec dataDir m cs s accepted d.files → chunk ∈ cs →
        Holds cwd codec dataDir m cs (s.received chunk.index) (insert chunk.index accepted) after)
      d₁.files := by
    by_cases hcase : Holds cwd codec dataDir m cs s accepted d.files ∧ chunk ∈ cs
    · obtain ⟨hholds, hmem⟩ := hcase
      have hprogress : (s.received chunk.index).progress = ⟨m, insert chunk.index accepted⟩ := by
        rw [received, hholds.progress]
      have hwithin : ∀ index ∈ insert chunk.index accepted, index.toNat < cs.length := by
        intro index hindex
        rcases Finset.mem_insert.mp hindex with rfl | hold
        · exact hcut.index_lt hmem
        · exact hholds.within index hold
      have hchunks := chunks_insert hcut hholds hmem hfile hframe
      refine Returns.mono (returns_persistProgress hroot hprogress hwithin hchunks) ?_
      exact fun _ _ hnew _ _ => hnew
    · refine Returns.mono (returns_atomicWrite (by decide) _) ?_
      exact fun _ _ _ hholds hmem => absurd ⟨hholds, hmem⟩ hcase
  obtain ⟨_, d₂, hpersisted, hsound₂, hnew⟩ := hpersist d₁ hsound₁ rfl
  refine ⟨d₂, ?_, hsound₂, hnew⟩
  rw [accept, h]
  dsimp only
  rw [chunkPath, hwritten]
  dsimp only
  rw [hpersisted]

/-! ## The end of a download -/

omit [Primitives] in
/-- The loop over the files gives their bytes, one behind the other. -/
lemma returns_readChunks {content : UInt32 → Bytes} :
    ∀ {indices : List UInt32} (front : Bytes),
      (∀ index ∈ indices, files.lookup (chunkPlace (s.root.resolve cwd) index) =
        some (content index)) →
      Returns (readChunks cwd s indices front)
        (fun all _ => all = front ++ (indices.map content).flatten) files := by
  intro indices
  induction indices with
  | nil =>
    intro front _
    exact Returns.pure (List.append_nil front).symm
  | cons index rest ih =>
    intro front h
    refine Returns.bind (Returns.read ?_)
    rw [resolve_chunkPath, h index List.mem_cons_self]
    refine Returns.bind (Returns.lift (a := content index) rfl ?_)
    refine Returns.mono (ih _ fun other hother => h other (List.mem_cons_of_mem _ hother)) ?_
    intro all _ hall
    rw [hall, List.map_cons, List.flatten_cons, List.append_assoc]

/-- The indices of a manifest. -/
def indices (m : SnapshotManifest) : List UInt32 :=
  (List.range m.chunkCount.toNat).map UInt32.ofNat

omit [Primitives] in
lemma mem_indices {index : UInt32} : index ∈ indices m ↔ index.toNat < m.chunkCount.toNat := by
  constructor
  · intro hmem
    obtain ⟨i, hi, rfl⟩ := List.mem_map.mp hmem
    have hlt := List.mem_range.mp hi
    rw [UInt32.toNat_ofNat_of_lt' (hlt.trans m.chunkCount.toNat_lt)]
    exact hlt
  · intro hlt
    exact List.mem_map.mpr ⟨index.toNat, List.mem_range.mpr hlt, UInt32.ofNat_toNat⟩

omit [Primitives] in
lemma nodup_indices : (indices m).Nodup := by
  refine List.Nodup.map_on ?_ List.nodup_range
  intro i hi j hj h
  have hvalues := congrArg UInt32.toNat h
  have hcount := m.chunkCount.toNat_lt
  rwa [UInt32.toNat_ofNat_of_lt' ((List.mem_range.mp hi).trans hcount),
    UInt32.toNat_ofNat_of_lt' ((List.mem_range.mp hj).trans hcount)] at hvalues

/-- As many indices as there are chunks are all of them. -/
lemma isComplete_iff (hcut : Cut snapshot compressed m cs)
    (hholds : Holds cwd codec dataDir m cs s accepted files) :
    s.isComplete = true ↔ s.missing = [] := by
  have hlength : (indices m).toFinset.card = m.chunkCount.toNat := by
    rw [List.toFinset_card_of_nodup nodup_indices, indices, List.length_map, List.length_range]
  have hsubset : accepted ⊆ (indices m).toFinset := by
    intro index hindex
    rw [List.mem_toFinset, mem_indices, hcut.count]
    exact hholds.within index hindex
  have hmissing : s.missing = [] ↔ (indices m).toFinset ⊆ accepted := by
    rw [missing, hholds.progress, List.filter_eq_nil_iff]
    constructor
    · intro h index hindex
      by_contra hnot
      exact h index (List.mem_toFinset.mp hindex) (by simpa using hnot)
    · intro h index hindex
      simpa using h (List.mem_toFinset.mpr hindex)
  rw [hmissing, isComplete, hholds.progress, decide_eq_true_eq, ← hlength]
  constructor
  · intro hcard
    rw [Finset.eq_of_subset_of_card_le hsubset hcard.ge]
  · exact fun h => congrArg Finset.card (Finset.Subset.antisymm hsubset h)

/-- The bytes of the chunks in the order of their indices. -/
lemma flatten_indices (hcut : Cut snapshot compressed m cs) :
    ((indices m).map fun index => (cs[index.toNat]?.map SnapshotChunk.bytes).getD []).flatten =
      compressed := by
  rw [← hcut.whole, indices, List.map_map, hcut.count]
  congr 1
  apply List.ext_getElem
  · rw [List.length_map, List.length_range, List.length_map]
  · intro i hi _
    rw [List.length_map, List.length_range] at hi
    have hsmall : i < 2 ^ 32 := by
      have hcount := hcut.count
      have hbound := m.chunkCount.toNat_lt
      omega
    rw [List.getElem_map, List.getElem_map, List.getElem_range, Function.comp_apply,
      UInt32.toNat_ofNat_of_lt' hsmall, List.getElem?_eq_getElem hi]
    rfl

/-- A complete download gives the snapshot back. -/
lemma returns_finish (hcut : Cut snapshot compressed m cs) (hmemory : compressed.length < 2 ^ 63)
    {plain : Bytes} (hzstd : codec.decompress compressed = .ok plain)
    (hjson : codec.parseSnapshot plain = .ok snapshot)
    (hholds : Holds cwd codec dataDir m cs s accepted files) (hcomplete : s.isComplete = true) :
    Returns (s.finish cwd codec) (fun result _ => result = snapshot) files := by
  have hall : ∀ index ∈ indices m, files.lookup (chunkPlace (s.root.resolve cwd) index) =
      some ((cs[index.toNat]?.map SnapshotChunk.bytes).getD []) := by
    intro index hindex
    have hlt : index.toNat < cs.length := by
      rw [← hcut.count]
      exact mem_indices.mp hindex
    obtain ⟨c, hc, rfl, hget⟩ := hcut.exists_chunk hlt
    have hnone := (isComplete_iff hcut hholds).mp hcomplete
    rw [missing, hholds.progress, List.filter_eq_nil_iff] at hnone
    have haccepted : c.index ∈ accepted := by simpa using hnone c.index hindex
    rw [hholds.root, hholds.chunks c hc haccepted, hget]
    rfl
  refine Returns.bind (Returns.lift (a := ()) (ensure_eq_ok.mpr hcomplete) ?_)
  refine Returns.bind (Returns.lift (a := ()) (ensure_eq_ok.mpr ?_) ?_)
  · rw [hholds.progress, hcut.size]
    exact hmemory
  have hindices : (List.range s.progress.manifest.chunkCount.toNat).map UInt32.ofNat = indices m := by
    rw [hholds.progress, indices]
  rw [hindices]
  refine Returns.bind (Returns.mono (returns_readChunks [] hall) ?_)
  rintro _ after rfl
  rw [List.nil_append, flatten_indices hcut]
  refine Returns.lift ?_ rfl
  rw [hholds.progress]
  simp only [assemble, bind_eq_ok, ensure_eq_ok, pure_eq_ok]
  refine ⟨(), hcut.size.symm, (), hcut.manifestId.symm, plain, hzstd, snapshot, hjson, (), ?_, rfl⟩
  rw [hcut.tip]
  exact ⟨rfl, rfl, rfl⟩

end Calls

/-! ## Runs -/

/-- A node in the middle of a download: the open download, the disk and the indices of the chunks
that were accepted. -/
structure Fetch where
  download : SnapshotDownload
  disk : Disk Place
  accepted : Finset UInt32

/-- What a node does with a download. -/
inductive FetchCall where
  | reopen (there : List Place)
  | accept (chunk : SnapshotChunk)

section Runs
variable [Primitives] {cwd : Place} {codec : SnapshotCodec} {dataDir : Path} {m : SnapshotManifest}
  {cs : List SnapshotChunk} {snapshot : StateSnapshot} {compressed : Bytes}

/-- The node after a call. -/
def Fetch.step (cwd : Place) (codec : SnapshotCodec) (dataDir : Path) (m : SnapshotManifest)
    (f : Fetch) : FetchCall → Fetch
  | .reopen there =>
    match openIn cwd there codec dataDir m f.disk with
    | (.ok s, d) => { f with download := s, disk := d }
    | (.error _, d) => { f with disk := d }
  | .accept chunk =>
    match f.download.accept cwd codec chunk f.disk with
    | (.ok _, s, d) => { download := s, disk := d, accepted := insert chunk.index f.accepted }
    | (.error _, s, d) => { f with download := s, disk := d }

/-- The invariant of a run on a disk without failures. -/
structure Fetch.Agrees (cwd : Place) (codec : SnapshotCodec) (dataDir : Path) (m : SnapshotManifest)
    (cs : List SnapshotChunk) (f : Fetch) : Prop where
  sound : f.disk.Sound
  holds : Holds cwd codec dataDir m cs f.download f.accepted f.disk.files

/-- What serde_json makes of the progress can be read again. -/
def ProgressReadable (codec : SnapshotCodec) (m : SnapshotManifest) : Prop :=
  ∀ received : Finset UInt32, (∀ index ∈ received, index.toNat < m.chunkCount.toNat) →
    codec.parseProgress (codec.progressJson ⟨m, received⟩) = some ⟨m, received⟩

omit [Primitives] in
lemma Fetch.Agrees.reopen {f : Fetch} (h : f.Agrees cwd codec dataDir m cs)
    (hverify : m.verify = .ok ()) (hcount : m.chunkCount.toNat = cs.length)
    (hread : ProgressReadable codec m) (there : List Place) :
    ∃ s d, openIn cwd there codec dataDir m f.disk = (.ok s, d) ∧ d.Sound ∧ Holds cwd codec dataDir m cs s f.accepted d.files := by
  have hparse := hread f.accepted fun index hindex => hcount.symm ▸ h.holds.within index hindex
  exact returns_openIn hverify (.inr ⟨h.holds.resume, hparse⟩) h.holds.within h.holds.chunks f.disk
    h.sound rfl

/-- Every call keeps the invariant. -/
lemma Fetch.Agrees.step {f : Fetch} (h : f.Agrees cwd codec dataDir m cs)
    (hcut : Cut snapshot compressed m cs) (hverify : m.verify = .ok ())
    (hread : ProgressReadable codec m) {call : FetchCall} {inputs : Bytes → Prop}
    (hfree : CollisionFree inputs) (hgenuine : ∀ c ∈ cs, inputs c.bytes)
    (hcall : ∀ c, call = .accept c → inputs c.bytes) :
    (f.step cwd codec dataDir m call).Agrees cwd codec dataDir m cs := by
  cases call with
  | reopen there =>
    obtain ⟨s, d, hopen, hsound, hholds⟩ := h.reopen hverify hcut.count hread there
    rw [Fetch.step, hopen]
    exact ⟨hsound, hholds⟩
  | accept chunk =>
    cases hcheck : f.download.checkChunk chunk with
    | error e =>
      rw [Fetch.step, accept_of_error hcheck]
      exact h
    | ok u =>
      have hmanifest : f.download.progress.manifest = m := by rw [h.holds.progress]
      have hmem : chunk ∈ cs :=
        (checkChunk_iff hcut hmanifest hfree hgenuine (hcall chunk rfl)).mp hcheck
      obtain ⟨d, haccept, hsound, hnew⟩ := accept_of_ok hcut hcheck h.sound h.holds.root
      rw [Fetch.step, haccept]
      exact ⟨hsound, hnew h.holds hmem⟩

/-- So does every run. -/
lemma Fetch.Agrees.foldl {f : Fetch} (h : f.Agrees cwd codec dataDir m cs)
    (hcut : Cut snapshot compressed m cs) (hverify : m.verify = .ok ())
    (hread : ProgressReadable codec m) {calls : List FetchCall} {inputs : Bytes → Prop}
    (hfree : CollisionFree inputs) (hgenuine : ∀ c ∈ cs, inputs c.bytes)
    (hcalls : ∀ c, .accept c ∈ calls → inputs c.bytes) :
    (calls.foldl (Fetch.step cwd codec dataDir m) f).Agrees cwd codec dataDir m cs := by
  induction calls generalizing f with
  | nil => exact h
  | cons call calls ih =>
    refine ih (h.step hcut hverify hread hfree hgenuine fun c hc => ?_) fun c hc => ?_
    · exact hcalls c (hc ▸ List.mem_cons_self)
    · exact hcalls c (List.mem_cons_of_mem _ hc)

lemma accepted_reopen (f : Fetch) :
    (f.step cwd codec dataDir m (.reopen there)).accepted = f.accepted := by
  rw [Fetch.step]
  split <;> rfl

/-- What was accepted stays so. -/
lemma accepted_subset_foldl (calls : List FetchCall) (f : Fetch) :
    f.accepted ⊆ (calls.foldl (Fetch.step cwd codec dataDir m) f).accepted := by
  induction calls generalizing f with
  | nil => exact Finset.Subset.refl _
  | cons call calls ih =>
    refine Finset.Subset.trans ?_ (ih _)
    cases call with
    | reopen there => rw [accepted_reopen]
    | accept chunk =>
      rw [Fetch.step]
      split
      · exact Finset.subset_insert _ _
      · exact Finset.Subset.refl _

lemma accepted_accept {f : Fetch} {chunk : SnapshotChunk} {complete : Bool}
    (h : (f.download.accept cwd codec chunk f.disk).1 = .ok complete) :
    (f.step cwd codec dataDir m (.accept chunk)).accepted = insert chunk.index f.accepted := by
  rw [Fetch.step]
  split
  · rfl
  · rename_i haccept
    rw [haccept] at h
    cases h

/-- A chunk that no run with the offered chunks refuses is accepted where it is among the calls. -/
lemma mem_accepted_of_offered {f f' : Fetch} {offered : List SnapshotChunk} {calls : List FetchCall}
    {c : SnapshotChunk} (hoffered : ∀ c, .accept c ∈ calls → c ∈ offered)
    (haccept : ∀ before : List FetchCall, (∀ c, .accept c ∈ before → c ∈ offered) →
      ∃ complete, ((before.foldl (Fetch.step cwd codec dataDir m) f).download.accept cwd codec c
        (before.foldl (Fetch.step cwd codec dataDir m) f).disk).1 = .ok complete)
    (hcall : .accept c ∈ calls) (hrun : calls.foldl (Fetch.step cwd codec dataDir m) f = f') :
    c.index ∈ f'.accepted := by
  obtain ⟨before, after, rfl⟩ := List.append_of_mem hcall
  obtain ⟨complete, hcomplete⟩ :=
    haccept before fun c hc => hoffered c (List.mem_append_left _ hc)
  rw [← hrun, List.foldl_append, List.foldl_cons]
  apply accepted_subset_foldl
  rw [accepted_accept hcomplete]
  exact Finset.mem_insert_self _ _

end Runs

end SnapshotDownload

open SnapshotDownload in
/-- **A download reassembles the snapshot.** Whatever chunks are offered, in whatever order, and
however often the download is opened again, on a disk without failures: what is missing is what was
not accepted, the download is complete exactly when nothing is missing, genuine chunks are accepted,
a rejected chunk changes nothing, and a complete download gives the snapshot back. -/
theorem download_reassembles [Primitives] (cwd : Place) (codec : SnapshotCodec) (dataDir : Path)
    (snapshot : StateSnapshot) (chunkBytes : ℕ) (m : SnapshotManifest) (cs : List SnapshotChunk)
    (hbuild : SnapshotManifest.build codec snapshot chunkBytes = .ok (m, cs))
    (hcount : cs.length < 2 ^ 32)
    (hmemory : (codec.compress (codec.snapshotJson snapshot)).length < 2 ^ 63)
    (hnonempty : codec.compress (codec.snapshotJson snapshot) ≠ [])
    (hzstd : codec.decompress (codec.compress (codec.snapshotJson snapshot)) =
      .ok (codec.snapshotJson snapshot))
    (hjson : codec.parseSnapshot (codec.snapshotJson snapshot) = .ok snapshot)
    (hprogress : ProgressReadable codec m) (d : Disk Place) (hsound : d.Sound)
    (hnew : d.files.lookup ((rootPath dataDir m).resolve cwd ++ ["resume.json"]) = none)
    (there : List Place) :
    m.verify = .ok () ∧ ∃ s d₀, openIn cwd there codec dataDir m d = (.ok s, d₀) ∧
      ∀ calls : List FetchCall,
        CollisionFree (fun bytes => (∃ c ∈ cs, c.bytes = bytes) ∨
          ∃ c, FetchCall.accept c ∈ calls ∧ c.bytes = bytes) →
        let f := calls.foldl (Fetch.step cwd codec dataDir m) ⟨s, d₀, ∅⟩
        f.download.missing = (indices m).filter (fun index => index ∉ f.accepted) ∧
        (f.download.isComplete = true ↔ f.download.missing = []) ∧
        (∀ there', ∃ s' d', openIn cwd there' codec dataDir m f.disk = (.ok s', d')) ∧
        (∀ c ∈ cs, ∃ complete, (f.download.accept cwd codec c f.disk).1 = .ok complete) ∧
        (∀ c e, (f.download.accept cwd codec c f.disk).1 = .error e →
          (f.download.accept cwd codec c f.disk).2 = (f.download, f.disk)) ∧
        (f.download.isComplete = true →
          ∃ d', f.download.finish cwd codec f.disk = (.ok snapshot, d')) := by
  have hcut := isCut_build hbuild hcount hmemory
  have hne : cs ≠ [] := by
    rintro rfl
    exact hnonempty hcut.whole.symm
  have hverify := hcut.verify hne
  refine ⟨hverify, ?_⟩
  -- the first opening finds no progress and starts without a chunk
  have hreturns : Returns (openIn cwd there codec dataDir m)
      (fun s after => Holds cwd codec dataDir m cs s ∅ after) d.files :=
    returns_openIn hverify (.inl ⟨hnew, rfl⟩)
      (fun index hindex => absurd hindex (Finset.notMem_empty index))
      (fun c _ hindex => absurd hindex (Finset.notMem_empty c.index))
  obtain ⟨s, d₀, hopen, hsound₀, hholds₀⟩ := hreturns d hsound rfl
  refine ⟨s, d₀, hopen, ?_⟩
  intro calls hfree f
  -- the invariant of the calls: progress, chunk files and download say the same
  have hagrees : f.Agrees cwd codec dataDir m cs :=
    Fetch.Agrees.foldl ⟨hsound₀, hholds₀⟩ hcut hverify hprogress hfree
      (fun c hc => .inl ⟨c, hc, rfl⟩) fun c hc => .inr ⟨c, hc, rfl⟩
  have hmanifest : f.download.progress.manifest = m := by rw [hagrees.holds.progress]
  have haccepts : ∀ c, f.download.checkChunk c = .ok () →
      ∃ complete, (f.download.accept cwd codec c f.disk).1 = .ok complete := by
    intro c hcheck
    obtain ⟨d', haccept, _⟩ :=
      @accept_of_ok cwd codec dataDir m cs f.download ∅ _ _ _ hcut c hcheck f.disk hagrees.sound
        hagrees.holds.root
    rw [haccept]
    exact ⟨_, rfl⟩
  refine ⟨?_, isComplete_iff hcut hagrees.holds, ?_, ?_, ?_, ?_⟩
  · rw [missing, hagrees.holds.progress]
    rfl
  · intro there'
    obtain ⟨s', d', hagain, _⟩ := hagrees.reopen hverify hcut.count hprogress there'
    exact ⟨s', d', hagain⟩
  · intro c hc
    exact haccepts c ((checkChunk_iff hcut hmanifest hfree (fun c hc => .inl ⟨c, hc, rfl⟩)
      (.inl ⟨c, hc, rfl⟩)).mpr hc)
  · -- a chunk that passes its check is written, so only the check can refuse it
    intro c e herror
    cases hcheck : f.download.checkChunk c with
    | error e' => rw [accept_of_error hcheck]
    | ok u =>
      obtain ⟨complete, hok⟩ := haccepts c hcheck
      rw [hok] at herror
      cases herror
  · intro hcomplete
    obtain ⟨result, d', hfinish, _, rfl⟩ :=
      returns_finish hcut hmemory hzstd hjson hagrees.holds hcomplete f.disk hagrees.sound rfl
    exact ⟨d', hfinish⟩

/-! ## A small snapshot -/

namespace SmallSnapshot

open SnapshotDownload

def blockHash : String := hexEncode (List.replicate 32 0)

def balances : Balances := HashMap.ofList [("alice", 10)]

/-- One account, and a state hash that may be made up. -/
def snapshot (root : String) : StateSnapshot :=
  { chainId := 21004
    height := 7
    blockHash
    stateHash := root
    balances
    nextNonces := ∅
    executedEvents := ∅ }

/-- What comes before, between and after the hashes in the text of the snapshot. -/
def front : String := "\x7b\"chain_id\":21004,\"height\":7,\"block_hash\":\""

def middle : String := "\",\"state_hash\":\""

def back : String :=
  "\",\"balances\":\x7b\"alice\":10\x7d,\"next_nonces\":\x7b\x7d,\"executed_events\":[]\x7d"

def snapshotText (root : String) : String := front ++ blockHash ++ middle ++ root ++ back

/-- A `zstd` frame that holds the bytes in one raw block. -/
def frame (bytes : Bytes) : Bytes :=
  [0x28, 0xB5, 0x2F, 0xFD, 0x00, 0x58] ++ (beBytes 3 (8 * bytes.length + 1)).reverse ++ bytes

def compressed (root : String) : Bytes := frame (textBytes (snapshotText root))

def manifestText (m : SnapshotManifest) : String :=
  "\x7b\n  \"manifest\": \x7b\n    \"snapshot_id\": \"" ++ m.snapshotId ++
    "\",\n    \"tip\": \x7b\n      \"height\": " ++ toString m.tip.height ++
    ",\n      \"block_hash\": \"" ++ m.tip.blockHash ++ "\",\n      \"state_root\": \"" ++
    m.tip.stateRoot ++ "\"\n    \x7d,\n    \"chunk_count\": " ++ toString m.chunkCount ++
    ",\n    \"compressed_bytes\": " ++ toString m.compressedBytes ++
    ",\n    \"chunk_hashes\": [\n" ++
    ",\n".intercalate (m.chunkHashes.map fun value => "      \"" ++ value ++ "\"") ++
    "\n    ]\n  \x7d,\n"

def receivedText (received : Finset UInt32) : String :=
  "  \"received\": [" ++ (if received = ∅ then "" else "\n" ++ ",\n".intercalate
    ((sortedList (received.image UInt32.toNat)).map fun index => "    " ++ toString index) ++
    "\n  ") ++ "]\n\x7d"

section
attribute [local instance] Devnet.primitives

def chunk (root : String) : SnapshotChunk := ⟨sha256Hex (compressed root), 0, compressed root⟩

/-- The manifest of the snapshot in some parts. -/
def manifestOf (root : String) (parts : List Bytes) : SnapshotManifest :=
  { snapshotId := sha256Hex (compressed root)
    tip := ⟨7, blockHash, root⟩
    chunkCount := UInt32.ofNat parts.length
    compressedBytes := UInt64.ofNat (compressed root).length
    chunkHashes := parts.map sha256Hex }

def chunksIn (root : String) (parts : List Bytes) : List SnapshotChunk :=
  parts.mapIdx fun index bytes => ⟨sha256Hex (compressed root), UInt32.ofNat index, bytes⟩

/-- The encodings of the snapshot and of its progress, among some that may be stored. -/
def codecOf (root : String) (m : SnapshotManifest) (progresses : List (Finset UInt32)) :
    SnapshotCodec :=
  { progressJson := fun p => textBytes (manifestText p.manifest ++ receivedText p.received)
    parseProgress := fun bytes =>
      (progresses.find? fun received =>
        decide (textBytes (manifestText m ++ receivedText received) = bytes)).map
          fun received => ⟨m, received⟩
    snapshotJson := fun s => textBytes (snapshotText s.stateHash)
    parseSnapshot := fun bytes =>
      if bytes = textBytes (snapshotText root) then .ok (snapshot root)
      else .error "expected value at line 1 column 1"
    compress := frame
    decompress := fun bytes =>
      if bytes = frame (bytes.drop 9) then .ok (bytes.drop 9)
      else .error "Unknown frame descriptor" }

/-- The snapshot in one chunk. -/
def manifest (root : String) : SnapshotManifest := manifestOf root [compressed root]

def codec (root : String) : SnapshotCodec := codecOf root (manifest root) [∅, {0}]

lemma length_frame (bytes : Bytes) : (frame bytes).length = 9 + bytes.length := by
  rw [frame, List.length_append, List.length_append, List.length_reverse, length_beBytes]
  rfl

lemma drop_frame (bytes : Bytes) : (frame bytes).drop 9 = bytes := by
  apply List.drop_left'
  rw [List.length_append, List.length_reverse, length_beBytes]
  rfl

variable {root : String}

lemma length_compressed (root : String) : (compressed root).length = 196 + textLen root := by
  have hhash : (textBytes blockHash).length = 64 := by
    rw [← textLen, blockHash, textLen_hexEncode, List.length_replicate]
  have hfront : (textBytes front).length = 43 := by
    decide
  have hmiddle : (textBytes middle).length = 16 := by
    decide
  have hback : (textBytes back).length = 64 := by
    decide
  rw [compressed, length_frame, snapshotText, textBytes_append, textBytes_append, textBytes_append,
    textBytes_append, List.length_append, List.length_append, List.length_append,
    List.length_append, hfront, hhash, hmiddle, hback, ← textLen]
  omega

variable {m : SnapshotManifest} {progresses : List (Finset UInt32)} {parts : List Bytes}

lemma compress_snapshotJson :
    (codecOf root m progresses).compress ((codecOf root m progresses).snapshotJson
      (snapshot root)) = compressed root := by
  rw [codecOf, compressed, snapshot]

lemma decompress_compressed :
    (codecOf root m progresses).decompress ((codecOf root m progresses).compress
      ((codecOf root m progresses).snapshotJson (snapshot root))) =
      .ok ((codecOf root m progresses).snapshotJson (snapshot root)) := by
  simp only [codecOf, drop_frame, if_true]

lemma parse_snapshotJson :
    (codecOf root m progresses).parseSnapshot ((codecOf root m progresses).snapshotJson
      (snapshot root)) = .ok (snapshot root) := by
  simp only [codecOf, snapshot, if_true]

/-- The manifest and the chunks of the parts that the snapshot is cut into. -/
lemma build_parts {size : ℕ} (hsize : size ≠ 0) (hparts : chunksOf size (compressed root) = parts) :
    SnapshotManifest.build (codecOf root m progresses) (snapshot root) size =
      .ok (manifestOf root parts, chunksIn root parts) := by
  have hbytes : (chunksIn root parts).map SnapshotChunk.bytes = parts := map_bytes _ _
  have hlength : (chunksIn root parts).length = parts.length := List.length_mapIdx
  simp only [SnapshotManifest.build, bind_eq_ok, ensure_eq_ok, compress_snapshotJson, hparts,
    pure_eq_ok]
  refine ⟨(), hsize, Prod.ext ?_ rfl⟩
  show SnapshotManifest.mk _ _ (UInt32.ofNat (chunksIn root parts).length) _
    ((chunksIn root parts).map (sha256Hex ∘ SnapshotChunk.bytes)) = _
  rw [hlength, ← List.map_map, hbytes]
  rfl

lemma build (hroot : textLen root ≤ 64) :
    SnapshotManifest.build (codec root) (snapshot root) 524288 =
      .ok (manifest root, [chunk root]) := by
  refine build_parts (by decide) ?_
  have hne : ¬ (524288 = 0 ∨ compressed root = []) := by
    rw [not_or]
    exact ⟨by decide, List.cons_ne_nil _ _⟩
  have hlength : (compressed root).length ≤ 524288 := by
    rw [length_compressed]
    omega
  rw [chunksOf, if_neg hne, List.take_of_length_le hlength, List.drop_eq_nil_of_le hlength,
    chunksOf, if_pos (.inr rfl)]

/-- The progress is read again where no two that may be stored have the same text. -/
lemma progressReadable_of
    (hall : ∀ received : Finset UInt32, (∀ index ∈ received, index.toNat < m.chunkCount.toNat) →
      received ∈ progresses)
    (htexts : (progresses.map receivedText).Nodup) :
    ProgressReadable (codecOf root m progresses) m := by
  intro received hreceived
  have hmem := hall received hreceived
  simp only [codecOf]
  cases hfound : progresses.find? fun other => decide
      (textBytes (manifestText m ++ receivedText other) =
        textBytes (manifestText m ++ receivedText received)) with
  | none => exact absurd (decide_eq_true rfl) (List.find?_eq_none.mp hfound received hmem)
  | some other =>
    have hsame := List.find?_some hfound
    rw [decide_eq_true_eq, textBytes_inj, String.append_right_inj] at hsame
    rw [List.inj_on_of_nodup_map htexts (List.mem_of_find?_eq_some hfound) hmem hsame]
    rfl

def disk : Disk Place := ⟨∅, fun _ => none, 0, []⟩

def dataDir : Path := ⟨false, ["data"]⟩

lemma length_small (hroot : textLen root ≤ 64) :
    ((codecOf root m progresses).compress ((codecOf root m progresses).snapshotJson
      (snapshot root))).length < 2 ^ 63 := by
  rw [compress_snapshotJson, length_compressed]
  omega

lemma compress_ne_nil :
    (codecOf root m progresses).compress ((codecOf root m progresses).snapshotJson
      (snapshot root)) ≠ [] := by
  rw [compress_snapshotJson]
  exact List.cons_ne_nil _ _

/-! ### In three chunks -/

/-- The compressed bytes in parts of 100 bytes, of which the last has one. -/
def threeParts : List Bytes :=
  [(compressed "state").take 100, ((compressed "state").drop 100).take 100,
    (compressed "state").drop 200]

lemma chunksOf_three : chunksOf 100 (compressed "state") = threeParts := by
  have hlength : (compressed "state").length = 201 := length_compressed "state"
  have hnext : ∀ n < 201, ¬ (100 = 0 ∨ (compressed "state").drop n = []) := by
    intro n hn
    rw [not_or, List.drop_eq_nil_iff, hlength]
    exact ⟨by decide, by omega⟩
  have hlast : ((compressed "state").drop 200).length = 1 := by
    rw [List.length_drop, hlength]
  have hfirst : ¬ (100 = 0 ∨ compressed "state" = []) := hnext 0 (by decide)
  rw [chunksOf, if_neg hfirst, chunksOf, if_neg (hnext 100 (by decide)),
    List.drop_drop, chunksOf, if_neg (hnext 200 (by decide)),
    List.take_of_length_le (hlast.le.trans (by decide)),
    List.drop_eq_nil_of_le (hlast.le.trans (by decide)), chunksOf, if_pos (.inr rfl)]
  rfl

/-- What may be stored of the progress. -/
def threeProgresses : List (Finset UInt32) :=
  [∅, {0}, {1}, {2}, {0, 1}, {0, 2}, {1, 2}, {0, 1, 2}]

def threeManifest : SnapshotManifest := manifestOf "state" threeParts

def threeCodec : SnapshotCodec := codecOf "state" threeManifest threeProgresses

def firstChunk : SnapshotChunk :=
  ⟨sha256Hex (compressed "state"), 0, (compressed "state").take 100⟩

def secondChunk : SnapshotChunk :=
  ⟨sha256Hex (compressed "state"), 1, ((compressed "state").drop 100).take 100⟩

def thirdChunk : SnapshotChunk :=
  ⟨sha256Hex (compressed "state"), 2, (compressed "state").drop 200⟩

def threeChunks : List SnapshotChunk := [firstChunk, secondChunk, thirdChunk]

/-- A chunk that is not of the snapshot, under the index of one. -/
def foreignChunk : SnapshotChunk := ⟨sha256Hex (compressed "state"), 1, [0]⟩

lemma progressReadable_three : ProgressReadable threeCodec threeManifest := by
  refine progressReadable_of (fun received hreceived => ?_) (by decide +kernel)
  have hpowerset : ({0, 1, 2} : Finset UInt32).powerset ⊆ threeProgresses.toFinset := by
    decide +kernel
  refine List.mem_toFinset.mp (hpowerset (Finset.mem_powerset.mpr fun index hindex => ?_))
  have hlt : index.toNat < 3 := hreceived index hindex
  simp only [Finset.mem_insert, Finset.mem_singleton, ← UInt32.toNat_inj]
  show index.toNat = 0 ∨ index.toNat = 1 ∨ index.toNat = 2
  omega

/-- What the chunks and the foreign one hash to. -/
lemma hashes_differ :
    ((threeChunks ++ [foreignChunk]).map fun c => Sha256.hash c.bytes).Nodup := by
  decide +kernel

/-- Runs that are offered these chunks meet no collision. -/
lemma collisionFree {calls : List FetchCall}
    (h : ∀ c, .accept c ∈ calls → c ∈ threeChunks ++ [foreignChunk]) :
    CollisionFree fun bytes => (∃ c ∈ threeChunks, c.bytes = bytes) ∨
      ∃ c, FetchCall.accept c ∈ calls ∧ c.bytes = bytes := by
  have hall : ∀ bytes, ((∃ c ∈ threeChunks, c.bytes = bytes) ∨
      ∃ c, FetchCall.accept c ∈ calls ∧ c.bytes = bytes) →
        ∃ c ∈ threeChunks ++ [foreignChunk], c.bytes = bytes := by
    rintro bytes (⟨c, hc, rfl⟩ | ⟨c, hc, rfl⟩)
    · exact ⟨c, List.mem_append_left _ hc, rfl⟩
    · exact ⟨c, h c hc, rfl⟩
  intro x y hx hy hsame
  obtain ⟨c, hc, rfl⟩ := hall x hx
  obtain ⟨c', hc', rfl⟩ := hall y hy
  rw [List.inj_on_of_nodup_map hashes_differ hc hc' (congrArg Subtype.val hsame)]

end

end SmallSnapshot

section
attribute [local instance] Devnet.primitives
open SnapshotDownload SmallSnapshot

/-- The third chunk, a foreign one, the first chunk with a new start between it and its repetition,
and the second. -/
def threeCalls : List FetchCall :=
  [.accept thirdChunk, .accept foreignChunk, .accept firstChunk, .reopen [["data", "sync"]],
    .accept firstChunk, .accept secondChunk]

lemma offered_threeCalls : ∀ c, .accept c ∈ threeCalls → c ∈ threeChunks ++ [foreignChunk] := by
  intro c hc
  simp only [threeCalls, List.mem_cons, FetchCall.accept.injEq, List.not_mem_nil, or_false,
    reduceCtorEq, false_or] at hc
  simp only [threeChunks, List.mem_append, List.mem_cons, List.not_mem_nil, or_false]
  rcases hc with hc | hc | hc | hc | hc
  · exact .inl (.inr (.inr hc))
  · exact .inr hc
  · exact .inl (.inl hc)
  · exact .inl (.inl hc)
  · exact .inl (.inr (.inl hc))

/-- Three chunks, of which the last comes first and the first one twice, with a foreign chunk and a
new start in between. -/
theorem download_reassembles_three :
    ∃ s d₀, openIn [] [] threeCodec dataDir threeManifest disk = (.ok s, d₀) ∧
      let f := threeCalls.foldl (Fetch.step [] threeCodec dataDir threeManifest) ⟨s, d₀, ∅⟩
      f.download.missing = [] ∧
        ∃ d', f.download.finish [] threeCodec f.disk = (.ok (snapshot "state"), d') := by
  have hroot : textLen "state" ≤ 64 := by decide
  have hcount : threeChunks.length < 2 ^ 32 := by
    show 3 < 2 ^ 32
    norm_num
  obtain ⟨-, s, d₀, hopen, hrun⟩ := download_reassembles [] threeCodec dataDir
    (snapshot "state") 100 threeManifest threeChunks (build_parts (by decide) chunksOf_three)
    hcount (length_small hroot) compress_ne_nil decompress_compressed parse_snapshotJson
    progressReadable_three disk (fun _ _ => rfl) rfl []
  refine ⟨s, d₀, hopen, ?_⟩
  have hafter := hrun threeCalls (collisionFree offered_threeCalls)
  generalize hfinal : threeCalls.foldl (Fetch.step [] threeCodec dataDir threeManifest)
    ⟨s, d₀, ∅⟩ = f at hafter ⊢
  have haccepted : ∀ c ∈ threeChunks, .accept c ∈ threeCalls → c.index ∈ f.accepted := by
    intro c hc hcall
    refine mem_accepted_of_offered offered_threeCalls (fun before hbefore => ?_) hcall hfinal
    obtain ⟨-, -, -, hgenuine, -⟩ := hrun before (collisionFree hbefore)
    exact hgenuine c hc
  obtain ⟨hmissing, hcomplete, -, -, -, hfinish⟩ := hafter
  have hnone : f.download.missing = [] := by
    rw [hmissing, List.filter_eq_nil_iff]
    intro index hindex
    have hlt : index.toNat < 3 := mem_indices.mp hindex
    have hcases : index = firstChunk.index ∨ index = secondChunk.index ∨
        index = thirdChunk.index := by
      simp only [← UInt32.toNat_inj]
      show index.toNat = 0 ∨ index.toNat = 1 ∨ index.toNat = 2
      omega
    rw [decide_eq_true_eq, not_not]
    rcases hcases with rfl | rfl | rfl
    · exact haccepted firstChunk (by simp [threeChunks]) (by simp [threeCalls])
    · exact haccepted secondChunk (by simp [threeChunks]) (by simp [threeCalls])
    · exact haccepted thirdChunk (by simp [threeChunks]) (by simp [threeCalls])
  exact ⟨hnone, hfinish (hcomplete.mpr hnone)⟩

end

end IeumChain
