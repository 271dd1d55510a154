import IeumChain.SnapshotSync

/-!
# Where the files of a download are

The id of a snapshot is the name of its directory, and it comes from another node. The check of a
manifest counts its bytes and does not look at them, so it may be a path that leads elsewhere, or
one that makes other directories on its way (`files_below_iff`).
-/

namespace IeumChain

open Lib Lib.Disk

/-! ## Names -/

lemma isName_of_length {s : String} (h : 3 ≤ s.length) : Path.IsName s := by
  have hlength : ∀ t : String, t.length < 3 → s ≠ t := by
    rintro t ht rfl
    omega
  exact ⟨hlength "" (by decide), hlength "." (by decide), hlength ".." (by decide)⟩

lemma isName_append {s t : String} (h : 3 ≤ t.length) : Path.IsName (s ++ t) := by
  apply isName_of_length
  rw [String.length_append]
  omega

lemma resolve_child {name : String} (h : Path.IsName name) (p : Path) (cwd : Place) :
    (child p name).resolve cwd = p.resolve cwd ++ [name] := by
  rw [child, Path.resolve_join, Path.resolve_name h]

/-- Both files of an atomic write are in one directory. -/
lemma uses_atomicWrite {Q : Place → Prop} {cwd : Place} {p : Path} {name : String}
    (hname : Path.IsName name) (h : ∀ other, Q (p.resolve cwd ++ [other])) (bytes : Bytes) :
    Uses Q (atomicWrite cwd (child p name) bytes) := by
  have htemporary : Path.IsName (Path.fileStem name ++ "." ++ "tmp") := isName_append (by decide)
  have hplace : ((child p name).withExtension "tmp").resolve cwd =
      p.resolve cwd ++ [Path.fileStem name ++ "." ++ "tmp"] := by
    rw [child, Path.withExtension_join]
    exact resolve_child htemporary p cwd
  rw [atomicWrite, hplace, resolve_child hname]
  exact Uses.bind (Uses.write (h _) bytes) fun _ => Uses.rename (h _) (h _)

lemma SnapshotManifest.verify_eq_ok {m : SnapshotManifest} :
    m.verify = .ok () ↔ m.chunkCount ≠ 0 ∧ m.chunkCount.toNat = m.chunkHashes.length ∧
      textLen m.snapshotId = 64 ∧ ∀ value ∈ m.chunkHashes, textLen value = 64 := by
  simp only [verify, bind_eq_ok, ensure_eq_ok]
  constructor
  · rintro ⟨_, ⟨hcount, hhashes⟩, hid, hlengths⟩
    exact ⟨hcount, hhashes, hid, hlengths⟩
  · rintro ⟨hcount, hhashes, hid, hlengths⟩
    exact ⟨(), ⟨hcount, hhashes⟩, hid, hlengths⟩

namespace SnapshotDownload
variable {cwd : Place} {there : List Place} {codec : SnapshotCodec} {Q : Place → Prop}

lemma uses_persistProgress {s : SnapshotDownload} (h : ∀ name, Q (s.root.resolve cwd ++ [name])) :
    Uses Q (s.persistProgress cwd codec) :=
  uses_atomicWrite (by decide) h _

lemma resolve_chunks (s : SnapshotDownload) :
    (child s.root "chunks").resolve cwd = s.root.resolve cwd ++ ["chunks"] :=
  resolve_child (by decide) _ _

lemma isName_chunk (index : UInt32) :
    Path.IsName (zeroPadded 8 (index.toNat : ℤ) ++ ".chunk") := isName_append (by decide)

/-! ## The calls -/

section Calls

/-- The directory of the snapshots. -/
def syncPlace (cwd : Place) (dataDir : Path) : Place := (child dataDir "sync").resolve cwd

/-- The directory of one snapshot. -/
def rootPath (dataDir : Path) (manifest : SnapshotManifest) : Path :=
  (child dataDir "sync").join (Path.ofText manifest.snapshotId)

/-- The root of a download is where its manifest says, and the calls leave it there. -/
lemma root_of_openIn {dataDir : Path} {manifest : SnapshotManifest} {s : SnapshotDownload}
    {d d' : Disk Place} (h : openIn cwd there codec dataDir manifest d = (.ok s, d')) :
    s.root = rootPath dataDir manifest := by
  simp only [openIn, bind_eq, lift_eq, pure_eq] at h
  obtain ⟨_, _, _, _, _, _, _, _, _, _, _, _, _, _, _, rfl, _⟩ := h
  rfl

/-- What is made for the files of a download: directories on the way, and one of its own. -/
lemma mem_missing_chunks {p : Path} {place : Place} :
    place ∈ (child p "chunks").missing cwd there ↔
      (place ∈ p.passed cwd ∨ place = p.resolve cwd ++ ["chunks"]) ∧
        ¬ Path.IsThere (cwd :: there) place := by
  rw [Path.mem_missing, child, Path.passed_join_name (by decide), List.mem_append,
    List.mem_singleton]

lemma uses_openIn {dataDir : Path} {manifest : SnapshotManifest}
    (hmade : ∀ place ∈ (child (rootPath dataDir manifest) "chunks").missing cwd there, Q place)
    (h : ∀ names, names ≠ [] → Q ((rootPath dataDir manifest).resolve cwd ++ names)) :
    Uses Q (openIn cwd there codec dataDir manifest) := by
  have hresume : (child (rootPath dataDir manifest) "resume.json").resolve cwd =
      (rootPath dataDir manifest).resolve cwd ++ ["resume.json"] := resolve_child (by decide) _ _
  have hone : ∀ name, Q ((rootPath dataDir manifest).resolve cwd ++ [name]) :=
    fun name => h [name] (List.cons_ne_nil _ _)
  apply Uses.bind (Uses.lift _)
  intro _
  apply Uses.bind (Uses.createDirs hmade)
  intro _
  apply Uses.bind (Uses.read (hresume ▸ hone "resume.json"))
  intro stored
  apply Uses.bind (Uses.lift _)
  intro progress
  exact Uses.bind (uses_persistProgress hone) fun _ => Uses.pure _

lemma uses_readChunks {s : SnapshotDownload}
    (h : ∀ names, names ≠ [] → Q (s.root.resolve cwd ++ names)) (indices : List UInt32) :
    ∀ compressed, Uses Q (readChunks cwd s indices compressed) := by
  induction indices with
  | nil => exact fun compressed => Uses.pure compressed
  | cons index indices ih =>
    intro compressed
    have hread : Q ((s.chunkPath index).resolve cwd) := by
      rw [chunkPath, resolve_child (isName_chunk index), resolve_chunks, List.append_assoc]
      exact h _ (by simp)
    apply Uses.bind (Uses.read hread)
    intro stored
    exact Uses.bind (Uses.lift _) fun bytes => ih _

variable [Primitives]

lemma root_accept (s : SnapshotDownload) (chunk : SnapshotChunk) (d : Disk Place) :
    (s.accept cwd codec chunk d).2.1.root = s.root := by
  unfold accept
  split
  · rfl
  split
  · rfl
  dsimp only
  split <;> rfl

/-- What a call of `accept` uses. -/
lemma used_accept {s : SnapshotDownload}
    (h : ∀ names, names ≠ [] → Q (s.root.resolve cwd ++ names)) (chunk : SnapshotChunk)
    (d : Disk Place) : ∃ places, (s.accept cwd codec chunk d).2.2.used = d.used ++ places ∧
      ∀ p ∈ places, Q p := by
  have hwrite : Uses Q (atomicWrite cwd (s.chunkPath chunk.index) chunk.bytes) := by
    apply uses_atomicWrite (isName_chunk chunk.index)
    intro other
    rw [resolve_chunks, List.append_assoc]
    exact h _ (by simp)
  have hpersist : Uses Q ((s.received chunk.index).persistProgress cwd codec) :=
    uses_persistProgress fun name => h [name] (List.cons_ne_nil _ _)
  unfold accept
  split
  · exact ⟨[], (List.append_nil _).symm, by simp⟩
  obtain ⟨places, hused, hplaces⟩ := hwrite d
  split
  · rename_i hresult
    rw [hresult] at hused
    exact ⟨places, hused, hplaces⟩
  · rename_i d₁ hresult
    rw [hresult] at hused
    obtain ⟨more, hmore, hall⟩ := hpersist d₁
    refine ⟨places ++ more, ?_, fun p hp => (List.mem_append.mp hp).elim (hplaces p) (hall p)⟩
    rw [← List.append_assoc, ← hused]
    dsimp only
    split
    · rename_i hwritten
      rw [hwritten] at hmore
      exact hmore
    · rename_i hwritten
      rw [hwritten] at hmore
      exact hmore

lemma uses_finish {s : SnapshotDownload}
    (h : ∀ names, names ≠ [] → Q (s.root.resolve cwd ++ names)) :
    Uses Q (s.finish cwd codec) := by
  apply Uses.bind (Uses.lift _)
  intro _
  apply Uses.bind (Uses.lift _)
  intro _
  exact Uses.bind (uses_readChunks h _ _) fun _ => Uses.lift _

/-! ## Sessions -/

/-- A call on an open download. -/
inductive Call where
  | accept (chunk : SnapshotChunk)
  | finish

/-- The disk before a call, with nothing used yet. -/
def unused (d : Disk Place) : Disk Place := { d with used := [] }

/-- The places that calls on a download use. Every call finds a disk of its own, since other
programs and failures may have changed it, and `finish` takes the download away. -/
def usedBy (cwd : Place) (codec : SnapshotCodec) :
    SnapshotDownload → List (Call × Disk Place) → List Place
  | _, [] => []
  | s, (.accept chunk, d) :: calls =>
    (s.accept cwd codec chunk (unused d)).2.2.used ++
      usedBy cwd codec (s.accept cwd codec chunk (unused d)).2.1 calls
  | s, (.finish, d) :: _ => (s.finish cwd codec (unused d)).2.used

/-- The places that `open` and the calls after it use. -/
def session (cwd : Place) (there : List Place) (codec : SnapshotCodec) (dataDir : Path)
    (manifest : SnapshotManifest) (d : Disk Place) (calls : List (Call × Disk Place)) :
    List Place :=
  match openIn cwd there codec dataDir manifest (unused d) with
  | (.ok s, d') => d'.used ++ usedBy cwd codec s calls
  | (.error _, d') => d'.used

omit [Primitives] in
lemma forall_used {α : Type} {x : DiskM Place α} (h : Uses Q x) (d : Disk Place) :
    ∀ p ∈ (x (unused d)).2.used, Q p := by
  obtain ⟨places, hused, hplaces⟩ := h (unused d)
  rw [hused]
  exact hplaces

lemma forall_usedBy (calls : List (Call × Disk Place)) :
    ∀ s : SnapshotDownload, (∀ names, names ≠ [] → Q (s.root.resolve cwd ++ names)) →
      ∀ p ∈ usedBy cwd codec s calls, Q p := by
  induction calls with
  | nil => exact fun s h p hp => absurd hp List.not_mem_nil
  | cons call calls ih =>
    intro s h p hp
    match call with
    | (.finish, d) => exact forall_used (uses_finish h) d p hp
    | (.accept chunk, d) =>
      obtain ⟨places, hused, hplaces⟩ := @used_accept cwd codec Q _ s h chunk (unused d)
      rcases List.mem_append.mp hp with hp | hp
      · rw [hused] at hp
        exact hplaces p hp
      · apply ih _ _ p hp
        rw [root_accept]
        exact h

/-- Every place of a session is a directory on the way, or below the one of the snapshot. -/
theorem forall_session {dataDir : Path} {manifest : SnapshotManifest}
    (hmade : ∀ place ∈ (child (rootPath dataDir manifest) "chunks").missing cwd there, Q place)
    (h : ∀ names, names ≠ [] → Q ((rootPath dataDir manifest).resolve cwd ++ names))
    (d : Disk Place) (calls : List (Call × Disk Place)) :
    ∀ p ∈ session cwd there codec dataDir manifest d calls, Q p := by
  have huses : Uses Q (openIn cwd there codec dataDir manifest) := uses_openIn hmade h
  have hopen := forall_used huses d
  unfold session
  split
  · rename_i s d' hresult
    rw [hresult] at hopen
    intro p hp
    rcases List.mem_append.mp hp with hp | hp
    · exact hopen p hp
    · apply forall_usedBy calls s _ p hp
      rw [root_of_openIn hresult]
      exact h
  · rename_i hresult
    rw [hresult] at hopen
    exact hopen

omit [Primitives] in
/-- The root of a download is where the id leads to from the directory of the snapshots. -/
lemma resolve_rootPath (dataDir : Path) (manifest : SnapshotManifest) :
    (rootPath dataDir manifest).resolve cwd =
      (Path.ofText manifest.snapshotId).resolve (syncPlace cwd dataDir) := by
  rw [rootPath, Path.resolve_join, syncPlace]

/-- A place that `open` uses is one of the session. -/
lemma mem_session_of_openIn {dataDir : Path} {manifest : SnapshotManifest} {d : Disk Place}
    {place : Place} (h : place ∈ (openIn cwd there codec dataDir manifest (unused d)).2.used)
    (calls : List (Call × Disk Place)) :
    place ∈ session cwd there codec dataDir manifest d calls := by
  unfold session
  split
  · rename_i hresult
    rw [hresult] at h
    exact List.mem_append_left _ h
  · rename_i hresult
    rw [hresult] at h
    exact h

/-- A session begins with the directories that are missing. -/
lemma mem_session_missing {dataDir : Path} {manifest : SnapshotManifest}
    (hverify : manifest.verify = .ok ()) {place : Place}
    (hplace : place ∈ (child (rootPath dataDir manifest) "chunks").missing cwd there)
    (d : Disk Place) (calls : List (Call × Disk Place)) :
    place ∈ session cwd there codec dataDir manifest d calls := by
  apply mem_session_of_openIn
  rw [openIn, hverify]
  apply mem_used_bind (mem_used_createDirs hplace _)
  intro _
  apply Uses.bind (Uses.read trivial)
  intro _
  apply Uses.bind (Uses.lift _)
  intro _
  exact Uses.bind (uses_persistProgress fun _ => trivial) fun _ => Uses.pure _

/-- Where nothing fails, the progress is looked for then. -/
lemma mem_session_resume {dataDir : Path} {manifest : SnapshotManifest}
    (hverify : manifest.verify = .ok ()) {d : Disk Place} (hd : Disk.Sound d)
    (calls : List (Call × Disk Place)) :
    (rootPath dataDir manifest).resolve cwd ++ ["resume.json"] ∈
      session cwd there codec dataDir manifest d calls := by
  have hplace : (child (rootPath dataDir manifest) "resume.json").resolve cwd =
      (rootPath dataDir manifest).resolve cwd ++ ["resume.json"] := resolve_child (by decide) _ _
  have hcreate : Returns (createDirs ((child (rootPath dataDir manifest) "chunks").missing cwd there))
      (fun _ _ => True) d.files := Returns.createDirs trivial
  obtain ⟨_, d', hmade, -⟩ := hcreate (unused d) hd rfl
  apply mem_session_of_openIn
  rw [openIn, hverify, ← hplace]
  apply mem_used_bind_of_ok hmade
  apply mem_used_bind (mem_used_read _ _)
  intro _
  apply Uses.bind (Uses.lift _)
  intro _
  exact Uses.bind (uses_persistProgress fun _ => trivial) fun _ => Uses.pure _

end Calls

end SnapshotDownload

/-! ## Hashes as ids -/

lemma isName_hexEncode {bs : Bytes} (h : 2 ≤ bs.length) : Path.IsName (hexEncode bs) := by
  have hlength : (hexEncode bs).length = 2 * bs.length := by
    have hpair : ∀ b, (hexPair b).length = 2 := fun _ => rfl
    rw [hexEncode, String.length_ofList, List.length_flatMap]
    simp only [hpair, List.map_const', List.sum_replicate, smul_eq_mul, Nat.mul_comm]
  exact isName_of_length (by omega)

lemma ofText_hexEncode (bs : Bytes) : Path.ofText (hexEncode bs) = ⟨false, [hexEncode bs]⟩ := by
  have hslash : ∀ n < 16, '/' ≠ hexDigit n := by decide
  apply Path.ofText_of_notMem
  intro hmem
  obtain ⟨n, hn, heq⟩ := mem_hexEncode hmem
  exact hslash n hn heq

/-- A hash leads into every directory. -/
lemma leadsInto_hexEncode {bs : Bytes} (h : 2 ≤ bs.length) (directory : Place) :
    (Path.ofText (hexEncode bs)).LeadsInto directory := by
  rw [ofText_hexEncode]
  apply Path.leadsInto_of_isName
  intro name hname
  rw [List.mem_singleton.mp hname]
  exact isName_hexEncode h

open SnapshotDownload in
/-- Under a hash, one directory is entered behind those on the way to all snapshots. -/
lemma passed_hexEncode {bs : Bytes} (h : 2 ≤ bs.length) (cwd : Place) (dataDir : Path)
    {manifest : SnapshotManifest} (hid : manifest.snapshotId = hexEncode bs) :
    (rootPath dataDir manifest).passed cwd =
      (child dataDir "sync").passed cwd ++ [syncPlace cwd dataDir ++ [hexEncode bs]] := by
  rw [rootPath, hid, ofText_hexEncode, Path.passed_join_name (isName_hexEncode h), syncPlace]

/-- An id that leaves the directory of the snapshots and comes back passes another name. -/
example :
    (Path.ofText "../x/../sync/a").LeadsInto ["var", "ieum", "sync"] ∧
    (Path.ofText "../x/../sync/a").missing ["var", "ieum", "sync"] [] =
      [["var", "ieum", "x"], ["var", "ieum", "sync", "a"]] := by
  decide

/-- A manifest with a hash as its id. -/
def hashManifest : SnapshotManifest :=
  { snapshotId := hexEncode (List.replicate 32 1)
    tip := ⟨7, "block", "state"⟩
    chunkCount := 1
    compressedBytes := 8
    chunkHashes := [hexEncode (List.replicate 32 2)] }

lemma verify_hashManifest : hashManifest.verify = .ok () := by
  refine SnapshotManifest.verify_eq_ok.mpr ⟨by decide, rfl, textLen_hexEncode _, ?_⟩
  intro value hvalue
  rw [List.mem_singleton.mp hvalue]
  exact textLen_hexEncode _

/-- The directory of the snapshots of `/var/ieum`. -/
def syncThere : List Place := [["var", "ieum", "sync"]]

/-- A manifest with an absolute path of 64 bytes as its id. -/
def strayManifest : SnapshotManifest :=
  { hashManifest with snapshotId := String.ofList ('/' :: List.replicate 63 'a') }

lemma verify_strayManifest : strayManifest.verify = .ok () := by
  have hlength : textLen strayManifest.snapshotId = 64 := by
    show textLen (String.ofList ('/' :: List.replicate 63 'a')) = 64
    rw [textLen, textBytes_ofList]
    rfl
  obtain ⟨hcount, hhashes, _, hlengths⟩ := SnapshotManifest.verify_eq_ok.mp verify_hashManifest
  exact SnapshotManifest.verify_eq_ok.mpr ⟨hcount, hhashes, hlength, hlengths⟩

lemma ofText_stray : Path.ofText strayManifest.snapshotId =
    ⟨true, ["", String.ofList (List.replicate 63 'a')]⟩ := by
  have hnone : '/' ∉ List.replicate 63 'a' := by
    intro hmem
    exact absurd (List.eq_of_mem_replicate hmem) (by decide)
  have hpath := Path.ofText_slash (List.replicate 63 'a')
  rw [List.splitOn_eq_singleton hnone] at hpath
  exact hpath

end IeumChain
