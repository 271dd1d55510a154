import IeumChain.ReassemblyTheorems
import IeumChain.SnapshotTheorems

/-!
# The state root of a finished download

`finish` compares the state hash that the snapshot states with the root of its manifest, and the id
of the manifest with the hash of the bytes. Nobody hashes the state: the chain that the snapshot
restores to has the agreed root exactly when the snapshot states the hash of its own state
(`finished_root_iff`).
-/

namespace IeumChain

open Lib Lib.Disk SnapshotDownload

section
variable [Primitives]

/-- The chain that `from_snapshot_with_events` builds of a snapshot. -/
def StateSnapshot.restore (s : StateSnapshot) (chainId : UInt64) (commitment : String) :
    Result Blockchain :=
  Blockchain.fromSnapshotWithEvents chainId commitment s.height s.blockHash s.balances s.nextNonces
    s.executedEvents

/-- The hash of a state. -/
def LedgerState.hash (state : LedgerState) : String :=
  (Blockchain.mk 0 "" [] ∅ state.balances state.nextNonces state.executedEvents).stateHash

/-- The snapshot states a block hash of 32 bytes and the hash of its own state. -/
def StateSnapshot.IsHonest (s : StateSnapshot) : Prop :=
  textLen (trimStart0x s.blockHash) = 64 ∧
    s.stateHash = LedgerState.hash ⟨s.balances, s.nextNonces, s.executedEvents⟩

/-- A restored chain has the hash of the state. -/
lemma StateSnapshot.restore_iff {s : StateSnapshot} (chainId : UInt64) (commitment root : String) :
    (∃ chain, s.restore chainId commitment = .ok chain ∧ chain.stateHash = root) ↔
      textLen (trimStart0x s.blockHash) = 64 ∧
        root = LedgerState.hash ⟨s.balances, s.nextNonces, s.executedEvents⟩ := by
  simp only [restore, Blockchain.fromSnapshotWithEvents, bind_eq_ok, ensure_eq_ok, pure_eq_ok]
  constructor
  · rintro ⟨chain, ⟨_, hlength, rfl⟩, hhash⟩
    exact ⟨hlength, hhash.symm⟩
  · rintro ⟨hlength, rfl⟩
    exact ⟨_, ⟨(), hlength, rfl⟩, rfl⟩

end

namespace SnapshotDownload
variable {cwd : Place} {codec : SnapshotCodec} {s : SnapshotDownload} {d d' : Disk Place}

/-- The files of the chunks, one behind the other. -/
def chunkBytes (cwd : Place) (s : SnapshotDownload) (files : HashMap Place Bytes) : Bytes :=
  ((indices s.progress.manifest).map fun index =>
    (files.lookup (chunkPlace (s.root.resolve cwd) index)).getD []).flatten

/-- What the loop over the files returns, whatever else fails. -/
lemma wp_readChunks {files : HashMap Place Bytes} : ∀ {indices : List UInt32} (front : Bytes),
    wp (readChunks cwd s indices front) (fun all _ => all = front ++ (indices.map fun index =>
      (files.lookup (chunkPlace (s.root.resolve cwd) index)).getD []).flatten)
      (fun _ => True) files := by
  intro indices
  induction indices with
  | nil => exact fun front => wp_pure (List.append_nil front).symm
  | cons index rest ih =>
    intro front
    refine wp_bind (wp_read trivial (wp_bind (wp_lift ?_ fun _ _ => trivial)))
    intro bytes hbytes
    rw [resolve_chunkPath, okOr_eq_ok] at hbytes
    refine wp_mono (ih (front ++ bytes)) ?_ fun _ _ => trivial
    intro all _ hall
    rw [hall, List.map_cons, List.flatten_cons, hbytes, Option.getD_some, List.append_assoc]

variable [Primitives]

/-- The snapshot that `finish` returns is encoded in the files, and states the agreed root. -/
lemma finish_eq_ok {snapshot : StateSnapshot} (h : s.finish cwd codec d = (.ok snapshot, d')) :
    ∃ plain, codec.decompress (chunkBytes cwd s d.files) = .ok plain ∧
      codec.parseSnapshot plain = .ok snapshot ∧
        snapshot.stateHash = s.progress.manifest.tip.stateRoot := by
  simp only [finish, bind_eq, lift_eq] at h
  obtain ⟨_, _, ⟨_, rfl⟩, _, _, ⟨_, rfl⟩, compressed, d₁, hread, hassemble, _⟩ := h
  have hbytes : compressed = chunkBytes cwd s d.files := by
    have hall := ((wp_readChunks []) d rfl).1 compressed (congrArg Prod.fst hread)
    rwa [List.nil_append] at hall
  simp only [assemble, bind_eq_ok, ensure_eq_ok, pure_eq_ok] at hassemble
  obtain ⟨_, _, _, _, plain, hplain, result, hresult, _, ⟨_, _, hroot⟩, rfl⟩ := hassemble
  exact ⟨plain, hbytes ▸ hplain, hresult, hroot⟩

end SnapshotDownload

/-- **The state root of a finished download.** Whatever chunks were accepted: when `finish` returns
a snapshot, the chain that is built from it has the state root of the manifest exactly when the
snapshot that the chunks encode states the hash of its own state. -/
theorem finished_root_iff [Primitives] (cwd : Place) (codec : SnapshotCodec) (s : SnapshotDownload)
    (d d' : Disk Place) (snapshot : StateSnapshot)
    (hfinish : s.finish cwd codec d = (.ok snapshot, d')) (chainId : UInt64) (commitment : String) :
    (∃ chain, snapshot.restore chainId commitment = .ok chain ∧
        chain.stateHash = s.progress.manifest.tip.stateRoot) ↔
      ∀ plain encoded, codec.decompress (chunkBytes cwd s d.files) = .ok plain →
        codec.parseSnapshot plain = .ok encoded → encoded.IsHonest := by
  obtain ⟨plain, hplain, hparse, hroot⟩ := finish_eq_ok hfinish
  rw [← hroot, StateSnapshot.restore_iff]
  constructor
  · intro hhonest plain' encoded hplain' hencoded
    obtain rfl : plain = plain' := Except.ok.inj (hplain.symm.trans hplain')
    obtain rfl : snapshot = encoded := Except.ok.inj (hparse.symm.trans hencoded)
    exact hhonest
  · exact fun h => h plain snapshot hplain hparse

/-! ## The small snapshot -/

section
attribute [local instance] Devnet.primitives
open SmallSnapshot

namespace SmallSnapshot

/-- A node fetches the small snapshot, whatever root it states. -/
lemma finish_small {root : String} (hroot : textLen root ≤ 64) :
    ∃ s d₀ s' d₁ d', openIn [] [] (codec root) dataDir (manifest root) disk = (.ok s, d₀) ∧
      s.accept [] (codec root) (chunk root) d₀ = (.ok true, s', d₁) ∧
      s'.progress.manifest = manifest root ∧
      s'.finish [] (codec root) d₁ = (.ok (snapshot root), d') := by
  have hcount : [chunk root].length < 2 ^ 32 := by
    rw [List.length_singleton]
    decide
  have hcut := isCut_build (build hroot) hcount (length_small hroot)
  have hverify := hcut.verify (List.cons_ne_nil _ _)
  have hopens : Returns (openIn [] [] (codec root) dataDir (manifest root)) (fun s after =>
      Holds [] (codec root) dataDir (manifest root) [chunk root] s ∅ after) disk.files :=
    returns_openIn hverify (.inl ⟨rfl, rfl⟩) (by simp) (by simp)
  obtain ⟨s, d₀, hopen, hsound₀, hholds₀⟩ := hopens disk (fun _ _ => rfl) rfl
  have hmanifest : s.progress.manifest = manifest root := by rw [hholds₀.progress]
  have hmem : chunk root ∈ [chunk root] := List.mem_singleton_self _
  have hfree : CollisionFree fun bytes => bytes = (chunk root).bytes :=
    fun x y hx hy _ => hx.trans hy.symm
  have hcheck : s.checkChunk (chunk root) = .ok () :=
    (checkChunk_iff hcut hmanifest hfree (fun c hc => by rw [List.mem_singleton.mp hc]) rfl).mpr hmem
  obtain ⟨d₁, haccept, hsound₁, hnew⟩ :=
    @accept_of_ok [] (codec root) dataDir _ _ s ∅ _ _ _ hcut _ hcheck d₀ hsound₀ hholds₀.root
  have hholds₁ := hnew hholds₀ hmem
  have hcomplete : (s.received (chunk root).index).isComplete = true := by
    rw [isComplete, hholds₁.progress]
    exact decide_eq_true rfl
  rw [hcomplete] at haccept
  obtain ⟨_, d', hfinish, _, rfl⟩ := returns_finish hcut (length_small hroot) decompress_compressed
    parse_snapshotJson hholds₁ hcomplete d₁ hsound₁ rfl
  exact ⟨s, d₀, _, d₁, d', hopen, haccept, by rw [hholds₁.progress], hfinish⟩

/-- The hash of the state of the small snapshot. -/
def stateRoot : String := LedgerState.hash ⟨balances, ∅, ∅⟩

lemma textLen_stateRoot : textLen stateRoot = 64 := textLen_sha256Hex _

lemma textLen_blockHash : textLen (trimStart0x blockHash) = 64 := by
  rw [blockHash, trimStart0x_hexEncode, textLen_hexEncode, List.length_replicate]

/-- The small snapshot that states the hash of its state. -/
lemma isHonest_stateRoot : (snapshot stateRoot).IsHonest := ⟨textLen_blockHash, rfl⟩

end SmallSnapshot

/-- With the hash of its state as the root, the small snapshot restores to a chain of this root. -/
theorem finished_root_own :
    ∃ (s : SnapshotDownload) (d d' : Disk Place),
      s.finish [] (codec stateRoot) d = (.ok (snapshot stateRoot), d') ∧
      ∃ chain, (snapshot stateRoot).restore 21004 "" = .ok chain ∧
        chain.stateHash = (manifest stateRoot).tip.stateRoot := by
  obtain ⟨s, d₀, s', d₁, d', _, _, hmanifest, hfinish⟩ :=
    finish_small textLen_stateRoot.le
  have hroot := (finished_root_iff [] (codec stateRoot) s' d₁ d' _ hfinish 21004 "").mpr
  rw [hmanifest] at hroot
  refine ⟨s', d₁, d', hfinish, hroot ?_⟩
  intro plain encoded hplain hencoded
  obtain ⟨plain', hplain', hparse, _⟩ := finish_eq_ok hfinish
  obtain rfl : plain' = plain := Except.ok.inj (hplain'.symm.trans hplain)
  obtain rfl : snapshot stateRoot = encoded := Except.ok.inj (hparse.symm.trans hencoded)
  exact isHonest_stateRoot

/-- With another root it restores to a chain of another state root: the manifest passes its check,
the chunk is accepted, and `finish` returns the snapshot. -/
theorem finished_root_other :
    (manifest "state").verify = .ok () ∧ ∃ s d₀ s' d₁ d',
      openIn [] [] (codec "state") dataDir (manifest "state") disk = (.ok s, d₀) ∧
      s.accept [] (codec "state") (chunk "state") d₀ = (.ok true, s', d₁) ∧
      s'.finish [] (codec "state") d₁ = (.ok (snapshot "state"), d') ∧
      ∃ chain, (snapshot "state").restore 21004 "" = .ok chain ∧
        chain.stateHash ≠ (manifest "state").tip.stateRoot := by
  have hlength : textLen "state" ≤ 64 := by decide
  have hcut := isCut_build (build hlength) (by decide) (length_small hlength)
  obtain ⟨s, d₀, s', d₁, d', hopen, haccept, _, hfinish⟩ := finish_small hlength
  obtain ⟨chain, hchain, hhash⟩ :=
    (@StateSnapshot.restore_iff _ (snapshot "state") 21004 "" stateRoot).mpr
      ⟨textLen_blockHash, rfl⟩
  refine ⟨hcut.verify (List.cons_ne_nil _ _), s, d₀, s', d₁, d', hopen, haccept, hfinish, chain,
    hchain, ?_⟩
  rw [hhash]
  intro heq
  have hlengths : textLen stateRoot = textLen "state" := congrArg textLen heq
  rw [textLen_stateRoot] at hlengths
  exact absurd hlengths (by decide)

end

end IeumChain
