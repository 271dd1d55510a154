import IeumChain.HistoryTheorems
import IeumChain.Installation

/-!
# Restarting from the archive alone

Without its state database a node starts from the latest checkpoint and the active blocks. Before
the first rollover there is no checkpoint, and the active blocks are left aside: the node is back
at its genesis (`archive_restart_iff`). Afterwards the checkpoint is that of the last rollover as
long as its name is the greatest.
-/

namespace IeumChain

open Lib Lib.Disk ArchiveStore

namespace RpcServer
section
variable [Primitives]

/-- `install_finalized` with a commit that succeeds. -/
def installCommitted (listing : Listing ArchivePlace) (codec : ArchiveCodec) (state : State)
    (after : Blockchain) (block : Block) : DiskM ArchivePlace State := fun d =>
  let answer := installFinalized listing codec .done state state.chain after block d
  (answer.1.1.map fun _ => answer.1.2, answer.2)

/-- A block is applied by the consensus and installed. -/
def install (listing : Listing ArchivePlace) (codec : ArchiveCodec) (state : State)
    (block : Block) : DiskM ArchivePlace State := do
  let after ← Disk.lift (state.chain.applyBlock block)
  installCommitted listing codec state after block

section
variable {listing : Listing ArchivePlace} {codec : ArchiveCodec} {state next : State}
  {block : Block} {d d' : Disk ArchivePlace}

lemma installCommitted_eq {after : Blockchain} :
    installCommitted listing codec state after block d = (.ok next, d') ↔
      appendFinalized listing codec state.archive block state.chain d = (.ok (), d') ∧
        state.installed after = next := by
  unfold installCommitted installFinalized
  cases happend : appendFinalized listing codec state.archive block state.chain d with
  | mk result d₁ =>
    cases result with
    | error e =>
      constructor
      · intro h
        cases (congrArg Prod.fst h : (Except.error e : Result State) = _)
      · rintro ⟨h, _⟩
        cases (congrArg Prod.fst h : (Except.error e : Result Unit) = _)
    | ok u =>
      constructor
      · intro h
        obtain ⟨hstate, rfl⟩ := Prod.mk.inj h
        exact ⟨rfl, Except.ok.inj hstate⟩
      · rintro ⟨h, rfl⟩
        obtain ⟨-, rfl⟩ := Prod.mk.inj h
        rfl

/-- A block that is installed is appended, and the state is committed. -/
lemma install_eq : install listing codec state block d = (.ok next, d') ↔
    ∃ after, archiveBlock listing codec state.archive state.chain block d = (.ok after, d') ∧
      state.installed after = next := by
  simp only [install, archiveBlock, bind_eq, lift_eq, pure_eq, installCommitted_eq]
  constructor
  · rintro ⟨after, _, ⟨happly, rfl⟩, happend, rfl⟩
    exact ⟨after, ⟨after, _, ⟨happly, rfl⟩, (), d', happend, rfl, rfl⟩, rfl⟩
  · rintro ⟨after, ⟨_, _, ⟨happly, rfl⟩, _, _, happend, rfl, rfl⟩, rfl⟩
    exact ⟨_, d, ⟨happly, rfl⟩, happend, rfl⟩

end

/-- A run of installations appends its blocks. -/
lemma foldlM_install {listing : Listing ArchivePlace} {codec : ArchiveCodec}
    {blocks : List Block} : ∀ {state after : State} {d d' : Disk ArchivePlace},
      blocks.foldlM (install listing codec) state d = (.ok after, d') →
        blocks.foldlM (archiveBlock listing codec state.archive) state.chain d =
          (.ok after.chain, d') := by
  induction blocks with
  | nil =>
    intro state after d d' h
    obtain ⟨rfl, rfl⟩ := pure_eq.mp h
    rfl
  | cons block blocks ih =>
    intro state after d d' h
    obtain ⟨next, d₁, hnext, hrest⟩ := bind_eq.mp h
    obtain ⟨chain, hchain, rfl⟩ := install_eq.mp hnext
    exact bind_eq.mpr ⟨chain, d₁, hchain, ih hrest⟩

/-! ## The start -/

/-- A node starts with the chain that is restored. -/
lemma new_eq {listing : Listing ArchivePlace} {codec : ArchiveCodec} {maxActiveBytes : UInt64}
    {first : Blockchain} {stored : Option CanonicalState} {state : State}
    {d d' : Disk ArchivePlace}
    (h : new listing codec maxActiveBytes first stored d = (.ok state, d')) :
    ∃ d₁, ArchiveStore.new maxActiveBytes d = (.ok state.archive, d₁) ∧
      restore listing codec first stored d₁ = (.ok state.chain, d') ∧ state.stored = stored := by
  simp only [new, bind_eq, pure_eq] at h
  obtain ⟨archive, d₁, harchive, chain, d₂, hrestore, rfl, rfl⟩ := h
  exact ⟨d₁, harchive, hrestore, rfl⟩

lemma returns_new_of_restore {listing : Listing ArchivePlace} {codec : ArchiveCodec}
    {maxActiveBytes : UInt64} {first : Blockchain} {files : HashMap ArchivePlace Bytes}
    {Q : Blockchain → HashMap ArchivePlace Bytes → Prop}
    (hmax : maxActiveBytes ≠ 0 ∧ maxActiveBytes ≤ 100000000)
    (h : Returns (restore listing codec first none) Q files) :
    Returns (RpcServer.new listing codec maxActiveBytes first none) (fun state after =>
      state.archive = ⟨maxActiveBytes⟩ ∧ Q state.chain after) files := by
  refine Returns.bind (Returns.mono (returns_new hmax) ?_)
  rintro store after ⟨rfl, hafter⟩
  rw [hafter]
  exact Returns.bind (Returns.mono h fun _ _ hQ => Returns.pure ⟨rfl, hQ⟩)

/-- On a new disk there is nothing to restore. -/
lemma wp_restore_empty {listing : Listing ArchivePlace} {codec : ArchiveCodec}
    {first : Blockchain} : wp (restore listing codec first none)
      (fun chain after => chain = first ∧ after = ∅) (fun _ => True) ∅ := by
  refine wp_bind (wp_lift (fun stored hstored => ?_) fun _ _ => trivial)
  obtain rfl : none = stored := Except.ok.inj hstored
  refine wp_bind (wp_mono (wp_loadLatestSnapshot_none trivial fun _ => Finmap.notMem_empty) ?_
    fun _ h => h)
  rintro _ after ⟨rfl, hafter⟩
  exact wp_pure ⟨rfl, hafter⟩

/-- The first start of a node. -/
lemma new_eq_of_empty {listing : Listing ArchivePlace} {codec : ArchiveCodec}
    {maxActiveBytes : UInt64} {first : Blockchain} {start : State} {d d' : Disk ArchivePlace}
    (hempty : d.files = ∅)
    (h : new listing codec maxActiveBytes first none d = (.ok start, d')) :
    (maxActiveBytes ≠ 0 ∧ maxActiveBytes ≤ 100000000) ∧ start.archive = ⟨maxActiveBytes⟩ ∧
      start.chain = first ∧ start.stored = none ∧ d'.files = ∅ := by
  obtain ⟨d₀, harchive, hrestore, hstored⟩ := new_eq h
  have hstore := (wp_new d hempty).1 _ (congrArg Prod.fst harchive)
  rw [harchive] at hstore
  obtain ⟨hstore, hmax, hfiles⟩ := hstore
  have hchain := (@wp_restore_empty _ listing codec first d₀ hfiles).1 _ (congrArg Prod.fst hrestore)
  rw [hrestore] at hchain
  exact ⟨hmax, hstore, hchain.1, hstored, hchain.2⟩

/-! ## From a checkpoint -/

/-- What a start makes of a snapshot and the active blocks. -/
def restoreFrom (first : Blockchain) (snapshot : StateSnapshot) (active : List Block) :
    Result Blockchain := do
  ensure (snapshot.chainId = first.chainId) "체크포인트 chain ID 불일치"
  let chain ← Blockchain.fromSnapshotWithEvents first.chainId first.genesisCommitment
    snapshot.height snapshot.blockHash snapshot.balances snapshot.nextNonces snapshot.executedEvents
  ensure (chain.stateHash = snapshot.stateHash) "체크포인트 상태 해시 불일치"
  chain.applyBlocks active

section
variable {listing : Listing ArchivePlace} {codec : ArchiveCodec} {first restored : Blockchain}
  {files : HashMap ArchivePlace Bytes} {snapshot : StateSnapshot} {active : List Block}

lemma returns_restore
    (hlatest : Returns (loadLatestSnapshot listing codec)
      (fun found after => found = some snapshot ∧ after = files) files)
    (hactive : Returns (loadActiveBlocks codec)
      (fun found after => found = active ∧ after = files) files)
    (h : restoreFrom first snapshot active = .ok restored) :
    Returns (restore listing codec first none) (fun chain _ => chain = restored) files := by
  simp only [restoreFrom, bind_eq_ok] at h
  obtain ⟨_, hchainId, chain, hchain, _, hstate, happly⟩ := h
  refine Returns.bind (Returns.lift rfl (Returns.bind (Returns.mono hlatest ?_)))
  rintro _ after ⟨rfl, hafter⟩
  rw [hafter]
  refine Returns.bind (Returns.lift hchainId (Returns.bind (Returns.lift hchain ?_)))
  refine Returns.bind (Returns.lift hstate (Returns.bind (Returns.mono hactive ?_)))
  rintro _ after ⟨rfl, hafter⟩
  exact Returns.lift happly rfl

lemma restoreFrom_of_restore {d d' : Disk ArchivePlace}
    (hlatest : Returns (loadLatestSnapshot listing codec)
      (fun found after => found = some snapshot ∧ after = files) files)
    (hactive : Returns (loadActiveBlocks codec)
      (fun found after => found = active ∧ after = files) files) (hd : Sound d)
    (hfiles : d.files = files) (h : restore listing codec first none d = (.ok restored, d')) :
    restoreFrom first snapshot active = .ok restored := by
  obtain ⟨stored, d₁, hload, h⟩ := bind_eq.mp h
  obtain ⟨hstored, rfl⟩ := lift_eq.mp hload
  obtain rfl : none = stored := Except.ok.inj hstored
  obtain ⟨found, d₁, hfound, h⟩ := bind_eq.mp h
  obtain ⟨hd₁, rfl, hfiles₁⟩ := hlatest.of_eq hd hfiles hfound
  simp only [bind_eq, lift_eq] at h
  obtain ⟨_, _, ⟨hchainId, rfl⟩, chain, _, ⟨hchain, rfl⟩, _, _, ⟨hstate, rfl⟩, blocks, _, hblocks,
    happly, -⟩ := h
  obtain ⟨-, rfl, -⟩ := hactive.of_eq hd₁ hfiles₁ hblocks
  simp only [restoreFrom, bind_eq_ok]
  exact ⟨(), hchainId, chain, hchain, (), hstate, happly⟩

end

/-- A base of the history and the active blocks are a chain exactly when it is the last base. -/
lemma restoreFrom_base {codec : ArchiveCodec} {first : Blockchain} {tip : Block}
    {base : Blockchain} (h : IsBase codec first tip base) (active : List Block) :
    ∃ restored, base.Alike restored ∧ restoreFrom first (StateSnapshot.fromChain base) active =
      restored.applyBlocks active := by
  obtain ⟨restored, hrestore, halike⟩ := h.hashed.restore first.genesisCommitment
  have hchainId : (StateSnapshot.fromChain base).chainId = first.chainId := h.chainId
  have hstate : restored.stateHash = (StateSnapshot.fromChain base).stateHash :=
    halike.symm.stateHash_eq
  simp only [hchainId] at hrestore
  refine ⟨restored, halike, ?_⟩
  rw [restoreFrom, hchainId, hrestore, ensure, if_pos rfl]
  show (ensure _ _ >>= fun _ => restored.applyBlocks active) = _
  rw [hstate, ensure, if_pos rfl]
  rfl

/-! ## The files of a run -/

section
variable {listing : Listing ArchivePlace} {codec : ArchiveCodec} {first chain restored : Blockchain}
  {files : HashMap ArchivePlace Bytes} {shelf : Shelf} {bases : List (Block × Blockchain)}

/-- The checkpoint of the last rollover has the greatest name. -/
def LastIsGreatest (tips : List Block) : Prop :=
  ∃ last ∈ tips.getLast?, ∀ tip ∈ tips, Shelf.tipName tip ≤ Shelf.tipName last

/-- Before the first rollover the node starts at its genesis. -/
lemma returns_restore_first (h : History codec first files shelf [] chain) :
    Returns (restore listing codec first none)
      (fun found after => found = first ∧ after = files) files := by
  have hnone : ∀ name, ((.checkpoints, name) : ArchivePlace) ∉ files := by
    intro name
    rw [← Finmap.lookup_eq_none, h.checkpoint]
    rfl
  refine Returns.bind (Returns.lift rfl (Returns.bind
    (Returns.mono (returns_loadLatestSnapshot_none hnone) ?_)))
  rintro _ after ⟨rfl, hafter⟩
  exact Returns.pure ⟨rfl, hafter⟩

/-- Where the last checkpoint has the greatest name, the chain is restored. -/
lemma returns_restore_last {front : List (Block × Blockchain)} {last : Block × Blockchain}
    (h : History codec first files shelf (front ++ [last]) chain)
    (hgreatest : ∀ tip ∈ shelf.tips, Shelf.tipName tip ≤ Shelf.tipName last.1) :
    Returns (restore listing codec first none) (fun found _ => chain.Alike found) files := by
  obtain ⟨backups, harchived, -⟩ := h.archived
  obtain ⟨base, halike, hfrom⟩ := restoreFrom_base (h.isBase last (by simp)) shelf.active
  have hgrown := h.grown
  rw [List.getLast?_concat] at hgrown
  obtain ⟨restored, happly, halike'⟩ := halike.applyBlocks hgrown
  refine Returns.mono (returns_restore (h.returns_latest hgreatest)
    (returns_loadActiveBlocks harchived) (hfrom.trans happly)) ?_
  rintro _ _ rfl
  exact halike'

/-- The first active block is the one behind the last checkpoint. -/
lemma head_height {base : Blockchain} {active : List Block} (hne : active ≠ [])
    (h : base.applyBlocks active = .ok chain) :
    ∃ block ∈ active.head?, block.height.toNat = base.tipHeight.toNat + 1 := by
  cases active with
  | nil => exact absurd rfl hne
  | cons block rest =>
    obtain ⟨mid, hmid, -⟩ := foldlM_cons_eq_ok.mp h
    obtain ⟨hheight, hnext⟩ := Blockchain.tipHeight_applyBlock hmid
    exact ⟨block, rfl, by rw [← hheight, hnext]⟩

/-- Another checkpoint does not lead to the active blocks. -/
lemma lastIsGreatest_of_restore {d d' : Disk ArchivePlace}
    (h : History codec first files shelf bases chain) (hne : shelf.active ≠ [])
    (hbases : bases ≠ []) (hrise : shelf.tips.Pairwise fun a b => a.height < b.height)
    (hd : Sound d) (hfiles : d.files = files)
    (hrestore : restore listing codec first none d = (.ok restored, d')) :
    LastIsGreatest shelf.tips := by
  obtain ⟨front, last, rfl⟩ := (List.eq_nil_or_concat' bases).resolve_left hbases
  obtain ⟨backups, harchived, -⟩ := h.archived
  have hlastTip : shelf.tips.getLast? = some last.1 := by
    rw [← h.tips, List.map_append, List.map_singleton, List.getLast?_concat]
  have hlastMem : last.1 ∈ shelf.tips := List.mem_of_getLast? hlastTip
  have hmem : ∀ name, ((.checkpoints, name) : ArchivePlace) ∈ files ↔
      name ∈ shelf.tips.map Shelf.tipName := by
    intro name
    rw [← Finmap.lookup_isSome, h.checkpoint, Finmap.lookup_isSome, HashMap.mem_ofList, ← h.tips,
      List.map_map, List.map_map]
    rfl
  -- the checkpoint with the greatest name is that of some base
  obtain ⟨tip, htip, hgreatest⟩ := shelf.tips.toFinset.exists_max_image Shelf.tipName
    ⟨last.1, List.mem_toFinset.mpr hlastMem⟩
  rw [List.mem_toFinset] at htip
  obtain ⟨bytes, hbytes⟩ := Option.isSome_iff_exists.mp
    (Finmap.lookup_isSome.mpr ((hmem _).mpr (List.mem_map_of_mem htip)))
  have hentry := hbytes
  rw [h.checkpoint] at hentry
  obtain ⟨base, hbase, hfile⟩ := List.mem_map.mp (HashMap.mem_of_lookup_ofList hentry)
  obtain ⟨hname, rfl⟩ := Prod.mk.inj hfile
  have hisBase := h.isBase base hbase
  have hlatest : Returns (loadLatestSnapshot listing codec) (fun found after =>
      found = some (StateSnapshot.fromChain base.2) ∧ after = files) files := by
    refine returns_loadLatestSnapshot hbytes hisBase.parse fun other hother => ?_
    obtain ⟨otherTip, hotherTip, rfl⟩ := List.mem_map.mp ((hmem _).mp hother)
    exact hgreatest otherTip (List.mem_toFinset.mpr hotherTip)
  have hfrom := restoreFrom_of_restore hlatest (returns_loadActiveBlocks harchived) hd hfiles hrestore
  obtain ⟨copy, halike, heq⟩ := restoreFrom_base hisBase shelf.active
  rw [heq] at hfrom
  have hgrown : last.2.applyBlocks shelf.active = .ok chain := by
    have hchain := h.grown
    rw [List.getLast?_concat] at hchain
    exact hchain
  -- the active blocks go on from the last base, and from this one
  obtain ⟨block, hblock, hheight⟩ := head_height hne hgrown
  obtain ⟨block', hblock', hheight'⟩ := head_height hne hfrom
  obtain rfl := Option.mem_unique hblock hblock'
  have htipHeight : base.1.height = last.1.height := by
    rw [← hisBase.height, ← (h.isBase last (by simp)).height, halike.tipHeight_eq]
    exact UInt64.toNat_inj.mp (by omega)
  have hbaseTip : base.1 ∈ shelf.tips := by
    rw [← h.tips]
    exact List.mem_map_of_mem hbase
  have hheights : (shelf.tips.map Block.height).Nodup :=
    List.pairwise_map.mpr (hrise.imp UInt64.ne_of_lt)
  have hsame := List.inj_on_of_nodup_map hheights hbaseTip hlastMem htipHeight
  have hname' : Shelf.tipName last.1 = Shelf.tipName tip := by
    rw [← hsame]
    exact hname
  refine ⟨last.1, hlastTip, fun other hother => ?_⟩
  rw [hname']
  exact hgreatest other (List.mem_toFinset.mpr hother)

end

/-! ## Runs -/

/-- A run of installations on a new disk leaves the history of its blocks. -/
lemma history_of_run {listing : Listing ArchivePlace} {codec : ArchiveCodec}
    {maxActiveBytes : UInt64} {first : Blockchain} {blocks : List Block} {state : State}
    {d d' : Disk ArchivePlace} (hempty : d.files = ∅)
    (hrun : (do
      let start ← RpcServer.new listing codec maxActiveBytes first none
      blocks.foldlM (install listing codec) start) d = (.ok state, d'))
    (hjson : ∀ block ∈ blocks, codec.ReadsBack block)
    (hsnapshots : SnapshotsReadBack codec first blocks)
    (hzstd : ∀ bytes, codec.decompress (codec.compress bytes) = .ok bytes) :
    (maxActiveBytes ≠ 0 ∧ maxActiveBytes ≤ 100000000) ∧
      first.applyBlocks blocks = .ok state.chain ∧
      ∃ bases, History codec first d'.files (Shelf.ofBlocks codec maxActiveBytes blocks) bases
        state.chain := by
  obtain ⟨start, d₁, hnew, hblocks⟩ := bind_eq.mp hrun
  obtain ⟨hmax, hstore, hchain, -, hfiles₁⟩ := new_eq_of_empty hempty hnew
  have hfold := foldlM_install hblocks
  rw [hstore, hchain] at hfold
  have hend := (History.run hzstd (History.start codec first) hjson hsnapshots d₁ hfiles₁).1 _
    (congrArg Prod.fst hfold)
  rw [hfold] at hend
  exact ⟨hmax, hend⟩

/-- **The archive alone restarts a node** exactly when no block was installed, or a rollover has
happened and the checkpoint of the last one has the greatest name. -/
theorem archive_restart_iff (listing : Listing ArchivePlace) (codec : ArchiveCodec)
    (maxActiveBytes : UInt64) (first : Blockchain) (blocks : List Block) (state : State)
    (d d' : Disk ArchivePlace) (hempty : d.files = ∅)
    (hrun : (do
      let start ← RpcServer.new listing codec maxActiveBytes first none
      blocks.foldlM (install listing codec) start) d = (.ok state, d'))
    (hjson : ∀ block ∈ blocks, codec.ReadsBack block)
    (hsnapshots : SnapshotsReadBack codec first blocks)
    (hzstd : ∀ bytes, codec.decompress (codec.compress bytes) = .ok bytes) :
    (∃ restarted, (RpcServer.new listing codec maxActiveBytes first none d'.sound).1 =
        .ok restarted ∧ restarted.chain.tipHeight = state.chain.tipHeight ∧
      restarted.chain.tipHash = state.chain.tipHash ∧
      restarted.chain.stateHash = state.chain.stateHash) ↔
      blocks = [] ∨ LastIsGreatest (Shelf.ofBlocks codec maxActiveBytes blocks).tips := by
  obtain ⟨hmax, hgrown, bases, h⟩ := history_of_run hempty hrun hjson hsnapshots hzstd
  have hblocks := Shelf.blocks_ofBlocks codec maxActiveBytes blocks
  obtain ⟨shelf, hshelf⟩ : ∃ shelf, shelf = Shelf.ofBlocks codec maxActiveBytes blocks := ⟨_, rfl⟩
  rw [← hshelf] at h hblocks ⊢
  obtain ⟨habove, hheights⟩ := Blockchain.heights_rise hgrown
  constructor
  · rintro ⟨restarted, hrestarted, hheight, -⟩
    by_cases hnil : blocks = []
    · exact .inl hnil
    have hne : shelf.active ≠ [] := by
      intro hactive
      rw [Shelf.blocks, (h.fresh hactive).1, hactive] at hblocks
      exact hnil hblocks.symm
    obtain ⟨d₁, harchive, hrestore, -⟩ := new_eq (Prod.ext hrestarted rfl :
      RpcServer.new listing codec maxActiveBytes first none d'.sound = (.ok restarted, _))
    obtain ⟨hd₁, -, hfiles₁⟩ := (returns_new hmax).of_eq (sound_sound d') rfl harchive
    by_cases hbases : bases = []
    · -- the node is back at its genesis, below every block
      rw [hbases] at h
      obtain ⟨-, hfirst, -⟩ := (returns_restore_first h).of_eq hd₁ hfiles₁ hrestore
      obtain ⟨front, last, hactive⟩ := (List.eq_nil_or_concat' shelf.active).resolve_left hne
      have hlast : shelf.active.getLast? = some last := by
        rw [hactive, List.getLast?_concat]
      have hlastMem : last ∈ blocks := by
        rw [← hblocks]
        exact List.mem_append_right _ (List.mem_of_getLast? hlast)
      have hlt := habove last hlastMem
      rw [← (Blockchain.tip_applyBlocks h.grown hlast).1, ← hheight, hfirst] at hlt
      exact absurd hlt (UInt64.lt_irrefl _)
    · -- the active blocks follow the last checkpoint only, and no other one leads to them
      have hrise : shelf.tips.Pairwise fun a b => a.height < b.height := by
        rw [← hblocks] at hheights
        exact hheights.sublist (shelf.tips_sublist.trans (List.sublist_append_left _ _))
      exact .inr (lastIsGreatest_of_restore h hne hbases hrise hd₁ hfiles₁ hrestore)
  · rintro (rfl | ⟨last, hlast, hgreatest⟩)
    · -- no block was installed, and the node is back at its genesis
      have htips := h.tips
      rw [hshelf] at htips
      rw [List.map_eq_nil_iff.mp htips] at h
      obtain ⟨restarted, d'', hrestarted, -, -, hchain, -⟩ :=
        returns_new_of_restore hmax (returns_restore_first h) d'.sound (sound_sound d') rfl
      have hsame : first = state.chain := Except.ok.inj hgrown
      exact ⟨restarted, congrArg Prod.fst hrestarted, by rw [hchain, hsame], by rw [hchain, hsame],
        by rw [hchain, hsame]⟩
    · -- the greatest checkpoint is the last one, and the active blocks follow it
      have hne : bases ≠ [] := by
        rintro rfl
        rw [← h.tips] at hlast
        cases hlast
      obtain ⟨front, base, rfl⟩ := (List.eq_nil_or_concat' bases).resolve_left hne
      have hbase : base.1 = last := by
        rw [← h.tips, List.map_append, List.map_singleton, List.getLast?_concat] at hlast
        exact Option.some.inj hlast
      rw [← hbase] at hgreatest
      obtain ⟨restarted, d'', hrestarted, -, -, halike⟩ :=
        returns_new_of_restore hmax (returns_restore_last h hgreatest) d'.sound (sound_sound d') rfl
      exact ⟨restarted, congrArg Prod.fst hrestarted, halike.symm.tipHeight_eq, halike.symm.tipHash_eq,
        halike.symm.stateHash_eq⟩

/-! ## Two blocks -/

lemma returns_install {listing : Listing ArchivePlace} {codec : ArchiveCodec} {state : State}
    {block : Block} {after : Blockchain} {files : HashMap ArchivePlace Bytes}
    {Q : HashMap ArchivePlace Bytes → Prop} (happly : state.chain.applyBlock block = .ok after)
    (h : Returns (appendFinalized listing codec state.archive block state.chain)
      (fun _ files' => Q files') files) :
    Returns (install listing codec state block)
      (fun next files' => next = state.installed after ∧ Q files') files := by
  refine Returns.bind (Returns.lift happly ?_)
  intro d hd hfiles
  obtain ⟨_, d', happend, hd', hQ⟩ := h d hd hfiles
  exact ⟨_, d', installCommitted_eq.mpr ⟨happend, rfl⟩, hd', rfl, hQ⟩

end

namespace TwoBlocks
open IeumChain.TwoBlocks

attribute [local instance] Devnet.primitives

/-- Blocks are installed at a node with a limit of 300 bytes. -/
def installs (blocks : List Block) : DiskM ArchivePlace State := do
  let start ← RpcServer.new archiveListing codec 300 Devnet.chain none
  blocks.foldlM (install archiveListing codec) start

lemma returns_install_first {state : State} (harchive : state.archive = ⟨300⟩)
    (hchain : state.chain = Devnet.chain) :
    Returns (install archiveListing codec state Devnet.first) (fun next files =>
      (next.archive = ⟨300⟩ ∧ next.chain = grown) ∧
        ∃ bases, History codec Devnet.chain files ⟨[], [Devnet.first]⟩ bases grown) ∅ := by
  have happly : state.chain.applyBlock Devnet.first = .ok grown := by
    rw [hchain]
    exact Devnet.first_applies
  have happend := returns_append_first
  rw [← harchive, ← hchain] at happend
  refine Returns.mono (returns_install happly happend) ?_
  rintro next files ⟨rfl, hhistory⟩
  rw [hchain] at hhistory
  exact ⟨⟨harchive, rfl⟩, hhistory⟩

/-- As long as there are no checkpoints, the node starts at its genesis. -/
lemma returns_start {files : HashMap ArchivePlace Bytes} {shelf : Shelf} {chain : Blockchain}
    (h : History codec Devnet.chain files shelf [] chain) :
    Returns (RpcServer.new archiveListing codec 300 Devnet.chain none) (fun state after =>
      state.archive = ⟨300⟩ ∧ state.chain = Devnet.chain ∧ after = files) files :=
  returns_new_of_restore (by decide) (returns_restore_first h)

lemma returns_installs_first : Returns (installs [Devnet.first]) (fun state files =>
    state.chain = grown ∧
      ∃ bases, History codec Devnet.chain files ⟨[], [Devnet.first]⟩ bases grown) ∅ := by
  refine Returns.bind (Returns.mono (returns_start (History.start codec Devnet.chain)) ?_)
  rintro state files ⟨harchive, hchain, rfl⟩
  refine Returns.bind (Returns.mono (returns_install_first harchive hchain) ?_)
  rintro next files ⟨⟨-, hgrown⟩, hhistory⟩
  exact Returns.pure ⟨hgrown, hhistory⟩

lemma returns_installs_pair : Returns (installs [Devnet.first, Devnet.second])
    (fun _ _ => True) ∅ := by
  refine Returns.bind (Returns.mono (returns_start (History.start codec Devnet.chain)) ?_)
  rintro state files ⟨harchive, hchain, rfl⟩
  refine Returns.bind (Returns.mono (returns_install_first harchive hchain) ?_)
  rintro next files ⟨⟨harchive', hgrown⟩, bases, hhistory⟩
  have happly : next.chain.applyBlock Devnet.second = .ok complete := by
    rw [hgrown]
    exact Devnet.second_applies
  have happend := returns_append_second hhistory
  rw [← harchive', ← hgrown] at happend
  exact Returns.bind (Returns.mono (returns_install happly happend) fun _ _ _ => Returns.pure trivial)

end TwoBlocks

open IeumChain.TwoBlocks TwoBlocks

attribute [local instance] Devnet.primitives

/-- One block is installed and the state database removed: the node is at its genesis again. -/
theorem archive_restart_lost : ∃ state d' restarted,
    installs [Devnet.first] FirstBlock.emptyDisk = (.ok state, d') ∧
    (RpcServer.new archiveListing codec 300 Devnet.chain none d'.sound).1 = .ok restarted ∧
    restarted.chain.tipHeight = 0 ∧ state.chain.tipHeight = 1 := by
  obtain ⟨state, d', hrun, -, hchain, bases, h⟩ :=
    returns_installs_first FirstBlock.emptyDisk (fun _ _ => rfl) rfl
  rw [List.map_eq_nil_iff.mp h.tips] at h
  obtain ⟨restarted, d'', hrestarted, -, -, hfirst, -⟩ :=
    returns_start h d'.sound (sound_sound d') rfl
  refine ⟨state, d', restarted, hrun, congrArg Prod.fst hrestarted, ?_, ?_⟩
  · rw [hfirst]
    rfl
  · rw [hchain]
    rfl

/-- After the rollover that the second block makes, the archive is enough. -/
theorem archive_restart_pair : ∃ state d', installs [Devnet.first, Devnet.second]
      FirstBlock.emptyDisk = (.ok state, d') ∧
    ∃ restarted, (RpcServer.new archiveListing codec 300 Devnet.chain none d'.sound).1 =
        .ok restarted ∧ restarted.chain.tipHeight = state.chain.tipHeight ∧
      restarted.chain.tipHash = state.chain.tipHash ∧
      restarted.chain.stateHash = state.chain.stateHash := by
  obtain ⟨state, d', hrun, -, -⟩ :=
    returns_installs_pair FirstBlock.emptyDisk (fun _ _ => rfl) rfl
  have hreads : ∀ block ∈ [Devnet.first, Devnet.second], codec.ReadsBack block :=
    List.forall_mem_cons.mpr ⟨readsBack_first, List.forall_mem_singleton.mpr readsBack_second⟩
  refine ⟨state, d', hrun, (archive_restart_iff archiveListing codec 300 Devnet.chain
    [Devnet.first, Devnet.second] state FirstBlock.emptyDisk d' rfl hrun hreads snapshotsReadBack
    decompress_compress).mpr (.inr ?_)⟩
  have hshelf : Shelf.ofBlocks codec 300 [Devnet.first, Devnet.second] =
      ⟨[[Devnet.first]], [Devnet.second]⟩ := by
    rw [Shelf.ofBlocks, List.foldl_cons, append_first, List.foldl_cons, append_second]
    rfl
  rw [hshelf]
  exact ⟨Devnet.first, rfl, List.forall_mem_singleton.mpr le_rfl⟩

end RpcServer

end IeumChain
