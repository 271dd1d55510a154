import IeumChain.RestartTheorems
import IeumChain.ProposalTheorems

/-!
# Block times across restarts

The state a node keeps on disk has the height and the hash of the newest block, but not its time,
and the anchor a chain is restored to has the time 0. The check against the time of the previous
block therefore passes everything right after a restart.

* `restart_eq_ok`: what a restarted runtime has in common with the one before;
* `Life`: a node over any number of restarts, with the blocks its chain lost the memory of;
* `restart_keeps_verdicts`: a restart changes no verdict exactly when the tip has the time 0, and
  while restarts happen only then, the times along the chain never go back.
-/

namespace IeumChain

open Lib

section
variable [Primitives]

/-! ## What a restart restores -/

namespace ConsensusRuntime

/-- The import of certificates changes the list of certificates only. -/
lemma importLoop_eq : ∀ (l : List FinalityCertificate) (r : ConsensusRuntime) (imported : ℕ),
    ∃ finalized, (importLoop l r imported).2 = { r with finalized } := by
  intro l
  induction l with
  | nil => exact fun r _ => ⟨r.finalized, rfl⟩
  | cons c l ih =>
    intro r imported
    unfold importLoop
    cases hc : r.importCertificate c with
    | error e => exact ⟨r.finalized, rfl⟩
    | ok result =>
      obtain ⟨done, r₁⟩ := result
      have hr₁ : ∃ finalized, r₁ = { r with finalized } := by
        simp only [importCertificate, bind_eq_ok] at hc
        obtain ⟨_, _, hc⟩ := hc
        split at hc
        · obtain ⟨-, rfl⟩ := Prod.mk.inj (pure_eq_ok.mp hc)
          exact ⟨r.finalized, rfl⟩
        · simp only [bind_eq_ok] at hc
          obtain ⟨_, _, hc⟩ := hc
          split at hc <;> obtain ⟨-, rfl⟩ := Prod.mk.inj (pure_eq_ok.mp hc)
          · exact ⟨r.finalized, rfl⟩
          · exact ⟨_, rfl⟩
      obtain ⟨finalized, rfl⟩ := hr₁
      exact ih _ _

lemma importCertificateHistory_eq (l : List FinalityCertificate) (r : ConsensusRuntime) :
    ∃ finalized, (r.importCertificateHistory l).2 = { r with finalized } := by
  obtain ⟨finalized, hloop⟩ := importLoop_eq l r 0
  unfold importCertificateHistory
  rcases hresult : importLoop l r 0 with ⟨_ | _, r₁⟩ <;> rw [hresult] at hloop <;>
    obtain rfl := hloop
  · exact ⟨finalized, rfl⟩
  · exact ⟨sortByHeight finalized, rfl⟩

end ConsensusRuntime

namespace Node

open ConsensusRuntime

/-- The runtime after a restart: the restored chain, the validators and the schedule of before,
and no candidate. -/
lemma restart_eq_ok {first : Blockchain} {node : Node} {validator : String}
    {timeouts : ConsensusTimeouts} {instant : ℕ} {r : ConsensusRuntime}
    (h : restart first node validator timeouts instant = .ok r) :
    restoreChain first node.canonical = .ok r.chain ∧ r.validators = node.runtime.validators ∧
      r.eventSchedule = node.runtime.eventSchedule ∧ r.pending = none ∧
      Sound (fun _ => True) r := by
  simp only [restart, bind_eq_ok] at h
  obtain ⟨chain, hchain, r₀, hsigner, r₁, hset, certificates, _, _, _, h⟩ := h
  obtain ⟨map, total, height, hheight, _, rfl⟩ := withSigner_eq_ok hsigner
  obtain ⟨hvalid, rfl⟩ := setEventSchedule_eq_ok hset
  unfold importCertificateHistory at h
  rcases hloop : importLoop certificates _ 0 with ⟨e | imported, r₂⟩ <;> rw [hloop] at h
  all_goals
    obtain ⟨finalized, hr₂⟩ := importLoop_eq certificates _ 0
    rw [hloop] at hr₂
    obtain rfl : r₂ = _ := hr₂
    obtain rfl := pure_eq_ok.mp h
    exact ⟨hchain, rfl, rfl, rfl, hheight.le, fun _ _ => trivial⟩

/-- The chain restored from a state on disk. -/
lemma restoreChain_some {first chain : Blockchain} {state : CanonicalState}
    (h : restoreChain first (some state) = .ok chain) :
    textLen (trimStart0x state.blockHash) = 64 ∧ chain.executedEvents = state.executedEvents ∧
      ∃ anchor, chain.blocks = [anchor] ∧ anchor.height = state.height ∧
        anchor.hash = trimStart0x state.blockHash ∧ anchor.timestamp = 0 := by
  simp only [restoreChain, StateStore.load, bind_eq_ok, ensure_eq_ok, pure_eq_ok] at h
  obtain ⟨_, ⟨_, _, rfl⟩, h⟩ := h
  simp only [bind_eq_ok, ensure_eq_ok, pure_eq_ok] at h
  obtain ⟨_, _, restored, hrestored, _, _, rfl⟩ := h
  obtain ⟨hlength, hstate, hanchor⟩ := Blockchain.fromSnapshotWithEvents_eq_ok hrestored
  exact ⟨hlength, congrArg LedgerState.executedEvents hstate, hanchor⟩

/-- A node that has nothing on disk starts from its configuration. -/
lemma restoreChain_none {first chain : Blockchain} (h : restoreChain first none = .ok chain) :
    chain = first := by
  simp only [restoreChain, StateStore.load, bind_eq_ok] at h
  obtain ⟨_, hnone, h⟩ := h
  cases hnone
  exact (pure_eq_ok.mp h).symm

/-! ## The verdicts of a restarted node -/

/-- Nothing is due at the time 0: every configured event has a time. -/
lemma due_zero {schedule : EventSchedule} (h : schedule.validate = .ok ())
    (executed : Finset String) : schedule.due 0 executed = [] := by
  refine List.eq_nil_iff_forall_not_mem.mpr fun e he => ?_
  obtain ⟨hmem, hdue, _⟩ := EventSchedule.mem_due.mp he
  have hvalid := (EventSchedule.validate_eq_ok.mp h).1 e hmem
  simp only [ScheduledEvent.validate, bind_eq_ok, ensure_eq_ok] at hvalid
  obtain ⟨_, _, _, hne, _⟩ := hvalid
  exact hne (UInt64.le_antisymm hdue (UInt64.zero_le))

/-- A node whose tip has the time 0 takes every block without events that has the time 0. -/
lemma validateScheduledBlock_zero {r : ConsensusRuntime} {tip block : Block}
    (hlast : r.chain.blocks.getLast? = some tip) (htip : tip.timestamp = 0)
    (htime : block.timestamp = 0) (hevents : block.systemEvents = []) (now : UInt64) :
    r.validateScheduledBlock (some now) block = .ok () := by
  refine validateScheduledBlock_eq_ok.mpr ⟨⟨⟨tip, hlast, ?_⟩, ?_, ?_⟩, clockAllows_of_le ?_⟩
  · rw [htip]
    exact UInt64.zero_le
  · simp only [EventSchedule.validateBlockEvents, ensure_eq_ok, configuredEvents, hevents, htime]
    exact (due_zero r.scheduleValid _).symm
  · rw [hevents]
    rfl
  · rw [htime]
    exact UInt64.zero_le

/-- A node whose tip has another time refuses every block that has the time 0. -/
lemma isOk_validateScheduledBlock_zero {r : ConsensusRuntime} {tip block : Block}
    (hlast : r.chain.blocks.getLast? = some tip) (htip : tip.timestamp ≠ 0)
    (htime : block.timestamp = 0) (now : Option UInt64) :
    isOk (r.validateScheduledBlock now block) = false := by
  rw [Bool.eq_false_iff, ne_eq, isOk_iff]
  rintro ⟨_, htaken⟩
  obtain ⟨⟨⟨previous, hprevious, hle⟩, _, _⟩, _⟩ := validateScheduledBlock_eq_ok.mp htaken
  obtain rfl : tip = previous := Option.some.inj (hlast.symm.trans hprevious)
  rw [htime] at hle
  exact htip (UInt64.le_antisymm hle UInt64.zero_le)

/-- A restart from the state of the tip changes no verdict exactly when the tip has the time 0. -/
lemma restart_verdicts {first : Blockchain} {r r' : ConsensusRuntime}
    {finality : List FinalityCertificate} {validator : String} {timeouts : ConsensusTimeouts}
    {instant : ℕ}
    (h : restart first ⟨r, some (CanonicalState.fromChain r.chain), finality⟩ validator timeouts
      instant = .ok r') :
    (∀ now block, isOk (r'.validateScheduledBlock now block)
        = isOk (r.validateScheduledBlock now block)) ↔
      ∃ tip, r.chain.blocks.getLast? = some tip ∧ tip.timestamp = 0 := by
  obtain ⟨hrestore, hvalidators, hschedule, _, _⟩ := restart_eq_ok h
  obtain ⟨hlength, hexecuted, anchor, hblocks, _, _, hzero⟩ := restoreChain_some hrestore
  have hanchor : r'.chain.blocks.getLast? = some anchor := by rw [hblocks]; rfl
  -- a chain without blocks has no hash to restore from
  obtain ⟨tip, hlast⟩ : ∃ tip, r.chain.blocks.getLast? = some tip := by
    cases hlast : r.chain.blocks.getLast? with
    | some tip => exact ⟨tip, rfl⟩
    | none =>
      have hempty : (CanonicalState.fromChain r.chain).blockHash = "" := by
        show r.chain.tipHash = ""
        rw [Blockchain.tipHash, hlast]
        rfl
      rw [hempty] at hlength
      exact absurd hlength (by decide)
  constructor
  · intro hsame
    refine ⟨tip, hlast, ?_⟩
    by_contra htip
    -- the genesis block has the time 0 and no events
    have htaken := hsame (some 0) Block.genesis
    rw [validateScheduledBlock_zero hanchor hzero rfl rfl 0,
      isOk_validateScheduledBlock_zero hlast htip rfl] at htaken
    cases htaken
  · rintro ⟨tip', hlast', htip⟩ now block
    obtain rfl : tip = tip' := Option.some.inj (hlast.symm.trans hlast')
    have hexecuted' : r'.chain.executedEvents = r.chain.executedEvents := hexecuted
    unfold validateScheduledBlock
    rw [hanchor, hlast, hvalidators, hschedule, hexecuted']
    simp only [okOr, bind, Except.bind, hzero, htip]

/-! ## A node over several restarts -/

/-- What happens to a node over its life. -/
inductive LifeEvent where
  | event (env : ℕ → Reading) (e : Event)
  | restart (validator : String) (timeouts : ConsensusTimeouts) (instant : ℕ)

/-- The blocks of a node: those from before its start, then those it applied. -/
abbrev blocksOf (before : List Block) (chain : Blockchain) : List Block :=
  before ++ chain.blocks.tail

/-- A node together with the blocks up to the first one its chain holds in memory. -/
structure Life where
  node : Node
  before : List Block

namespace Life

/-- All blocks of the chain, also those from before the last restart. -/
def history (l : Life) : List Block := blocksOf l.before l.node.runtime.chain

/-- The blocks up to the one whose state is on disk. The block of height `k` is at place `k`. -/
def onDisk (first : Blockchain) (l : Life) : List Block :=
  match l.node.canonical with
  | none => first.blocks
  | some state => l.history.take (state.height.toNat + 1)

/-- The node after an event. A start that fails leaves everything as it was. -/
def step (first : Blockchain) (l : Life) : LifeEvent → Life
  | .event env e => { l with node := l.node.step env e }
  | .restart validator timeouts instant =>
    match Node.restart first l.node validator timeouts instant with
    | .error _ => l
    | .ok runtime => { node := { l.node with runtime }, before := l.onDisk first }

/-- The node after a sequence of events. -/
def run (first : Blockchain) (l : Life) (events : List LifeEvent) : Life :=
  events.foldl (step first) l

/-- The newest block on disk has the time 0 whenever the node is restarted. -/
def RestartsAtZero (first : Blockchain) : Life → List LifeEvent → Prop
  | _, [] => True
  | l, e :: rest =>
    (match e with
      | .event _ _ => True
      | .restart _ _ _ => ∀ tip, (l.onDisk first).getLast? = some tip → tip.timestamp = 0) ∧
    RestartsAtZero first (l.step first e) rest

/-- A node that was never restarted. -/
def fresh (first : Blockchain) (r : ConsensusRuntime) : Life :=
  { node := Node.fresh r, before := first.blocks }

end Life

/-! ### The blocks of the chain -/

/-- A list of blocks from the genesis block to the tip of a chain, each linked to the one before
and none older than it. -/
structure Traces (history : List Block) (chain : Blockchain) : Prop where
  head : history.head? = some Block.genesis
  linked : history.IsChain Blockchain.Links
  hashed : ∀ block ∈ history, block.hash = block.calculateHash
  sorted : history.Pairwise fun a b => a.timestamp ≤ b.timestamp
  length : history.length = chain.tipHeight.toNat + 1
  last : ∃ block tip, history.getLast? = some block ∧ chain.blocks.getLast? = some tip ∧
    block.height = tip.height ∧ block.hash = tip.hash ∧
    ∀ older ∈ history, older.timestamp ≤ tip.timestamp

/-- A block that is applied and is not older than the tip becomes the end of the list. -/
lemma Traces.append {history : List Block} {chain chain' : Blockchain} {block tip : Block}
    (h : Traces history chain) (hlast : chain.blocks.getLast? = some tip)
    (htime : tip.timestamp ≤ block.timestamp) (happly : chain.applyBlock block = .ok chain') :
    Traces (history ++ [block]) chain' := by
  obtain ⟨newest, tip', hnewest, hlast', hheight, hhash, holder⟩ := h.last
  obtain rfl : tip = tip' := Option.some.inj (hlast.symm.trans hlast')
  obtain ⟨_, htip⟩ := Blockchain.tipHeight_applyBlock happly
  obtain ⟨previous, _, hprevious, hlinks, _, rfl⟩ := Blockchain.applyBlock_eq_ok.mp happly
  obtain rfl : tip = previous := Option.some.inj (hlast.symm.trans hprevious)
  have hall : ∀ older ∈ history ++ [block], older.timestamp ≤ block.timestamp := by
    intro older hmem
    rcases List.mem_append.mp hmem with hmem | hmem
    · exact UInt64.le_trans (holder older hmem) htime
    · rw [List.mem_singleton.mp hmem]
      exact UInt64.le_refl _
  refine ⟨?_, ?_, ?_, ?_, ?_, block, block, by simp, by simp, rfl, rfl, hall⟩
  · rw [List.head?_append, h.head]
    rfl
  · refine List.isChain_append.mpr ⟨h.linked, .singleton block, ?_⟩
    intro x hx y hy
    rw [hnewest] at hx
    obtain rfl := Option.some.inj hx
    obtain rfl := Option.some.inj hy
    exact ⟨by rw [hheight, hlinks.height], by rw [hhash, hlinks.previousHash], hlinks.hash⟩
  · intro b hb
    rcases List.mem_append.mp hb with hb | hb
    · exact h.hashed b hb
    · rw [List.mem_singleton.mp hb]
      exact hlinks.hash
  · refine List.pairwise_append.mpr ⟨h.sorted, List.pairwise_singleton _ _, ?_⟩
    intro a ha b hb
    rw [List.mem_singleton.mp hb]
    exact hall a (List.mem_append_left _ ha)
  · rw [List.length_append, h.length, htip]
    rfl

omit [Primitives] in
/-- The last block of a list without a step back is the newest. -/
lemma le_getLast {l : List Block} (h : l.Pairwise fun a b => a.timestamp ≤ b.timestamp)
    {newest block : Block} (hlast : l.getLast? = some newest) (hblock : block ∈ l) :
    block.timestamp ≤ newest.timestamp := by
  obtain ⟨rest, rfl⟩ := List.getLast?_eq_some_iff.mp hlast
  rcases List.mem_append.mp hblock with hblock | hblock
  · exact (List.pairwise_append.mp h).2.2 block hblock newest (List.mem_singleton_self _)
  · rw [List.mem_singleton.mp hblock]
    exact UInt64.le_refl _

/-- A chain that holds the genesis block only. -/
lemma traces_first {first : Blockchain} (h : first.blocks = [Block.genesis]) :
    Traces [Block.genesis] first := by
  have hlast : first.blocks.getLast? = some Block.genesis := by rw [h]; rfl
  refine ⟨rfl, .singleton _, ?_, List.pairwise_singleton _ _, ?_, Block.genesis, Block.genesis, rfl,
    hlast, rfl, rfl, ?_⟩
  · intro block hblock
    rw [List.mem_singleton.mp hblock]
    rfl
  · rw [(Blockchain.tipHeight_of_getLast hlast).1]
    rfl
  · intro older holder
    rw [List.mem_singleton.mp holder]
    exact UInt64.le_refl _

lemma blocksOf_applyBlock {before : List Block} {chain chain' : Blockchain} {block : Block}
    (happly : chain.applyBlock block = .ok chain') :
    blocksOf before chain' = blocksOf before chain ++ [block] := by
  obtain ⟨previous, _, hlast, _, _, rfl⟩ := Blockchain.applyBlock_eq_ok.mp happly
  have hne : chain.blocks ≠ [] := by
    rintro hnil
    simp [hnil] at hlast
  rw [blocksOf, blocksOf, Blockchain.withState_blocks, List.tail_append_of_ne_nil hne,
    List.append_assoc]

/-- The invariant of a runtime: its blocks are traced, and a candidate that can still be applied
is not older than the tip. -/
structure Dated (before : List Block) (r : ConsensusRuntime) : Prop where
  traces : Traces (blocksOf before r.chain) r.chain
  pending : ∀ b, r.pending = some b → b.height.toNat ≤ r.chain.tipHeight.toNat + 1 ∧
    (b.height.toNat = r.chain.tipHeight.toNat + 1 →
      ∃ tip, r.chain.blocks.getLast? = some tip ∧ tip.timestamp ≤ b.timestamp)

lemma Dated.move {before : List Block} {known : ConsensusMessage → Prop}
    {r r' : ConsensusRuntime} {signed : List ConsensusMessage} (h : Dated before r)
    (hmove : Move known r signed r') : Dated before r' := by
  cases hmove with
  | timer | queue | records | handOver => exact ⟨h.traces, h.pending⟩
  | prevote | precommit => exact h
  | drop | timeout | next => exact ⟨h.traces, fun b hb => by simp at hb⟩
  | proposal now p consensus hfits hc =>
    refine ⟨h.traces, fun b hb => ?_⟩
    obtain rfl := Option.some.inj hb
    obtain ⟨hscheduled, _⟩ := validateScheduledBlock_eq_ok.mp hfits.scheduled
    exact ⟨hfits.height.le, fun _ => hscheduled.after⟩
  | vote env m consensus hknown hhandle =>
    obtain ⟨_, _, _, heq⟩ := afterVote_eq r env m consensus
    rw [heq]
    exact ⟨h.traces, h.pending⟩
  | commit b chain hpending hverify hchain =>
    obtain ⟨hblock, htip⟩ := Blockchain.tipHeight_applyBlock hchain
    obtain ⟨tip, hlast, htime⟩ := (h.pending b hpending).2 (by rw [← hblock, htip])
    refine ⟨?_, fun b hb => by simp at hb⟩
    simp only [blocksOf_applyBlock hchain]
    exact h.traces.append hlast htime hchain
  | sync now c chain hverify hfits hchain =>
    obtain ⟨_, htip⟩ := Blockchain.tipHeight_applyBlock hchain
    obtain ⟨hscheduled, _⟩ := validateScheduledBlock_eq_ok.mp hfits.scheduled
    obtain ⟨tip, hlast, htime⟩ := hscheduled.after
    refine ⟨?_, fun b hb => ?_⟩
    · simp only [blocksOf_applyBlock hchain]
      exact h.traces.append hlast htime hchain
    · -- a candidate from before is at most at the new tip
      have hle := (h.pending b hb).1
      show b.height.toNat ≤ chain.tipHeight.toNat + 1 ∧
        (b.height.toNat = chain.tipHeight.toNat + 1 → _)
      exact ⟨by omega, fun heq => by omega⟩

/-! ### What is on disk -/

/-- A move adds at most one block to the chain. -/
lemma Move.chain_cases {known : ConsensusMessage → Prop} {r r' : ConsensusRuntime}
    {signed : List ConsensusMessage} (h : Move known r signed r') :
    r'.chain = r.chain ∨ ∃ block, r.chain.applyBlock block = .ok r'.chain := by
  cases h with
  | vote env m consensus hknown hhandle =>
    obtain ⟨_, _, _, heq⟩ := afterVote_eq r env m consensus
    rw [heq]
    exact .inl rfl
  | commit b chain hpending hverify hchain => exact .inr ⟨b, hchain⟩
  | sync now c chain hverify hfits hchain => exact .inr ⟨c.block, hchain⟩
  | _ => exact .inl rfl

/-- The blocks of a node are only added to. -/
lemma blocksOf_moves (before : List Block) {known : ConsensusMessage → Prop}
    {r r' : ConsensusRuntime} {signed : List ConsensusMessage} (h : Moves known r signed r') :
    blocksOf before r.chain <+: blocksOf before r'.chain := by
  refine Moves.induction (P := fun r' _ => blocksOf before r.chain <+: blocksOf before r'.chain)
    (fun hr hmove => ?_) [] h (List.prefix_refl _)
  rcases Move.chain_cases hmove with hsame | ⟨block, happly⟩
  · rw [hsame]
    exact hr
  · rw [blocksOf_applyBlock happly]
    exact hr.trans (List.prefix_append _ _)

/-- The invariant of a node with its disk: the state there belongs to one of its blocks. -/
structure Recorded (before : List Block) (node : Node) : Prop where
  sound : Sound (fun _ => True) node.runtime
  dated : Dated before node.runtime
  stored : ∀ state, node.canonical = some state →
    ∃ block, (blocksOf before node.runtime.chain)[state.height.toNat]? = some block ∧
      block.height = state.height ∧ block.hash = state.blockHash

lemma Recorded.moves {before : List Block} {node : Node} {r : ConsensusRuntime}
    {signed : List ConsensusMessage} (h : Recorded before node)
    (hmoves : Moves (fun _ => True) node.runtime signed r) :
    Recorded before { node with runtime := r } := by
  refine ⟨h.sound.moves hmoves, ?_, fun state hstate => ?_⟩
  · exact Moves.induction (P := fun r _ => Dated before r) (fun hr hmove => hr.move hmove) []
      hmoves h.dated
  · obtain ⟨block, hblock, hheight, hhash⟩ := h.stored state hstate
    obtain ⟨added, hadded⟩ := blocksOf_moves before hmoves
    obtain ⟨hlt, _⟩ := List.getElem?_eq_some_iff.mp hblock
    refine ⟨block, ?_, hheight, hhash⟩
    show (blocksOf before r.chain)[state.height.toNat]? = some block
    rw [← hadded, List.getElem?_append_left hlt, hblock]

/-- The state of the tip belongs to the newest block. -/
lemma Recorded.commit {before : List Block} {node : Node} (h : Recorded before node)
    (finality : List FinalityCertificate) :
    Recorded before { node with
      canonical := some (CanonicalState.fromChain node.runtime.chain), finality } := by
  refine ⟨h.sound, h.dated, fun state hstate => ?_⟩
  obtain rfl := Option.some.inj hstate
  obtain ⟨block, tip, hblock, hlast, hheight, hhash, _⟩ := h.dated.traces.last
  obtain ⟨htipHeight, htipHash⟩ := Blockchain.tipHeight_of_getLast hlast
  refine ⟨block, ?_, by rw [hheight, ← htipHeight]; rfl, by rw [hhash, ← htipHash]; rfl⟩
  rw [List.getLast?_eq_getElem?, h.dated.traces.length] at hblock
  exact hblock

lemma Recorded.finalizeIfReady {before : List Block} {node : Node} (h : Recorded before node)
    (env : Reading) : Recorded before (node.finalizeIfReady env) := by
  have htaken := h.moves (Move.handOver node.runtime).moves
  unfold Node.finalizeIfReady takeFinalized
  simp only
  split
  · exact htaken
  · rename_i hne
    rw [foldl_install _ _ hne]
    exact (htaken.commit _).moves (advanceAfterFinalization_moves _ env)

lemma Recorded.syncReceived {before : List Block} (env : ℕ → Reading) :
    ∀ (certificates : List FinalityCertificate) (readings : ℕ) (node : Node),
      Recorded before node → Recorded before (syncReceived env certificates readings node) := by
  intro certificates
  induction certificates with
  | nil => exact fun _ _ h => h
  | cons c rest ih =>
    intro readings node h
    have hsync := h.moves (applySyncCertificates_moves node.runtime
      (fun i => env (readings + i)) [c] h.sound)
    unfold Node.syncReceived
    rcases happly : node.runtime.applySyncCertificates (fun i => env (readings + i)) [c] with
      ⟨e | applied, r⟩ <;> rw [happly] at hsync
    · exact hsync
    · refine ih _ _ ?_
      split
      · exact hsync.commit _
      · exact hsync

/-- Every event of a node keeps the invariant. -/
lemma Recorded.step {before : List Block} {node : Node} (h : Recorded before node)
    (env : ℕ → Reading) (e : Event) : Recorded before (node.step env e) := by
  have hlocal : ∀ op : Op,
      Recorded before { node with runtime := (node.runtime.step env op).2 } := by
    intro op
    obtain ⟨_, hmoves, _⟩ := step_moves node.runtime env op h.sound fun _ _ => trivial
    exact h.moves hmoves
  cases e with
  | op op =>
    cases op with
    | takeFinalized => exact h.finalizeIfReady (env 0)
    | applySyncCertificates certificates =>
      exact Recorded.syncReceived env certificates 0 node h
    | _ => exact hlocal _
  | replaceBootstrapValidators validators =>
    simp only [Node.step]
    cases hreplace : node.runtime.replaceBootstrapValidators (env 0) validators with
    | error e => exact h
    | ok r =>
      simp only [replaceBootstrapValidators, bind_eq_ok, ensure_eq_ok, pure_eq_ok] at hreplace
      obtain ⟨_, ⟨_, hpending⟩, c, hnew, c', hstart, rfl⟩ := hreplace
      obtain ⟨map, total, rfl, _⟩ := BftConsensus.new_startRound hnew hstart (by decide)
      refine ⟨⟨?_, fun _ _ => trivial⟩, ⟨h.dated.traces, fun b hb => ?_⟩, h.stored⟩
      · show (1 : UInt64).toNat ≤ node.runtime.chain.tipHeight.toNat + 1
        exact Nat.le_add_left _ _
      · change node.runtime.pending = some b at hb
        rw [hpending] at hb
        cases hb

/-! ### Runs -/

/-- The blocks on disk end with the newest one whose state is stored. -/
lemma onDisk_of_stored (first : Blockchain) {l : Life} {state : CanonicalState} {block : Block}
    (hcanonical : l.node.canonical = some state)
    (hblock : l.history[state.height.toNat]? = some block) :
    l.onDisk first = l.history.take (state.height.toNat + 1) ∧
      (l.onDisk first).length = state.height.toNat + 1 ∧
      (l.onDisk first).getLast? = some block := by
  have hdisk : l.onDisk first = l.history.take (state.height.toNat + 1) := by
    rw [Life.onDisk, hcanonical]
  obtain ⟨hlt, _⟩ := List.getElem?_eq_some_iff.mp hblock
  have hlength : (l.onDisk first).length = state.height.toNat + 1 := by
    rw [hdisk, List.length_take]
    exact min_eq_left hlt
  refine ⟨hdisk, hlength, ?_⟩
  rw [List.getLast?_eq_getElem?, hlength, hdisk, Nat.add_sub_cancel,
    List.getElem?_take_of_lt (Nat.lt_succ_self _)]
  exact hblock

/-- A restart from a newest block with the time 0 keeps the invariant. -/
lemma Recorded.restart {first : Blockchain} (hfirst : first.blocks = [Block.genesis]) {l : Life}
    (h : Recorded l.before l.node)
    (hzero : ∀ tip, (l.onDisk first).getLast? = some tip → tip.timestamp = 0)
    {validator : String} {timeouts : ConsensusTimeouts} {instant : ℕ} {r : ConsensusRuntime}
    (hr : Node.restart first l.node validator timeouts instant = .ok r) :
    Recorded (l.onDisk first) { l.node with runtime := r } := by
  obtain ⟨hrestore, _, _, hpending, hsound⟩ := restart_eq_ok hr
  have hnone : ∀ b, r.pending = some b → b.height.toNat ≤ r.chain.tipHeight.toNat + 1 ∧
      (b.height.toNat = r.chain.tipHeight.toNat + 1 →
        ∃ tip, r.chain.blocks.getLast? = some tip ∧ tip.timestamp ≤ b.timestamp) := by
    intro b hb
    rw [hpending] at hb
    cases hb
  -- a state on disk makes the anchor of the restored chain; without one it is the genesis again
  cases hcanonical : l.node.canonical with
  | none =>
    rw [hcanonical] at hrestore
    have hchain := restoreChain_none hrestore
    have hdisk : l.onDisk first = [Block.genesis] := by rw [Life.onDisk, hcanonical, hfirst]
    have hblocks : blocksOf (l.onDisk first) r.chain = [Block.genesis] := by
      rw [blocksOf, hdisk, hchain, hfirst]
      rfl
    refine ⟨hsound, ⟨?_, hnone⟩, fun state hstate => by rw [hcanonical] at hstate; cases hstate⟩
    rw [hblocks, hchain]
    exact traces_first hfirst
  | some state =>
    rw [hcanonical] at hrestore
    obtain ⟨_, _, anchor, hanchor, hheight, hhash, htime⟩ := restoreChain_some hrestore
    obtain ⟨block, hblock, hblockHeight, hblockHash⟩ := h.stored state hcanonical
    have hblocks : blocksOf (l.onDisk first) r.chain = l.onDisk first := by
      rw [blocksOf, hanchor, List.tail_cons, List.append_nil]
    obtain ⟨hdisk, hlength, hlast⟩ := onDisk_of_stored first hcanonical hblock
    have htraces := h.dated.traces
    have hdigest : trimStart0x block.hash = block.hash := by
      rw [htraces.hashed block (List.mem_of_getElem? hblock)]
      exact trimStart0x_hexEncode _
    have hmem : ∀ b ∈ l.onDisk first, b ∈ l.history := by
      rw [hdisk]
      exact fun b hb => List.mem_of_mem_take hb
    have hsorted : (l.onDisk first).Pairwise fun a b => a.timestamp ≤ b.timestamp := by
      rw [hdisk]
      exact htraces.sorted.take
    refine ⟨hsound, ⟨?_, hnone⟩, fun state' hstate' => ?_⟩
    · rw [hblocks]
      have htip : r.chain.blocks.getLast? = some anchor := by rw [hanchor]; rfl
      refine ⟨?_, ?_, fun b hb => htraces.hashed b (hmem b hb), hsorted, ?_, block, anchor, hlast,
        htip, by rw [hblockHeight, hheight], by rw [hhash, ← hblockHash, hdigest], ?_⟩
      · rw [hdisk, List.head?_take, if_neg (Nat.succ_ne_zero _)]
        exact htraces.head
      · rw [hdisk]
        exact htraces.linked.take _
      · rw [hlength, (Blockchain.tipHeight_of_getLast htip).1, hheight]
      · -- the newest block has the time 0, and no block is newer
        intro older holder
        rw [htime, ← hzero block hlast]
        exact le_getLast hsorted hlast holder
    · -- the canonical state is not written by a restart
      obtain rfl : state = state' := Option.some.inj (hcanonical.symm.trans hstate')
      refine ⟨block, ?_, hblockHeight, hblockHash⟩
      show (blocksOf (l.onDisk first) r.chain)[state.height.toNat]? = some block
      rw [hblocks, ← hlast, List.getLast?_eq_getElem?, hlength, Nat.add_sub_cancel]

lemma run_recorded {first : Blockchain} (hfirst : first.blocks = [Block.genesis])
    (events : List LifeEvent) :
    ∀ l : Life, Recorded l.before l.node → l.RestartsAtZero first events →
      Recorded (l.run first events).before (l.run first events).node := by
  induction events with
  | nil => exact fun _ h _ => h
  | cons e rest ih =>
    intro l h hzero
    obtain ⟨hstep, hrest⟩ := hzero
    refine ih (l.step first e) ?_ hrest
    cases e with
    | event env e => exact h.step env e
    | restart validator timeouts instant =>
      simp only [Life.step]
      cases hr : Node.restart first l.node validator timeouts instant with
      | error e => exact h
      | ok r => exact h.restart hfirst hstep hr

/-- **When a restart changes no verdict.** A node restarted from the state of its tip gives the
same verdict on every block at every reading of the clock exactly when its tip has the time 0. Let
a node start at the genesis block and live through any events and restarts, with a newest block on
disk that has the time 0 at every restart: the blocks of its chain, linked one to the other from
the genesis block to the tip, never go back in time. -/
theorem restart_keeps_verdicts :
    (∀ (first : Blockchain) (r r' : ConsensusRuntime) (finality : List FinalityCertificate)
        (validator : String) (timeouts : ConsensusTimeouts) (instant : ℕ),
      restart first ⟨r, some (CanonicalState.fromChain r.chain), finality⟩ validator timeouts
        instant = .ok r' →
      ((∀ now block, isOk (r'.validateScheduledBlock now block)
          = isOk (r.validateScheduledBlock now block)) ↔
        ∃ tip, r.chain.blocks.getLast? = some tip ∧ tip.timestamp = 0)) ∧
    ∀ (first : Blockchain), first.blocks = [Block.genesis] →
      ∀ (validators : List Validator) (schedule : EventSchedule) (validator : String)
        (r : ConsensusRuntime), Started first validators schedule validator r →
      ∀ events : List LifeEvent, (Life.fresh first r).RestartsAtZero first events →
        let l := (Life.fresh first r).run first events
        l.history.head? = some Block.genesis ∧ l.history.IsChain Blockchain.Links ∧
          l.history.getLast?.map (fun block => (block.height, block.hash))
            = l.node.runtime.chain.tip ∧
          l.history.Pairwise fun a b => a.timestamp ≤ b.timestamp := by
  refine ⟨fun first r r' finality validator timeouts instant h => restart_verdicts h, ?_⟩
  intro first hfirst validators schedule validator r hr events hzero l
  have hstart : Recorded (Life.fresh first r).before (Life.fresh first r).node := by
    obtain ⟨hsound, _⟩ := serverInv_run hr []
    obtain ⟨_, _, _, _, _, _, _, _, rfl⟩ := hr.eq
    have hblocks : blocksOf first.blocks first = [Block.genesis] := by
      rw [blocksOf, hfirst]
      rfl
    refine ⟨hsound, ⟨?_, fun b hb => by cases hb⟩, fun state hstate => by cases hstate⟩
    show Traces (blocksOf first.blocks first) first
    rw [hblocks]
    exact traces_first hfirst
  have htraces := (run_recorded hfirst events _ hstart hzero).dated.traces
  obtain ⟨block, tip, hlast, htip, hheight, hhash, _⟩ := htraces.last
  refine ⟨htraces.head, htraces.linked, ?_, htraces.sorted⟩
  rw [show l.history.getLast? = some block from hlast, Blockchain.tip, htip, Option.map_some,
    Option.map_some, hheight, hhash]

/-- A node that has finalised a block with a time refuses a block from the time 0, and takes it
after a restart. -/
lemma restart_takes_zero {first : Blockchain} {node : Node} (h : Kept first node)
    (hroom : Room first node) (hpending : node.runtime.pendingFinalized = [])
    (hsome : node.runtime.finalized ≠ []) {t block : Block}
    (hlast : node.runtime.chain.blocks.getLast? = some t) (htip : t.timestamp ≠ 0)
    (htime : block.timestamp = 0) (hevents : block.systemEvents = []) (now : UInt64)
    (validator : String) (timeouts : ConsensusTimeouts) (instant : ℕ) :
    node.canonical = some (CanonicalState.fromChain node.runtime.chain) ∧
      isOk (node.runtime.validateScheduledBlock (some now) block) = false ∧
      ∃ r', restart first node validator timeouts instant = .ok r' ∧
        isOk (r'.validateScheduledBlock (some now) block) = true := by
  have hcanonical : node.canonical = some (CanonicalState.fromChain node.runtime.chain) := by
    rw [(h.stored hroom).state hpending, if_neg hsome]
  refine ⟨hcanonical, isOk_validateScheduledBlock_zero hlast htip htime _, ?_⟩
  obtain ⟨r', hr', _⟩ := restart_finalized h hroom hpending validator timeouts instant
  obtain ⟨hrestore, _, _, _, _⟩ := restart_eq_ok hr'
  rw [hcanonical] at hrestore
  obtain ⟨_, _, anchor, hblocks, _, _, hzero⟩ := restoreChain_some hrestore
  have hanchor : r'.chain.blocks.getLast? = some anchor := by rw [hblocks]; rfl
  exact ⟨r', hr', isOk_iff.mpr ⟨(), validateScheduledBlock_zero hanchor hzero htime hevents now⟩⟩

/-- A node with nothing but the state of its tip on disk can be restarted. -/
lemma restart_isOk (first : Blockchain) {r : ConsensusRuntime} {c : BftConsensus}
    (htip : r.chain.TipHashed) (hid : r.chain.chainId = first.chainId)
    (hroom : r.chain.tipHeight.toNat + 1 < 2 ^ 64) (hnew : BftConsensus.new r.validators = .ok c)
    (validator : String) (timeouts : ConsensusTimeouts) (instant : ℕ) :
    ∃ r', restart first ⟨r, some (CanonicalState.fromChain r.chain), []⟩ validator timeouts instant
      = .ok r' := by
  obtain ⟨chain, anchor, hchain, hblocks, hheight, _⟩ := restoreChain_fromChain htip hid
  have hlast : chain.blocks.getLast? = some anchor := by rw [hblocks]; rfl
  have hroom' : chain.tipHeight.toNat + 1 < 2 ^ 64 := by
    rw [(Blockchain.tipHeight_of_getLast hlast).1, hheight]
    exact hroom
  obtain ⟨r₀, hr₀⟩ := withSigner_isOk hroom' hnew validator timeouts instant
  obtain ⟨r₁, hr₁⟩ := setEventSchedule_isOk (r := r₀) r.scheduleValid
  simp only [restart, bind_eq_ok]
  exact ⟨_, chain, hchain, r₀, hr₀, r₁, hr₁, [], rfl, 0, rfl, rfl⟩

end Node

end

namespace Node

open ConsensusRuntime

section
attribute [local instance] Devnet.primitives

/-- A restart before the first block, and then the first block. -/
def devnetLife : List LifeEvent :=
  [.restart Devnet.validator ⟨3000, 2000, 2000⟩ 0,
    .event (fun _ => Devnet.reading "") (.op (.applySyncCertificates [Devnet.firstCertificate]))]

/-- At the genesis block a restart changes nothing. -/
theorem restart_keeps_verdicts_first :
    (∃ r', restart Devnet.chain ⟨Devnet.node, some (CanonicalState.fromChain Devnet.node.chain), []⟩
        Devnet.validator ⟨3000, 2000, 2000⟩ 0 = .ok r' ∧
      ∀ now block, isOk (r'.validateScheduledBlock now block)
        = isOk (Devnet.node.validateScheduledBlock now block)) ∧
    (Life.fresh Devnet.chain Devnet.node).RestartsAtZero Devnet.chain devnetLife ∧
      ((Life.fresh Devnet.chain Devnet.node).run Devnet.chain devnetLife).history.Pairwise
        fun a b => a.timestamp ≤ b.timestamp := by
  have hzero : (Life.fresh Devnet.chain Devnet.node).RestartsAtZero Devnet.chain devnetLife := by
    refine ⟨fun tip htip => ?_, trivial, trivial⟩
    cases htip
    rfl
  refine ⟨?_, hzero, (restart_keeps_verdicts.2 Devnet.chain rfl [Devnet.self] EventSchedule.empty
    Devnet.validator Devnet.node Devnet.node_started devnetLife hzero).2.2.2⟩
  obtain ⟨c, hnew⟩ := (Runs.started Devnet.node_started).accepted
  obtain ⟨r', hr'⟩ := restart_isOk Devnet.chain (r := Devnet.node)
    ⟨Block.genesis, rfl, Block.genesis_hash⟩ rfl (by decide) hnew Devnet.validator
    ⟨3000, 2000, 2000⟩ 0
  exact ⟨r', hr', (restart_keeps_verdicts.1 _ _ _ _ _ _ _ hr').mpr ⟨Block.genesis, rfl, rfl⟩⟩

/-- A block on the first block that is older than it. -/
def olderBlock : Block := Block.new 2 Devnet.first.hash 0 Devnet.validator []

/-- A node that has the first block refuses an older one on top of it, and takes it after a
restart. -/
theorem restart_takes_older_block :
    let node := (fresh Devnet.node).run (devnetReceives [Devnet.firstCertificate])
    node.canonical = some (CanonicalState.fromChain node.runtime.chain) ∧
      isOk (node.runtime.validateScheduledBlock (some 1000) olderBlock) = false ∧
      ∃ r', restart Devnet.chain node Devnet.validator ⟨3000, 2000, 2000⟩ 0 = .ok r' ∧
        isOk (r'.validateScheduledBlock (some 1000) olderBlock) = true := by
  obtain ⟨hchain, hfinalized, hpending⟩ := run_devnetReceives finalizes_first (by decide)
    fun c hc => devnet_clock c (List.mem_cons.mpr (.inl (List.mem_singleton.mp hc)))
  refine restart_takes_zero (run_kept Devnet.node_started _) ?_ hpending ?_
    (t := Devnet.first) ?_ (by decide) rfl rfl 1000 Devnet.validator ⟨3000, 2000, 2000⟩ 0
  · rw [Room, hfinalized]
    decide
  · rw [hfinalized]
    exact List.cons_ne_nil _ _
  · rw [hchain]
    rfl

end

end Node

end IeumChain
