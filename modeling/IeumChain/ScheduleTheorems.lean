import IeumChain.SyncTheorems
import IeumChain.ProposalTheorems

/-!
# Configured events

The schedule says which events are due at a time, given the events executed so far, and a block
has to carry exactly those. Over a whole chain this means that a configured event is executed in
the first block that is late enough and in no other:

* `Grows`: the chains that grow from the genesis block by blocks that fit the schedule;
* `applyBlock_events`: what a block adds to the executed events;
* `configured_events_run_once`: from both, by induction over the chain.
-/

namespace IeumChain

open Lib

section
variable [Primitives]

/-! ## Events of one block -/

/-- The ids of the two built-in rewards. -/
def builtinIds : List String := ["ieum-bootstrap-validator-reward-v1", "ieum-node-100-reward-v1"]

/-- The events of a block are new, none is repeated, and afterwards they are executed. -/
lemma applySystemEvents_ids {blockTimestamp : UInt64} {events : List ScheduledEvent} :
    ∀ {state state' : Balances × Finset String},
      applySystemEvents events blockTimestamp state = .ok state' →
      state'.2 = state.2 ∪ (events.map ScheduledEvent.id).toFinset := by
  induction events with
  | nil =>
    intro state state' h
    cases h
    simp
  | cons e rest ih =>
    intro state state' h
    obtain ⟨mid, hmid, hrest⟩ := foldlM_cons_eq_ok.mp h
    obtain ⟨_, _, _, _, hexecuted⟩ := applySystemEvent_eq_ok.mp hmid
    rw [ih hrest, hexecuted]
    ext id
    simp only [Finset.mem_union, Finset.mem_insert, List.mem_toFinset, List.map_cons,
      List.mem_cons]
    tauto

lemma applyBlock_events {c c' : Blockchain} {block : Block} (h : c.applyBlock block = .ok c') :
    c'.executedEvents
        = c.executedEvents ∪ (block.systemEvents.map ScheduledEvent.id).toFinset ∧
      (∀ e ∈ block.systemEvents, e.id ∉ c.executedEvents) ∧
      (block.systemEvents.map ScheduledEvent.id).Nodup ∧ c'.blocks = c.blocks ++ [block] := by
  obtain ⟨_, state, _, _, hstate, rfl⟩ := Blockchain.applyBlock_eq_ok.mp h
  obtain ⟨balances, _, hevents⟩ := executeBlock_eq_ok.mp hstate
  obtain ⟨hall, hnodup, _⟩ := (applySystemEvents_isOk _ _).mp ⟨_, hevents⟩
  exact ⟨applySystemEvents_ids hevents, fun e he => (hall e he).2.2, hnodup, rfl⟩

namespace ConsensusRuntime

/-- A built-in event has a built-in id. -/
lemma checkBuiltinEvent_id {validators : List Validator} {executed : Finset String}
    {e : ScheduledEvent} (hbuiltin : e.action.isBuiltin = true)
    (h : checkBuiltinEvent validators executed e = .ok ()) : e.id ∈ builtinIds := by
  unfold checkBuiltinEvent at h
  cases haction : e.action with
  | bootstrapValidatorReward registrations amount =>
    simp only [haction, bind_eq_ok, ensure_eq_ok] at h
    obtain ⟨_, hid, _⟩ := h
    simp [builtinIds, hid]
  | nodeMilestoneReward registrations amount =>
    simp only [haction, bind_eq_ok, ensure_eq_ok] at h
    obtain ⟨_, hid, _⟩ := h
    simp [builtinIds, hid]
  | _ => simp [haction, ScheduledEventAction.isBuiltin] at hbuiltin

/-- Every event of a block that fits the schedule is configured, or is a built-in one. -/
lemma Scheduled.mem_events {validators : List Validator} {schedule : EventSchedule}
    {chain : Blockchain} {block : Block} (h : Scheduled validators schedule chain block)
    {e : ScheduledEvent} (he : e ∈ block.systemEvents) :
    e ∈ schedule.events ∨ (e.action.isBuiltin = true ∧ e.id ∈ builtinIds) := by
  cases hkind : e.action.isBuiltin with
  | true => exact .inr ⟨rfl, checkBuiltinEvent_id hkind (forM_eq_ok.mp h.builtin e he)⟩
  | false =>
    have hconfigured := h.configured
    simp only [EventSchedule.validateBlockEvents, ensure_eq_ok] at hconfigured
    have hmem : e ∈ configuredEvents block := List.mem_filter.mpr ⟨he, by rw [hkind]; rfl⟩
    rw [hconfigured] at hmem
    exact .inl (EventSchedule.mem_due.mp hmem).1

/-- A configured event is in a block that fits the schedule exactly when it is due and new. -/
lemma Scheduled.mem_iff {validators : List Validator} {schedule : EventSchedule}
    {chain : Blockchain} {block : Block} (h : Scheduled validators schedule chain block)
    {e : ScheduledEvent} (he : e ∈ schedule.events) (hkind : e.action.isBuiltin = false) :
    e ∈ block.systemEvents ↔ e.executeAt ≤ block.timestamp ∧ e.id ∉ chain.executedEvents := by
  have hconfigured := h.configured
  simp only [EventSchedule.validateBlockEvents, ensure_eq_ok] at hconfigured
  have hmem : e ∈ block.systemEvents ↔ e ∈ configuredEvents block := by
    rw [configuredEvents, List.mem_filter, hkind]
    simp
  rw [hmem, hconfigured, EventSchedule.mem_due]
  exact ⟨fun h => h.2, fun h => ⟨he, h⟩⟩

end ConsensusRuntime

/-! ## The order of due events -/

instance : Std.Total EventSchedule.eventLe where
  total a b := by
    unfold EventSchedule.eventLe
    rcases lt_trichotomy a.executeAt.toNat b.executeAt.toNat with h | h | h
    · exact .inl (.inl (UInt64.lt_iff_toNat_lt.mpr h))
    · have heq := UInt64.toNat_inj.mp h
      rcases le_total a.id b.id with hid | hid
      · exact .inl (.inr ⟨heq, hid⟩)
      · exact .inr (.inr ⟨heq.symm, hid⟩)
    · exact .inr (.inl (UInt64.lt_iff_toNat_lt.mpr h))

instance : IsTrans ScheduledEvent EventSchedule.eventLe where
  trans a b c hab hbc := by
    rcases hab with hab | ⟨hab, hid⟩ <;> rcases hbc with hbc | ⟨hbc, hid'⟩
    · exact .inl (UInt64.lt_trans hab hbc)
    · exact .inl (hbc ▸ hab)
    · exact .inl (hab ▸ hbc)
    · exact .inr ⟨hab.trans hbc, le_trans hid hid'⟩

/-! ## The chain -/

/-- The chains that grow from the genesis block by blocks that pass `validate_scheduled_block` at
some runtime with the chain and the schedule, and are then applied. -/
inductive Grows (schedule : EventSchedule) (chainId : UInt64) (initial : List (String × U128)) :
    Blockchain → Prop where
  | genesis : Grows schedule chainId initial (Blockchain.withChainId chainId initial)
  | block (r : ConsensusRuntime) (now : Option UInt64) (block : Block) (chain : Blockchain)
      (h : Grows schedule chainId initial r.chain) (hschedule : r.eventSchedule = schedule)
      (hvalid : r.validateScheduledBlock now block = .ok ())
      (happly : r.chain.applyBlock block = .ok chain) : Grows schedule chainId initial chain

/-- The ids of all events of a chain. -/
def Blockchain.eventIds (c : Blockchain) : List String :=
  (c.blocks.flatMap Block.systemEvents).map ScheduledEvent.id

/-- The block is the first of the chain that is not before the time. -/
def Blockchain.FirstAt (c : Blockchain) (time : UInt64) (place : ℕ) (block : Block) : Prop :=
  time ≤ block.timestamp ∧
    ∀ i < place, ∀ earlier, c.blocks[i]? = some earlier → earlier.timestamp < time

section
variable {c c' : Blockchain} {block : Block} {time : UInt64}

omit [Primitives] in
lemma eventIds_of_append (h : c'.blocks = c.blocks ++ [block]) :
    c'.eventIds = c.eventIds ++ block.systemEvents.map ScheduledEvent.id := by
  simp only [Blockchain.eventIds, h, List.flatMap_append, List.map_append, List.flatMap_cons,
    List.flatMap_nil, List.append_nil]

omit [Primitives] in
/-- A new block does not change which of the blocks before it is the first. -/
lemma firstAt_of_append (h : c'.blocks = c.blocks ++ [block]) {place : ℕ} {b : Block}
    (hplace : place < c.blocks.length) :
    c'.FirstAt time place b ↔ c.FirstAt time place b := by
  refine and_congr_right fun _ => forall_congr' fun i => forall_congr' fun hi => ?_
  rw [h, List.getElem?_append_left (hi.trans hplace)]

omit [Primitives] in
/-- The new block is the first unless one before is late enough. -/
lemma firstAt_of_append_self (h : c'.blocks = c.blocks ++ [block]) :
    c'.FirstAt time c.blocks.length block ↔
      time ≤ block.timestamp ∧ ¬ ∃ b ∈ c.blocks, time ≤ b.timestamp := by
  refine and_congr_right fun _ => ?_
  constructor
  · rintro hall ⟨earlier, hearlier, htime⟩
    obtain ⟨i, hi⟩ := List.mem_iff_getElem?.mp hearlier
    obtain ⟨hlt, _⟩ := List.getElem?_eq_some_iff.mp hi
    have hbefore := hall i hlt earlier (by rw [h, List.getElem?_append_left hlt, hi])
    exact absurd htime (UInt64.not_le.mpr hbefore)
  · intro hnone i hi earlier hearlier
    rw [h, List.getElem?_append_left hi] at hearlier
    by_contra hlate
    exact hnone ⟨earlier, List.mem_of_getElem? hearlier, UInt64.not_lt.mp hlate⟩

end

/-- The invariant of a chain that follows a schedule. -/
structure Follows (schedule : EventSchedule) (c : Blockchain) : Prop where
  executed : c.executedEvents = c.eventIds.toFinset
  nodup : c.eventIds.Nodup
  known : ∀ block ∈ c.blocks, ∀ e ∈ block.systemEvents,
    e ∈ schedule.events ∨ (e.action.isBuiltin = true ∧ e.id ∈ builtinIds)
  ordered : ∀ block ∈ c.blocks,
    (ConsensusRuntime.configuredEvents block).Pairwise EventSchedule.eventLe
  onTime : ∀ e ∈ schedule.events, ∀ place block, c.blocks[place]? = some block →
    (e ∈ block.systemEvents ↔ c.FirstAt e.executeAt place block)

omit [Primitives] in
/-- A configured event was executed exactly when some block was late enough for it. -/
lemma Follows.executed_iff {schedule : EventSchedule} {c : Blockchain} (h : Follows schedule c)
    (hnodup : (schedule.events.map ScheduledEvent.id).Nodup) {e : ScheduledEvent}
    (he : e ∈ schedule.events) (hid : e.id ∉ builtinIds) :
    e.id ∈ c.executedEvents ↔ ∃ block ∈ c.blocks, e.executeAt ≤ block.timestamp := by
  constructor
  · intro hmem
    rw [h.executed, List.mem_toFinset, Blockchain.eventIds] at hmem
    obtain ⟨e', he', heq⟩ := List.mem_map.mp hmem
    obtain ⟨block, hblock, he'⟩ := List.mem_flatMap.mp he'
    -- the event with this id is no built-in one, so that it is the configured one
    rcases h.known block hblock e' he' with hknown | ⟨_, hbuiltin⟩
    · obtain rfl : e' = e := List.inj_on_of_nodup_map hnodup hknown he heq
      obtain ⟨place, hplace⟩ := List.mem_iff_getElem?.mp hblock
      exact ⟨block, hblock, ((h.onTime e' he place block hplace).mp he').1⟩
    · rw [heq] at hbuiltin
      exact absurd hbuiltin hid
  · rintro ⟨block, hblock, htime⟩
    obtain ⟨place, hplace⟩ := List.mem_iff_getElem?.mp hblock
    classical
    -- the first block that is late enough has the event
    have hsome : ∃ i, ∃ b : Block, c.blocks[i]? = some b ∧ e.executeAt ≤ b.timestamp :=
      ⟨place, block, hplace, htime⟩
    obtain ⟨b, hb, hbtime⟩ := Nat.find_spec hsome
    have hfirst : c.FirstAt e.executeAt (Nat.find hsome) b := by
      refine ⟨hbtime, fun i hi earlier hearlier => ?_⟩
      by_contra hlate
      exact Nat.find_min hsome hi ⟨earlier, hearlier, UInt64.not_lt.mp hlate⟩
    have hin := (h.onTime e he _ b hb).mpr hfirst
    rw [h.executed, List.mem_toFinset, Blockchain.eventIds]
    exact List.mem_map_of_mem (List.mem_flatMap.mpr ⟨b, List.mem_of_getElem? hb, hin⟩)

/-- The genesis block has no events, and no event is configured for the time 0. -/
lemma follows_genesis {schedule : EventSchedule} (hvalid : schedule.validate = .ok ())
    (chainId : UInt64) (initial : List (String × U128)) :
    Follows schedule (Blockchain.withChainId chainId initial) := by
  have honly : ∀ block ∈ (Blockchain.withChainId chainId initial).blocks,
      block = Block.genesis := fun block hblock => List.mem_singleton.mp hblock
  refine ⟨rfl, List.nodup_nil, ?_, ?_, ?_⟩
  · intro block hblock e he
    rw [honly block hblock] at he
    cases he
  · intro block hblock
    rw [honly block hblock]
    exact .nil
  · intro e he place block hplace
    rw [honly block (List.mem_of_getElem? hplace)]
    have hevent := (EventSchedule.validate_eq_ok.mp hvalid).1 e he
    simp only [ScheduledEvent.validate, bind_eq_ok, ensure_eq_ok] at hevent
    obtain ⟨_, _, _, hne, _⟩ := hevent
    constructor
    · intro hmem
      cases hmem
    · rintro ⟨htime, _⟩
      exact absurd (UInt64.le_antisymm htime UInt64.zero_le) hne

/-- A block that fits the schedule and is applied keeps the invariant. -/
lemma Follows.block {schedule : EventSchedule} {r : ConsensusRuntime} {now : Option UInt64}
    {block : Block} {chain : Blockchain} (h : Follows schedule r.chain)
    (hschedule : r.eventSchedule = schedule)
    (hkind : ∀ e ∈ schedule.events, e.action.isBuiltin = false ∧ e.id ∉ builtinIds)
    (hvalid : r.validateScheduledBlock now block = .ok ())
    (happly : r.chain.applyBlock block = .ok chain) : Follows schedule chain := by
  obtain ⟨hscheduled, _⟩ := ConsensusRuntime.validateScheduledBlock_eq_ok.mp hvalid
  have hnodup := (EventSchedule.validate_eq_ok.mp r.scheduleValid).2
  rw [hschedule] at hscheduled hnodup
  obtain ⟨hexecuted, hnew, hids, hblocks⟩ := applyBlock_events happly
  have heventIds := eventIds_of_append hblocks
  have hmem : ∀ b ∈ chain.blocks, b ∈ r.chain.blocks ∨ b = block := by
    intro b hb
    rw [hblocks] at hb
    rcases List.mem_append.mp hb with hb | hb
    · exact .inl hb
    · exact .inr (List.mem_singleton.mp hb)
  refine ⟨?_, ?_, fun b hb => ?_, fun b hb => ?_, fun e he place b hb => ?_⟩
  · rw [hexecuted, heventIds, List.toFinset_append, h.executed]
  · rw [heventIds]
    refine List.nodup_append.mpr ⟨h.nodup, hids, fun id hid id' hid' heq => ?_⟩
    obtain ⟨e, he, rfl⟩ := List.mem_map.mp hid'
    refine hnew e he ?_
    rw [h.executed, List.mem_toFinset, ← heq]
    exact hid
  · rcases hmem b hb with hb | rfl
    · exact h.known b hb
    · exact fun e he => hscheduled.mem_events he
  · rcases hmem b hb with hb | rfl
    · exact h.ordered b hb
    · have hconfigured := hscheduled.configured
      simp only [EventSchedule.validateBlockEvents, ensure_eq_ok] at hconfigured
      rw [hconfigured]
      exact List.pairwise_insertionSort _ _
  · rw [hblocks] at hb
    rcases Nat.lt_or_ge place r.chain.blocks.length with hlt | hge
    · -- the blocks before stay where they are
      rw [List.getElem?_append_left hlt] at hb
      rw [h.onTime e he place b hb, firstAt_of_append hblocks hlt]
    · -- the new block has the event unless a block before was late enough
      rw [List.getElem?_append_right hge] at hb
      obtain ⟨hplace, hb⟩ := List.getElem?_eq_some_iff.mp hb
      have heq : place = r.chain.blocks.length := by
        rw [List.length_singleton] at hplace
        omega
      obtain rfl : block = b := by simpa using hb
      rw [hscheduled.mem_iff he (hkind e he).1, h.executed_iff hnodup he (hkind e he).2, heq,
        firstAt_of_append_self hblocks]

lemma Grows.follows {schedule : EventSchedule} {chainId : UInt64}
    {initial : List (String × U128)} {c : Blockchain}
    (hvalid : schedule.validate = .ok ())
    (hkind : ∀ e ∈ schedule.events, e.action.isBuiltin = false ∧ e.id ∉ builtinIds)
    (h : Grows schedule chainId initial c) : Follows schedule c := by
  induction h with
  | genesis => exact follows_genesis hvalid chainId initial
  | block r now block chain _ hschedule hblock happly ih =>
    exact ih.block hschedule hkind hblock happly

/-- **Configured events run exactly once, on time and in order.** Fix a valid schedule without
built-in rewards and without their ids, and let a chain grow from the genesis block by blocks that
fit it. The executed events are those of the blocks, and no id occurs twice in the chain. A
configured event is in the first block whose time is not before its own and in no other, and the
configured events of a block are ordered by time and id. -/
theorem configured_events_run_once (schedule : EventSchedule)
    (hvalid : schedule.validate = .ok ())
    (hkind : ∀ e ∈ schedule.events, e.action.isBuiltin = false ∧ e.id ∉ builtinIds)
    (chainId : UInt64) (initial : List (String × U128)) (c : Blockchain)
    (h : Grows schedule chainId initial c) :
    c.executedEvents = c.eventIds.toFinset ∧ c.eventIds.Nodup ∧
      (∀ e ∈ schedule.events, ∀ place block, c.blocks[place]? = some block →
        (e ∈ block.systemEvents ↔ c.FirstAt e.executeAt place block)) ∧
      ∀ block ∈ c.blocks,
        (∀ e ∈ ConsensusRuntime.configuredEvents block, e ∈ schedule.events) ∧
          (ConsensusRuntime.configuredEvents block).Pairwise EventSchedule.eventLe := by
  have hfollows := h.follows hvalid hkind
  refine ⟨hfollows.executed, hfollows.nodup, hfollows.onTime, fun block hblock => ?_⟩
  refine ⟨fun e he => ?_, hfollows.ordered block hblock⟩
  obtain ⟨hevent, hother⟩ := List.mem_filter.mp he
  rcases hfollows.known block hblock e hevent with hknown | ⟨hbuiltin, _⟩
  · exact hknown
  · simp [hbuiltin] at hother

/-- A block with its hash filled in. -/
def Block.sealed (b : Block) : Block := { b with hash := b.calculateHash }

lemma Block.sealed_hash (b : Block) : b.sealed.hash = b.sealed.calculateHash := rfl

end

section
attribute [local instance] Devnet.primitives

/-- An event for the time 50. -/
def checkpoint : ScheduledEvent := ⟨"checkpoint", 50, .protocolCheckpoint 1⟩

/-- A block at the time 100 that carries the event, up to its hash. -/
def checkpointDraft : Block :=
  { height := 1, previousHash := Block.genesis.hash, timestamp := 100, producer := Devnet.validator
    transactions := [], systemEvents := [checkpoint], hash := "" }

/-- The block with its hash. -/
def checkpointBlock : Block := checkpointDraft.sealed

lemma checkpoint_applies :
    ∃ c, Devnet.chain.applyBlock checkpointBlock = .ok c ∧
      c.blocks = [Block.genesis, checkpointBlock] := by
  have hevents : applySystemEvents [checkpoint] 100 (Devnet.chain.balances, ∅)
      = .ok (Devnet.chain.balances, {"checkpoint"}) := by
    refine foldlM_cons_eq_ok.mpr ⟨(Devnet.chain.balances, {"checkpoint"}),
      applySystemEvent_eq_ok.mpr ⟨by decide, by decide, by decide, rfl, rfl⟩, rfl⟩
  have hlinks : Blockchain.Links Block.genesis checkpointBlock :=
    ⟨by decide, rfl, Block.sealed_hash checkpointDraft⟩
  exact ⟨_, Blockchain.applyBlock_eq_ok.mpr ⟨Block.genesis,
    ⟨Devnet.chain.balances, ∅, {"checkpoint"}⟩, rfl, hlinks,
    executeBlock_eq_ok.mpr ⟨_, rfl, hevents⟩, rfl⟩, rfl⟩

/-- The event of a schedule with one event runs in the block at the time 100. -/
theorem configured_events_run_once_checkpoint :
    ∃ c, c.blocks = [Block.genesis, checkpointBlock] ∧
      Grows ⟨[checkpoint]⟩ 1 [(Devnet.validator, 1000)] c ∧
      c.FirstAt checkpoint.executeAt 1 checkpointBlock ∧ c.executedEvents = {"checkpoint"} := by
  obtain ⟨c, hc, hblocks⟩ := checkpoint_applies
  have hvalid : EventSchedule.validate ⟨[checkpoint]⟩ = .ok () := by decide
  have hgrows : Grows ⟨[checkpoint]⟩ 1 [(Devnet.validator, 1000)] c := by
    refine .block { Devnet.node with eventSchedule := ⟨[checkpoint]⟩, scheduleValid := hvalid }
      (some 100) checkpointBlock c .genesis rfl ?_ hc
    exact ConsensusRuntime.validateScheduledBlock_eq_ok.mpr ⟨⟨⟨Block.genesis, rfl, by decide⟩,
      rfl, rfl⟩, ConsensusRuntime.clockAllows_of_le (by decide)⟩
  obtain ⟨hexecuted, _, honTime, _⟩ := configured_events_run_once ⟨[checkpoint]⟩ hvalid
    (by decide) 1 [(Devnet.validator, 1000)] c hgrows
  refine ⟨c, hblocks, hgrows, ?_, ?_⟩
  · exact (honTime checkpoint (List.mem_singleton_self _) 1 checkpointBlock
      (by rw [hblocks]; rfl)).mp (List.mem_singleton_self _)
  · rw [hexecuted, Blockchain.eventIds, hblocks]
    rfl

end

end IeumChain
