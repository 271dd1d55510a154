import IeumChain.Devnet

/-!
# Proposals and execution

`receive_proposal` checks a block's link, time and events before the node prevotes it, and
`apply_block` executes it once it is final. `receiveProposal_executable` says which checks of the
second are implied by the first, and what remains: the transactions, the time of the built-in
events, repeated event ids and the foundation's funds are looked at only when the block is
already final.
-/

namespace IeumChain

open Lib

section
variable [Primitives]

/-! ## Events -/

/-- The events of a block execute exactly when each is valid, due and new, no id is repeated and
all their payments can be made. -/
lemma applySystemEvents_isOk {blockTimestamp : UInt64} {events : List ScheduledEvent} :
    ∀ (balances : Balances) (executed : Finset String),
      (∃ state, applySystemEvents events blockTimestamp (balances, executed) = .ok state) ↔
        (∀ e ∈ events, e.validate = .ok () ∧ e.executeAt ≤ blockTimestamp ∧ e.id ∉ executed) ∧
        (events.map ScheduledEvent.id).Nodup ∧
        ∃ paid, payFromFoundation balances (events.flatMap fun e => e.action.payments)
          = .ok paid := by
  induction events with
  | nil =>
    intro balances executed
    simp [applySystemEvents, payFromFoundation, pure, Except.pure]
  | cons e rest ih =>
    intro balances executed
    have hcons : ∀ state, applySystemEvents (e :: rest) blockTimestamp (balances, executed)
        = .ok state ↔ ∃ mid, applySystemEvent blockTimestamp (balances, executed) e = .ok mid ∧
          applySystemEvents rest blockTimestamp mid = .ok state := fun state => foldlM_cons_eq_ok
    have hpay : ∀ paid, payFromFoundation balances
        ((e :: rest).flatMap fun e => e.action.payments) = .ok paid ↔
        ∃ mid, payFromFoundation balances e.action.payments = .ok mid ∧
          payFromFoundation mid (rest.flatMap fun e => e.action.payments) = .ok paid := by
      intro paid
      rw [List.flatMap_cons, payFromFoundation, List.foldlM_append, bind_eq_ok]
      rfl
    simp only [hcons, hpay, applySystemEvent_eq_ok, List.map_cons, List.nodup_cons,
      List.forall_mem_cons]
    constructor
    · rintro ⟨state, ⟨mid, executed'⟩, ⟨hvalid, hdue, hnew, hmid, rfl⟩, hrest⟩
      obtain ⟨hall, hnodup, paid, hpaid⟩ := (ih _ _).mp ⟨state, hrest⟩
      refine ⟨⟨⟨hvalid, hdue, hnew⟩, fun e' he' => ?_⟩, ⟨?_, hnodup⟩, paid, mid, hmid, hpaid⟩
      · obtain ⟨hvalid', hdue', hnew'⟩ := hall e' he'
        exact ⟨hvalid', hdue', fun hmem => hnew' (Finset.mem_insert_of_mem hmem)⟩
      · intro hmem
        obtain ⟨e', he', hid⟩ := List.mem_map.mp hmem
        exact (hall e' he').2.2 (hid ▸ Finset.mem_insert_self _ _)
    · rintro ⟨⟨⟨hvalid, hdue, hnew⟩, hall⟩, ⟨hfresh, hnodup⟩, paid, mid, hmid, hpaid⟩
      have hrest := (ih mid (insert e.id executed)).mpr ⟨fun e' he' => ?_, hnodup, paid, hpaid⟩
      · obtain ⟨state, hstate⟩ := hrest
        exact ⟨state, (mid, insert e.id executed), ⟨hvalid, hdue, hnew, hmid, rfl⟩, hstate⟩
      · obtain ⟨hvalid', hdue', hnew'⟩ := hall e' he'
        refine ⟨hvalid', hdue', fun hmem => ?_⟩
        rcases Finset.mem_insert.mp hmem with heq | hmem
        · exact hfresh (List.mem_map.mpr ⟨e', he', heq⟩)
        · exact hnew' hmem

/-- A schedule is valid exactly when its events are and no id is repeated. -/
lemma EventSchedule.validate_eq_ok {s : EventSchedule} :
    s.validate = .ok () ↔
      (∀ e ∈ s.events, e.validate = .ok ()) ∧ (s.events.map ScheduledEvent.id).Nodup := by
  suffices hall : ∀ (l : List ScheduledEvent) (ids : Finset String),
      (∃ ids', l.foldlM EventSchedule.checkEvent ids = .ok ids') ↔
        (∀ e ∈ l, e.validate = .ok () ∧ e.id ∉ ids) ∧ (l.map ScheduledEvent.id).Nodup by
    simp only [EventSchedule.validate, bind_eq_ok, pure_eq_ok, and_true, hall s.events ∅,
      Finset.notMem_empty, not_false_eq_true]
  intro l
  induction l with
  | nil => simp [pure, Except.pure]
  | cons e rest ih =>
    intro ids
    simp only [foldlM_cons_eq_ok, EventSchedule.checkEvent, bind_eq_ok, ensure_eq_ok, pure_eq_ok,
      List.forall_mem_cons, List.map_cons, List.nodup_cons]
    constructor
    · rintro ⟨ids', mid, ⟨_, hvalid, _, hnew, rfl⟩, hrest⟩
      obtain ⟨hall, hnodup⟩ := (ih _).mp ⟨ids', hrest⟩
      refine ⟨⟨⟨hvalid, hnew⟩, fun e' he' => ⟨(hall e' he').1, ?_⟩⟩, ?_, hnodup⟩
      · exact fun hmem => (hall e' he').2 (Finset.mem_insert_of_mem hmem)
      · intro hmem
        obtain ⟨e', he', hid⟩ := List.mem_map.mp hmem
        exact (hall e' he').2 (hid ▸ Finset.mem_insert_self _ _)
    · rintro ⟨⟨⟨hvalid, hnew⟩, hall⟩, hfresh, hnodup⟩
      have hrest : ∀ e' ∈ rest, e'.validate = .ok () ∧ e'.id ∉ insert e.id ids := by
        intro e' he'
        refine ⟨(hall e' he').1, fun hmem => ?_⟩
        rcases Finset.mem_insert.mp hmem with heq | hmem
        · exact hfresh (List.mem_map.mpr ⟨e', he', heq⟩)
        · exact (hall e' he').2 hmem
      obtain ⟨ids', hids'⟩ := (ih (insert e.id ids)).mpr ⟨hrest, hnodup⟩
      exact ⟨ids', _, ⟨(), hvalid, (), hnew, rfl⟩, hids'⟩

omit [Primitives] in
/-- The events the schedule has due are those configured, due and new. -/
lemma EventSchedule.mem_due {s : EventSchedule} {timestamp : UInt64} {executed : Finset String}
    {e : ScheduledEvent} : e ∈ s.due timestamp executed ↔
      e ∈ s.events ∧ e.executeAt ≤ timestamp ∧ e.id ∉ executed := by
  rw [EventSchedule.due, List.mem_insertionSort, List.mem_filter, decide_eq_true_eq]

namespace ConsensusRuntime

/-- A built-in event that passes its check is valid and new. -/
lemma checkBuiltinEvent_eq_ok {validators : List Validator} {executed : Finset String}
    {e : ScheduledEvent} (hbuiltin : e.action.isBuiltin = true)
    (h : checkBuiltinEvent validators executed e = .ok ()) :
    e.validate = .ok () ∧ e.id ∉ executed := by
  unfold checkBuiltinEvent at h
  split at h
  · simp only [bind_eq_ok, ensure_eq_ok] at h
    obtain ⟨_, _, _, _, _, hvalid, hnew⟩ := h
    exact ⟨hvalid, hnew⟩
  · simp only [bind_eq_ok, ensure_eq_ok] at h
    obtain ⟨_, _, _, hvalid, hnew⟩ := h
    exact ⟨hvalid, hnew⟩
  · rename_i hother _
    cases ha : e.action <;> simp_all [ScheduledEventAction.isBuiltin]

/-- The events of a block that fits the schedule are valid and new, and those of the schedule are
due. -/
lemma validateScheduledBlock_events {r : ConsensusRuntime} {now : Option UInt64} {block : Block}
    (h : r.validateScheduledBlock now block = .ok ()) :
    ∀ e ∈ block.systemEvents, e.validate = .ok () ∧ e.id ∉ r.chain.executedEvents ∧
      (e.action.isBuiltin = false → e.executeAt ≤ block.timestamp) := by
  simp only [validateScheduledBlock, bind_eq_ok, ensure_eq_ok,
    EventSchedule.validateBlockEvents] at h
  obtain ⟨_, _, _, _, _, _, _, _, _, hconfigured, hbuiltin⟩ := h
  intro e he
  cases hkind : e.action.isBuiltin with
  | true =>
    obtain ⟨hvalid, hnew⟩ := checkBuiltinEvent_eq_ok hkind (forM_eq_ok.mp hbuiltin e he)
    exact ⟨hvalid, hnew, by simp⟩
  | false =>
    have hmem : e ∈ configuredEvents block :=
      List.mem_filter.mpr ⟨he, by rw [hkind]; rfl⟩
    rw [hconfigured] at hmem
    obtain ⟨hevents, hdue, hnew⟩ := EventSchedule.mem_due.mp hmem
    exact ⟨(EventSchedule.validate_eq_ok.mp r.scheduleValid).1 e hevents, hnew, fun _ => hdue⟩

end ConsensusRuntime

/-! ## Execution -/

/-- What `receive_proposal` leaves unchecked of a block: its transactions, the time of its
built-in events, repeated ids, and whether the foundation can pay. -/
structure Executable (chain : Blockchain) (block : Block) : Prop where
  builtinDue : ∀ e ∈ block.systemEvents, e.action.isBuiltin = true →
    e.executeAt ≤ block.timestamp
  distinct : (block.systemEvents.map ScheduledEvent.id).Nodup
  affordable : ∃ balances nonces paid,
    applyTransactions chain.chainId block.transactions block.producer
      (chain.balances, chain.nextNonces) = .ok (balances, nonces) ∧
    payFromFoundation balances (block.systemEvents.flatMap fun e => e.action.payments) = .ok paid

/-- A block with valid and new events executes exactly when what is left unchecked holds. -/
lemma executeBlock_isOk {chain : Blockchain} {block : Block}
    (hevents : ∀ e ∈ block.systemEvents, e.validate = .ok () ∧ e.id ∉ chain.executedEvents ∧
      (e.action.isBuiltin = false → e.executeAt ≤ block.timestamp)) :
    (∃ state, executeBlock chain.chainId chain.state block = .ok state) ↔
      Executable chain block := by
  constructor
  · rintro ⟨state, hstate⟩
    obtain ⟨balances, htxs, hsys⟩ := executeBlock_eq_ok.mp hstate
    obtain ⟨hall, hnodup, paid, hpaid⟩ := (applySystemEvents_isOk _ _).mp ⟨_, hsys⟩
    exact ⟨fun e he _ => (hall e he).2.1, hnodup, balances, _, paid, htxs, hpaid⟩
  · rintro ⟨hbuiltin, hnodup, balances, nonces, paid, htxs, hpaid⟩
    have hall : ∀ e ∈ block.systemEvents,
        e.validate = .ok () ∧ e.executeAt ≤ block.timestamp ∧ e.id ∉ chain.executedEvents := by
      intro e he
      obtain ⟨hvalid, hnew, hdue⟩ := hevents e he
      refine ⟨hvalid, ?_, hnew⟩
      cases hkind : e.action.isBuiltin with
      | true => exact hbuiltin e he hkind
      | false => exact hdue hkind
    obtain ⟨⟨balances', executed⟩, hsys⟩ :=
      (applySystemEvents_isOk _ _).mpr ⟨hall, hnodup, paid, hpaid⟩
    exact ⟨⟨balances', nonces, executed⟩, executeBlock_eq_ok.mpr ⟨balances, htxs, hsys⟩⟩

namespace ConsensusRuntime

/-- **Which proposals can be executed.** A proposal the node prevotes can be applied to its chain
exactly when the checks `receive_proposal` leaves out hold. -/
theorem receiveProposal_executable (r : ConsensusRuntime) (env : Reading) (p : SignedProposal)
    (m : ConsensusMessage) (h : (r.receiveProposal env p).1 = .ok m) :
    (∃ chain, r.chain.applyBlock p.block = .ok chain) ↔ Executable r.chain p.block := by
  unfold receiveProposal at h
  cases haccept : r.acceptProposal env p with
  | error e => simp [haccept] at h
  | ok r' =>
    obtain ⟨hfits, consensus, hc, _⟩ := acceptProposal_eq_ok haccept
    obtain ⟨_, _, hverify, _⟩ := BftConsensus.handleProposal_eq_ok hc
    simp only [SignedProposal.verify, bind_eq_ok, ensure_eq_ok] at hverify
    obtain ⟨_, _, _, hhash, _⟩ := hverify
    rw [← executeBlock_isOk (validateScheduledBlock_events hfits.scheduled)]
    -- the link and the hash were checked with the proposal, what is left is the execution
    constructor
    · rintro ⟨chain, hchain⟩
      obtain ⟨_, state, _, _, hstate, _⟩ := Blockchain.applyBlock_eq_ok.mp hchain
      exact ⟨state, hstate⟩
    · rintro ⟨state, hstate⟩
      have hscheduled := hfits.scheduled
      simp only [validateScheduledBlock, bind_eq_ok, okOr_eq_ok] at hscheduled
      obtain ⟨previous, hlast, _⟩ := hscheduled
      obtain ⟨htip, htipHash⟩ := Blockchain.tipHeight_of_getLast hlast
      refine ⟨_, Blockchain.applyBlock_eq_ok.mpr ⟨previous, state, hlast, ⟨?_, ?_, hhash⟩, hstate, rfl⟩⟩
      · rw [← htip]
        exact hfits.height
      · rw [← htipHash]
        exact hfits.previousHash

end ConsensusRuntime

end

namespace ConsensusRuntime

section
attribute [local instance] Devnet.primitives

/-- The proposal of the first block is answered with a prevote, and the block is executable. -/
theorem receiveProposal_first :
    (Devnet.node.receiveProposal (Devnet.reading Devnet.firstPrevote.signature)
        Devnet.firstProposal).1 = .ok Devnet.firstPrevote ∧
      Executable Devnet.node.chain Devnet.firstProposal.block := by
  obtain ⟨after, hreceive, _⟩ := Devnet.node_receives_first
  have hok : (Devnet.node.receiveProposal (Devnet.reading Devnet.firstPrevote.signature)
      Devnet.firstProposal).1 = .ok Devnet.firstPrevote := by rw [hreceive]
  exact ⟨hok, (receiveProposal_executable _ _ _ _ hok).mp ⟨_, Devnet.first_applies⟩⟩

/-- A block whose transaction spends coins its sender does not have is answered with a prevote,
and cannot be applied. -/
theorem receiveProposal_overdrawn :
    (Devnet.node.receiveProposal (Devnet.reading Devnet.overdrawnPrevote.signature)
        Devnet.overdrawnProposal).1 = .ok Devnet.overdrawnPrevote ∧
      ¬ ∃ chain, Devnet.node.chain.applyBlock Devnet.overdrawnProposal.block = .ok chain := by
  obtain ⟨after, hreceive, _⟩ := Devnet.node_receives_overdrawn
  refine ⟨by rw [hreceive], ?_⟩
  rintro ⟨chain, happly⟩
  obtain ⟨_, state, _, _, hstate, _⟩ := Blockchain.applyBlock_eq_ok.mp happly
  obtain ⟨balances, htxs, _⟩ := executeBlock_eq_ok.mp hstate
  obtain ⟨⟨balances', nonces'⟩, htx, _⟩ := foldlM_cons_eq_ok.mp htxs
  obtain ⟨_, _, _, htransfers, _⟩ := applyTransaction_eq_ok htx
  obtain ⟨total, _, _, _, _, _, _, htotal, hfunds, _⟩ := htransfers.moved
  -- the user has no entry, and pays 15
  have hbalance : balanceIn Devnet.node.chain.balances Devnet.user = 0 := by
    simp [balanceIn, Devnet.node, Devnet.chain, Blockchain.withChainId, HashMap.ofList,
      Devnet.user_ne_validator]
  have hsum : total.toNat = 15 := U128.checkedAdd_eq_some.mp htotal
  change total ≤ balanceIn Devnet.node.chain.balances Devnet.user at hfunds
  rw [hbalance, BitVec.le_def, hsum] at hfunds
  exact absurd hfunds (by decide)

end

end ConsensusRuntime

end IeumChain
