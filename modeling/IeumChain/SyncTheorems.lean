import IeumChain.Devnet

/-!
# Synchronisation

A node that was away asks another one for the certificates above its tip, applies what it gets
and asks again. The certificates of a node that started at the genesis block lead from there to
its chain, one for each height (`Finalizes`), and every one of them passes the checks at the
other node that it passed at the first, as none of these depends on the node but the one against
the clock. So each answer is applied completely, an answer is empty only at the end, and the two
chains become equal.
-/

namespace IeumChain

open Lib

namespace ConsensusRuntime

section
variable [Primitives]

/-! ## Checks that do not depend on the node -/

/-- `validate_scheduled_block` without the clock: what it says about a chain and a block. -/
structure Scheduled (validators : List Validator) (schedule : EventSchedule) (chain : Blockchain)
    (block : Block) : Prop where
  after : ∃ previous, chain.blocks.getLast? = some previous ∧
    previous.timestamp ≤ block.timestamp
  configured : schedule.validateBlockEvents block.timestamp (configuredEvents block)
    chain.executedEvents = .ok ()
  builtin : block.systemEvents.forM (checkBuiltinEvent validators chain.executedEvents) = .ok ()

/-- The clock of a reading allows the time of a block. -/
def ClockAllows (now : Option UInt64) (block : Block) : Prop :=
  ∃ t, now = some t ∧
    block.timestamp.toNat ≤ min (t.toNat + maxClockDriftSeconds) (2 ^ 64 - 1)

lemma validateScheduledBlock_eq_ok {r : ConsensusRuntime} {now : Option UInt64} {block : Block} :
    r.validateScheduledBlock now block = .ok () ↔
      Scheduled r.validators r.eventSchedule r.chain block ∧ ClockAllows now block := by
  simp only [validateScheduledBlock, bind_eq_ok, okOr_eq_ok, ensure_eq_ok]
  constructor
  · rintro ⟨previous, hlast, _, htime, t, hnow, _, hclock, _, hconfigured, hbuiltin⟩
    exact ⟨⟨⟨previous, hlast, htime⟩, hconfigured, hbuiltin⟩, t, hnow, hclock⟩
  · rintro ⟨⟨⟨previous, hlast, htime⟩, hconfigured, hbuiltin⟩, t, hnow, hclock⟩
    exact ⟨previous, hlast, (), htime, t, hnow, (), hclock, (), hconfigured, hbuiltin⟩

omit [Primitives] in
/-- A clock that is not behind a block allows it. -/
lemma clockAllows_of_le {t : UInt64} {block : Block} (h : block.timestamp ≤ t) :
    ClockAllows (some t) block := by
  refine ⟨t, rfl, ?_⟩
  have hle := UInt64.le_iff_toNat_le.mp h
  have hlt := block.timestamp.toNat_lt
  omega

/-! ## Chains of certificates -/

/-- The certificates lead from one chain to another: each is valid, fits the schedule and its
block is applied. -/
inductive Finalizes (validators : List Validator) (schedule : EventSchedule) :
    Blockchain → List FinalityCertificate → Blockchain → Prop where
  | nil (chain : Blockchain) : Finalizes validators schedule chain [] chain
  | cons {chain mid chain' : Blockchain} {c : FinalityCertificate} {l : List FinalityCertificate}
      (hverify : c.verify validators = .ok ())
      (hscheduled : Scheduled validators schedule chain c.block)
      (happly : chain.applyBlock c.block = .ok mid)
      (h : Finalizes validators schedule mid l chain') :
      Finalizes validators schedule chain (c :: l) chain'

namespace Finalizes
variable {validators : List Validator} {schedule : EventSchedule} {chain mid chain' : Blockchain}
  {l l' : List FinalityCertificate}

lemma append (h : Finalizes validators schedule chain l mid)
    (h' : Finalizes validators schedule mid l' chain') :
    Finalizes validators schedule chain (l ++ l') chain' := by
  induction h with
  | nil => exact h'
  | cons hverify hscheduled happly _ ih => exact .cons hverify hscheduled happly (ih h')

/-- One more certificate at the end. -/
lemma snoc {c : FinalityCertificate} (h : Finalizes validators schedule chain l mid)
    (hverify : c.verify validators = .ok ()) (hscheduled : Scheduled validators schedule mid c.block)
    (happly : mid.applyBlock c.block = .ok chain') :
    Finalizes validators schedule chain (l ++ [c]) chain' :=
  h.append (.cons hverify hscheduled happly (.nil chain'))

lemma eq_of_nil (h : Finalizes validators schedule chain [] chain') : chain = chain' := by
  cases h
  rfl

/-- A split of the list splits the way. -/
lemma split : ∀ {l : List FinalityCertificate} {chain : Blockchain},
    Finalizes validators schedule chain (l ++ l') chain' →
    ∃ mid, Finalizes validators schedule chain l mid ∧
      Finalizes validators schedule mid l' chain' := by
  intro l
  induction l with
  | nil => exact fun h => ⟨_, .nil _, h⟩
  | cons c l ih =>
    intro chain h
    cases h with
    | cons hverify hscheduled happly hrest =>
      obtain ⟨mid, hl, hl'⟩ := ih hrest
      exact ⟨mid, .cons hverify hscheduled happly hl, hl'⟩

/-- Every certificate raises the tip by one. -/
lemma tipHeight (h : Finalizes validators schedule chain l chain') :
    chain'.tipHeight.toNat = chain.tipHeight.toNat + l.length := by
  induction h with
  | nil => rfl
  | cons _ _ happly _ ih =>
    obtain ⟨_, htip⟩ := Blockchain.tipHeight_applyBlock happly
    rw [ih, htip, List.length_cons]
    omega

/-- One certificate for each height above the first chain, in ascending order. -/
lemma heights (h : Finalizes validators schedule chain l chain') :
    l.map (fun c => c.block.height.toNat)
      = List.range' (chain.tipHeight.toNat + 1) l.length := by
  induction h with
  | nil => rfl
  | cons _ _ happly _ ih =>
    obtain ⟨hblock, htip⟩ := Blockchain.tipHeight_applyBlock happly
    rw [List.map_cons, List.length_cons, List.range'_succ, ih, ← hblock, htip]

/-- The certificates are for the heights between the two tips. -/
lemma mem_height (h : Finalizes validators schedule chain l chain') {c : FinalityCertificate}
    (hc : c ∈ l) : chain.tipHeight.toNat < c.block.height.toNat ∧
      c.block.height.toNat ≤ chain'.tipHeight.toNat := by
  have hmem : c.block.height.toNat ∈ l.map fun c => c.block.height.toNat := List.mem_map_of_mem hc
  rw [h.heights, List.mem_range'_1] at hmem
  rw [h.tipHeight]
  omega

lemma blocks_length (h : Finalizes validators schedule chain l chain') :
    chain'.blocks.length = chain.blocks.length + l.length := by
  induction h with
  | nil => rfl
  | cons _ _ happly _ ih =>
    obtain ⟨_, _, _, _, _, rfl⟩ := Blockchain.applyBlock_eq_ok.mp happly
    rw [ih, List.length_cons, Blockchain.withState_blocks, List.length_append]
    simp only [List.length_singleton]
    omega

end Finalizes

/-! ## The server -/

/-- The invariant of a node that keeps its validators and its schedule: its certificates lead
from the first chain to its own, and a candidate that can still be applied fits the schedule. -/
structure ServerInv (validators : List Validator) (schedule : EventSchedule) (first : Blockchain)
    (r : ConsensusRuntime) : Prop where
  sameValidators : r.validators = validators
  sameSchedule : r.eventSchedule = schedule
  finalizes : Finalizes validators schedule first r.finalized r.chain
  pending : ∀ b, r.pending = some b → b.height.toNat ≤ r.chain.tipHeight.toNat + 1 ∧
    (b.height.toNat = r.chain.tipHeight.toNat + 1 → Scheduled validators schedule r.chain b)

lemma ServerInv.move {validators : List Validator} {schedule : EventSchedule} {first : Blockchain}
    {known : ConsensusMessage → Prop} {r r' : ConsensusRuntime} {signed : List ConsensusMessage}
    (h : ServerInv validators schedule first r) (hmove : Move known r signed r') :
    ServerInv validators schedule first r' := by
  cases hmove with
  | timer | queue | records | handOver =>
    exact ⟨h.sameValidators, h.sameSchedule, h.finalizes, h.pending⟩
  | prevote | precommit => exact h
  | drop | timeout | next =>
    exact ⟨h.sameValidators, h.sameSchedule, h.finalizes, fun b hb => by simp at hb⟩
  | proposal now p consensus hfits hc =>
    refine ⟨h.sameValidators, h.sameSchedule, h.finalizes, fun b hb => ?_⟩
    obtain rfl := Option.some.inj hb
    obtain ⟨hscheduled, _⟩ := validateScheduledBlock_eq_ok.mp hfits.scheduled
    rw [h.sameValidators, h.sameSchedule] at hscheduled
    exact ⟨hfits.height.le, fun _ => hscheduled⟩
  | vote env m consensus hknown hhandle =>
    obtain ⟨_, _, _, heq⟩ := afterVote_eq r env m consensus
    rw [heq]
    exact ⟨h.sameValidators, h.sameSchedule, h.finalizes, h.pending⟩
  | commit b chain hpending hverify hchain =>
    obtain ⟨hblock, htip⟩ := Blockchain.tipHeight_applyBlock hchain
    have hscheduled := (h.pending b hpending).2 (by rw [← hblock, htip])
    rw [h.sameValidators] at hverify
    exact ⟨h.sameValidators, h.sameSchedule, h.finalizes.snoc hverify hscheduled hchain,
      fun b hb => by simp at hb⟩
  | sync now c chain hverify hfits hchain =>
    obtain ⟨_, htip⟩ := Blockchain.tipHeight_applyBlock hchain
    obtain ⟨hscheduled, _⟩ := validateScheduledBlock_eq_ok.mp hfits.scheduled
    rw [h.sameValidators, h.sameSchedule] at hscheduled
    rw [h.sameValidators] at hverify
    refine ⟨h.sameValidators, h.sameSchedule, h.finalizes.snoc hverify hscheduled hchain, fun b hb => ?_⟩
    -- a candidate from before is at most at the new tip
    have hle := (h.pending b hb).1
    show b.height.toNat ≤ chain.tipHeight.toNat + 1 ∧
      (b.height.toNat = chain.tipHeight.toNat + 1 → _)
    exact ⟨by omega, fun heq => by omega⟩

/-- A node's certificates after any run. -/
lemma serverInv_run {validators : List Validator} {schedule : EventSchedule} {first : Blockchain}
    {validator : String} {r : ConsensusRuntime}
    (h : Started first validators schedule validator r) (steps : List ((ℕ → Reading) × Op)) :
    Sound (fun _ => True) (r.run steps) ∧ ServerInv validators schedule first (r.run steps) := by
  obtain ⟨map, total, height, timeouts, deadline, hvalid, hheight, _, rfl⟩ := h.eq
  refine run_induction (fun hr hmove => hr.move hmove) steps ⟨hheight.le, fun _ _ => trivial⟩ ?_
  exact ⟨rfl, rfl, .nil first, fun b hb => by simp at hb⟩

/-! ## The answers of the server -/

omit [Primitives] in
/-- An answer is a part of the certificates from the front on, and not empty unless they are. -/
lemma selectWithin_eq (size : FinalityCertificate → ℕ) :
    ∀ (l : List FinalityCertificate) (bytes : ℕ) (selected : List FinalityCertificate),
      ∃ n, selectWithin size bytes selected l = selected ++ l.take n ∧
        (selected = [] → l ≠ [] → 0 < n) := by
  intro l
  induction l with
  | nil => exact fun bytes selected => ⟨0, by simp [selectWithin], fun _ h => absurd rfl h⟩
  | cons c l ih =>
    intro bytes selected
    unfold selectWithin
    split
    · rename_i hstop
      exact ⟨0, by simp, fun hempty => absurd hempty hstop.1⟩
    · obtain ⟨n, hn, _⟩ := ih (min (bytes + size c) (2 ^ 64 - 1)) (selected ++ [c])
      exact ⟨n + 1, by rw [hn]; simp, fun _ _ => Nat.succ_pos n⟩

/-- Asked for what is above a chain on its own way, a server answers with the certificates that
follow, at least one if there is one. -/
lemma certificatesFrom_eq {validators : List Validator} {schedule : EventSchedule}
    {first mid : Blockchain} {server : ConsensusRuntime} {l l' : List FinalityCertificate}
    (size : FinalityCertificate → ℕ) {fromHeight : UInt64}
    (hserver : server.finalized = l ++ l') (hl : Finalizes validators schedule first l mid)
    (hl' : Finalizes validators schedule mid l' server.chain)
    (hfrom : fromHeight.toNat = mid.tipHeight.toNat + 1) :
    ∃ n ≤ l'.length, certificatesFrom size server fromHeight = l'.take n ∧ (l' ≠ [] → 0 < n) := by
  have hfilter : server.finalized.filter (fun c => fromHeight ≤ c.block.height) = l' := by
    rw [hserver, List.filter_append]
    have hlow : l.filter (fun c => fromHeight ≤ c.block.height) = [] := by
      refine List.filter_eq_nil_iff.mpr fun c hc => ?_
      have := (hl.mem_height hc).2
      rw [decide_eq_true_eq, UInt64.le_iff_toNat_le]
      omega
    have hhigh : l'.filter (fun c => fromHeight ≤ c.block.height) = l' := by
      refine List.filter_eq_self.mpr fun c hc => ?_
      have := (hl'.mem_height hc).1
      rw [decide_eq_true_eq, UInt64.le_iff_toNat_le]
      omega
    rw [hlow, hhigh, List.nil_append]
  unfold certificatesFrom
  rw [hfilter]
  obtain ⟨n, hn, hpos⟩ := selectWithin_eq size (l'.take maxSyncCertificates) 0 []
  refine ⟨min (min n maxSyncCertificates) l'.length, min_le_right _ _, ?_, fun hne => ?_⟩
  · rw [hn, List.nil_append, List.take_take, List.take_eq_take_min]
  · have hn' : 0 < n := hpos rfl (by simpa [List.take_eq_nil_iff, maxSyncCertificates] using hne)
    exact Nat.lt_min.mpr ⟨Nat.lt_min.mpr ⟨hn', by decide⟩, List.length_pos_iff.mpr hne⟩

/-! ## The client -/

/-- A certificate for the next block is applied. -/
lemma applySyncCertificate_next {validators : List Validator} {schedule : EventSchedule}
    {client : ConsensusRuntime} {env : Reading} {c : FinalityCertificate} {chain : Blockchain}
    (hvalidators : client.validators = validators) (hschedule : client.eventSchedule = schedule)
    (hverify : c.verify validators = .ok ())
    (hscheduled : Scheduled validators schedule client.chain c.block)
    (hclock : ClockAllows env.now c.block) (happly : client.chain.applyBlock c.block = .ok chain) :
    client.applySyncCertificate env c
      = .ok (true, { client with chain, finalized := client.finalized ++ [c] }) := by
  obtain ⟨previous, _, hlast, hlinks, _, _⟩ := Blockchain.applyBlock_eq_ok.mp happly
  have hnext : addOne previous.height = .ok c.block.height := addOne_eq_ok.mpr hlinks.height
  have hvalid : client.validateScheduledBlock env.now c.block = .ok () := by
    rw [validateScheduledBlock_eq_ok, hvalidators, hschedule]
    exact ⟨hscheduled, hclock⟩
  simp only [applySyncCertificate, bind_eq_ok, okOr_eq_ok, hvalidators]
  refine ⟨(), hverify, previous, hlast, c.block.height, hnext, ?_⟩
  rw [if_neg (UInt64.lt_irrefl _)]
  simp only [bind_eq_ok, ensure_eq_ok, pure_eq_ok]
  exact ⟨(), trivial, (), hvalid, chain, happly, rfl⟩

/-- Certificates that lead on from the client's chain are all applied. -/
lemma applySyncLoop_finalizes {validators : List Validator} {schedule : EventSchedule}
    {env : ℕ → Reading} {chain : Blockchain} {l : List FinalityCertificate} :
    ∀ (client : ConsensusRuntime) (readings applied : ℕ),
      client.validators = validators → client.eventSchedule = schedule →
      Finalizes validators schedule client.chain l chain →
      (∀ c ∈ l, ∀ i, ClockAllows (env i).now c.block) →
      applySyncLoop env l readings client applied
        = (.ok (applied + l.length), { client with chain, finalized := client.finalized ++ l }) := by
  induction l with
  | nil =>
    intro client readings applied _ _ h _
    cases h
    rw [applySyncLoop, List.append_nil]
    rfl
  | cons c l ih =>
    intro client readings applied hvalidators hschedule h hclock
    cases h with
    | cons hverify hscheduled happly hrest =>
      rename_i mid
      have hone := applySyncCertificate_next hvalidators hschedule hverify hscheduled
        (hclock c List.mem_cons_self readings) happly
      have hall := ih { client with chain := mid, finalized := client.finalized ++ [c] }
        (readings + 1) (applied + 1) hvalidators hschedule hrest
        fun c' hc' => hclock c' (List.mem_cons_of_mem _ hc')
      simp only [applySyncLoop, hone, if_true, hall]
      rw [List.append_assoc, List.length_cons]
      simp only [List.singleton_append, Prod.mk.injEq, and_true]
      congr 1
      omega

/-- One certificate alone: refused or known, or its block is applied and the next height started
if it can be. -/
lemma applySyncCertificates_singleton (r : ConsensusRuntime) (env : ℕ → Reading)
    (c : FinalityCertificate) :
    (∃ result, result ≠ .ok 1 ∧ r.applySyncCertificates env [c] = (result, r)) ∨
      ∃ chain, r.chain.applyBlock c.block = .ok chain ∧
        ((∃ r', startNextHeight { r with chain, finalized := r.finalized ++ [c] } (env 1) = .ok r' ∧
            r.applySyncCertificates env [c] = (.ok 1, r')) ∨
          ∃ e, startNextHeight { r with chain, finalized := r.finalized ++ [c] } (env 1)
              = .error e ∧
            r.applySyncCertificates env [c]
              = (.error e, { r with chain, finalized := r.finalized ++ [c] })) := by
  unfold applySyncCertificates
  simp only [applySyncLoop, List.length_singleton]
  cases hc : r.applySyncCertificate (env 0) c with
  | error e => exact .inl ⟨_, by simp, rfl⟩
  | ok result =>
    obtain ⟨done, r₁⟩ := result
    obtain ⟨_, ⟨rfl, rfl⟩ | ⟨rfl, _, chain, hchain, rfl⟩⟩ := applySyncCertificate_eq_ok hc
    · exact .inl ⟨.ok 0, by simp, rfl⟩
    · refine .inr ⟨chain, hchain, ?_⟩
      simp only [if_true, Nat.zero_add, Nat.lt_one_iff]
      cases hstart : startNextHeight { r with chain, finalized := r.finalized ++ [c] } (env 1) with
      | ok r₂ => exact .inl ⟨_, rfl, rfl⟩
      | error e => exact .inr ⟨_, rfl, rfl⟩

/-- Starting the next height leaves the chain and the certificates. -/
lemma startNextHeight_frame {r r' : ConsensusRuntime} {env : Reading}
    (h : r.startNextHeight env = .ok r') :
    r'.chain = r.chain ∧ r'.finalized = r.finalized ∧
      r'.pendingFinalized = r.pendingFinalized := by
  simp only [startNextHeight, bind_eq_ok, pure_eq_ok] at h
  obtain ⟨_, _, _, _, _, _, rfl⟩ := h
  exact ⟨rfl, rfl, rfl⟩

/-- The next height can be started when the consensus is behind the tip. -/
lemma startNextHeight_isOk {r : ConsensusRuntime} (env : Reading) (hne : r.chain.blocks ≠ [])
    (hroom : r.chain.tipHeight.toNat + 1 < 2 ^ 64)
    (hbehind : r.consensus.height.toNat < r.chain.tipHeight.toNat + 1) :
    ∃ consensus deadline,
      r.startNextHeight env = .ok { r with
        consensus, deadline, pending := none, validBlock := none, precommits := [] } ∧
      consensus.height.toNat = r.chain.tipHeight.toNat + 1 := by
  obtain ⟨previous, hlast⟩ : ∃ previous, r.chain.blocks.getLast? = some previous :=
    ⟨_, List.getLast?_eq_getLast_of_ne_nil hne⟩
  obtain ⟨htip, _⟩ := Blockchain.tipHeight_of_getLast hlast
  rw [htip] at hroom hbehind ⊢
  have hnext : (previous.height + 1).toNat = previous.height.toNat + 1 := by
    rw [UInt64.toNat_add]
    exact Nat.mod_eq_of_lt hroom
  have hadd : addOne previous.height = .ok (previous.height + 1) := addOne_eq_ok.mpr hnext
  have hlt : r.consensus.height < previous.height + 1 := by
    rw [UInt64.lt_iff_toNat_lt, hnext]
    exact hbehind
  obtain ⟨consensus, hstart, hheight⟩ := BftConsensus.startRound_of_lt 0 hlt
  refine ⟨consensus, env.instant + r.timeouts.forPhase consensus.phase, ?_, by rw [hheight, hnext]⟩
  simp only [startNextHeight, bind_eq_ok, okOr_eq_ok, pure_eq_ok]
  exact ⟨previous, hlast, _, hadd, consensus, hstart, rfl⟩

/-- What a client needs to go on by certificates: a chain, and a consensus not ahead of it. -/
structure Ready (validators : List Validator) (schedule : EventSchedule)
    (client : ConsensusRuntime) : Prop where
  sameValidators : client.validators = validators
  sameSchedule : client.eventSchedule = schedule
  bound : client.consensus.height.toNat ≤ client.chain.tipHeight.toNat + 1
  nonempty : client.chain.blocks ≠ []

/-- Certificates that lead on from the client's chain take it to their end. -/
lemma applySyncCertificates_finalizes {validators : List Validator} {schedule : EventSchedule}
    {client : ConsensusRuntime} {chain : Blockchain} {l : List FinalityCertificate}
    (env : ℕ → Reading) (hready : Ready validators schedule client)
    (h : Finalizes validators schedule client.chain l chain)
    (hroom : chain.tipHeight.toNat + 1 < 2 ^ 64)
    (hclock : ∀ c ∈ l, ∀ i, ClockAllows (env i).now c.block) :
    ∃ client', client.applySyncCertificates env l = (.ok l.length, client') ∧
      client'.chain = chain ∧ client'.finalized = client.finalized ++ l ∧
      client'.pendingFinalized = client.pendingFinalized ∧
      Ready validators schedule client' := by
  have hloop := applySyncLoop_finalizes client 0 0 hready.sameValidators hready.sameSchedule h
    hclock
  have htip := h.tipHeight
  have hlength := h.blocks_length
  have hbound := hready.bound
  have hne : chain.blocks ≠ [] := by
    intro hnil
    have hpos := List.length_pos_iff.mpr hready.nonempty
    rw [hnil, List.length_nil] at hlength
    omega
  rw [applySyncCertificates, hloop]
  simp only [Nat.zero_add]
  by_cases hl : 0 < l.length
  · rw [if_pos hl]
    obtain ⟨consensus, deadline, hstart, hheight⟩ := startNextHeight_isOk
      (r := { client with chain, finalized := client.finalized ++ l }) (env l.length) hne
      hroom (by show client.consensus.height.toNat < chain.tipHeight.toNat + 1; omega)
    rw [hstart]
    exact ⟨_, rfl, rfl, rfl, rfl, hready.sameValidators, hready.sameSchedule, hheight.le, hne⟩
  · rw [if_neg hl]
    refine ⟨_, rfl, rfl, rfl, rfl, hready.sameValidators, hready.sameSchedule, ?_, hne⟩
    show client.consensus.height.toNat ≤ chain.tipHeight.toNat + 1
    omega

/-! ## Rounds -/

/-- One round of synchronisation: ask for what is above the tip, and apply the answer. -/
def syncRound (server : ConsensusRuntime) (size : FinalityCertificate → ℕ) (env : ℕ → Reading)
    (client : ConsensusRuntime) : Result ℕ × ConsensusRuntime :=
  client.applySyncCertificates env (certificatesFrom size server (client.chain.tipHeight + 1))

/-- The client after a number of rounds, each with its own readings and sizes. -/
def syncAfter (server : ConsensusRuntime) (size : ℕ → FinalityCertificate → ℕ)
    (env : ℕ → ℕ → Reading) (client : ConsensusRuntime) : ℕ → ConsensusRuntime
  | 0 => client
  | n + 1 => (syncRound server (size n) (env n) (syncAfter server size env client n)).2

/-- The client is on the server's way, with `l'` still to come. -/
structure Follows (validators : List Validator) (schedule : EventSchedule) (first : Blockchain)
    (server client : ConsensusRuntime) (l' : List FinalityCertificate) : Prop where
  ready : Ready validators schedule client
  way : ∃ l, server.finalized = l ++ l' ∧ Finalizes validators schedule first l client.chain
  rest : Finalizes validators schedule client.chain l' server.chain

/-- One round takes the client on by at least one certificate unless it has arrived, and never
fails. -/
lemma Follows.round {validators : List Validator} {schedule : EventSchedule} {first : Blockchain}
    {server client : ConsensusRuntime} {l' : List FinalityCertificate}
    (size : FinalityCertificate → ℕ) {env : ℕ → Reading}
    (h : Follows validators schedule first server client l')
    (hroom : server.chain.tipHeight.toNat + 1 < 2 ^ 64)
    (hclock : ∀ c ∈ server.finalized, ∀ i, ClockAllows (env i).now c.block) :
    ∃ n, (syncRound server size env client).1 = .ok n ∧ n ≤ l'.length ∧ (l' ≠ [] → 0 < n) ∧
      Follows validators schedule first server (syncRound server size env client).2
        (l'.drop n) := by
  obtain ⟨l, hl, hway⟩ := h.way
  have htip := h.rest.tipHeight
  have hfrom : (client.chain.tipHeight + 1).toNat = client.chain.tipHeight.toNat + 1 := by
    rw [UInt64.toNat_add]
    exact Nat.mod_eq_of_lt (by show client.chain.tipHeight.toNat + 1 < _; omega)
  obtain ⟨n, hn, hbatch, hpos⟩ := certificatesFrom_eq size hl hway h.rest hfrom
  -- the answer leads from the client's chain to a chain from which the rest leads on
  have hsplit := h.rest
  rw [← List.take_append_drop n l'] at hsplit
  obtain ⟨mid, hanswer, hrest⟩ := hsplit.split
  have hmid := hrest.tipHeight
  obtain ⟨client', happlied, hchain, _, _, hready⟩ :=
    applySyncCertificates_finalizes env h.ready hanswer (by omega)
      fun c hc => hclock c (hl ▸ List.mem_append_right _ (List.mem_of_mem_take hc))
  rw [syncRound, hbatch, happlied, List.length_take, min_eq_left hn]
  refine ⟨n, rfl, hn, hpos, hready, ⟨l ++ l'.take n, ?_, ?_⟩, ?_⟩
  · rw [List.append_assoc, List.take_append_drop, hl]
  · rw [hchain]
    exact hway.append hanswer
  · rw [hchain]
    exact hrest

/-- After `n` rounds at most the certificates after the first `n` are still to come. -/
lemma Follows.rounds {validators : List Validator} {schedule : EventSchedule} {first : Blockchain}
    {server client : ConsensusRuntime} {l : List FinalityCertificate}
    (size : ℕ → FinalityCertificate → ℕ) {env : ℕ → ℕ → Reading}
    (h : Follows validators schedule first server client l)
    (hroom : server.chain.tipHeight.toNat + 1 < 2 ^ 64)
    (hclock : ∀ c ∈ server.finalized, ∀ n i, ClockAllows (env n i).now c.block) :
    ∀ n, ∃ l', l'.length ≤ l.length - n ∧
      Follows validators schedule first server (syncAfter server size env client n) l' := by
  intro n
  induction n with
  | zero => exact ⟨l, by omega, h⟩
  | succ n ih =>
    obtain ⟨l', hlength, hfollows⟩ := ih
    obtain ⟨k, _, _, hpos, hnext⟩ := hfollows.round (size n) hroom
      fun c hc => hclock c hc n
    refine ⟨l'.drop k, ?_, hnext⟩
    rw [List.length_drop]
    by_cases hne : l' = []
    · rw [hne, List.length_nil]
      omega
    · have := hpos hne
      omega

/-- **Synchronisation converges.** A server that started at the genesis block and a client that
is still there, with the same validators and schedule. The server holds one certificate for each
height of its chain in ascending order; every round of the client succeeds, and makes progress
while the client is behind, whatever the sizes of the certificates; and after as many rounds as
the server has blocks the two have the same tip and state. The chain fits into memory, and the
client's clock is not behind the blocks. -/
theorem sync_converges (first : Blockchain) (hfirst : first.blocks = [Block.genesis])
    (validators : List Validator) (schedule : EventSchedule) (serverId clientId : String)
    (server₀ client₀ : ConsensusRuntime)
    (hserver : Started first validators schedule serverId server₀)
    (hclient : Started first validators schedule clientId client₀)
    (steps steps' : List ((ℕ → Reading) × Op)) (hthere : (client₀.run steps').chain = first)
    (hmemory : (server₀.run steps).chain.blocks.length < 2 ^ 63)
    (size : ℕ → FinalityCertificate → ℕ) (env : ℕ → ℕ → Reading)
    (hclock : ∀ n i, ∃ now, (env n i).now = some now ∧
      ∀ c ∈ (server₀.run steps).finalized, c.block.timestamp ≤ now) :
    let server := server₀.run steps
    let client := syncAfter server size env (client₀.run steps')
    server.finalized.map (fun c => c.block.height.toNat)
        = List.range' 1 server.chain.tipHeight.toNat ∧
      (∀ n, ∃ applied, (syncRound server (size n) (env n) (client n)).1 = .ok applied) ∧
      (∀ n, (client n).chain.tipHeight < server.chain.tipHeight →
        (client n).chain.tipHeight < (client (n + 1)).chain.tipHeight) ∧
      ∀ n, server.chain.tipHeight.toNat ≤ n →
        (client n).chain.tipHash = server.chain.tipHash ∧
          (client n).chain.stateHash = server.chain.stateHash := by
  intro server client
  obtain ⟨_, hinv⟩ := serverInv_run hserver steps
  obtain ⟨hsound, hinv'⟩ := serverInv_run hclient steps'
  have hzero : first.tipHeight.toNat = 0 := by
    rw [Blockchain.tipHeight, hfirst]
    rfl
  have htip : server.chain.tipHeight.toNat = server.finalized.length := by
    have := hinv.finalizes.tipHeight
    rwa [hzero, Nat.zero_add] at this
  -- a chain in memory is shorter than 2^63 blocks, so that the next height is in range
  have hroom : server.chain.tipHeight.toNat + 1 < 2 ^ 64 := by
    have hblocks := hinv.finalizes.blocks_length
    rw [hfirst, List.length_singleton] at hblocks
    change server.chain.blocks.length < 2 ^ 63 at hmemory
    change server.chain.blocks.length = 1 + server.finalized.length at hblocks
    omega
  have hclock' : ∀ c ∈ server.finalized, ∀ n i, ClockAllows (env n i).now c.block := by
    intro c hc n i
    obtain ⟨now, hnow, hle⟩ := hclock n i
    rw [hnow]
    exact clockAllows_of_le (hle c hc)
  -- what carries the rounds: the client is the server's chain without its last certificates
  have hstart : Follows validators schedule first server (client₀.run steps') server.finalized :=
    ⟨⟨hinv'.sameValidators, hinv'.sameSchedule, hsound.bound, by rw [hthere, hfirst]; simp⟩,
      ⟨[], rfl, by rw [hthere]; exact .nil first⟩, by rw [hthere]; exact hinv.finalizes⟩
  have hrounds := hstart.rounds size hroom hclock'
  refine ⟨?_, fun n => ?_, fun n hbehind => ?_, fun n hn => ?_⟩
  · have hheights := hinv.finalizes.heights
    rw [hzero, Nat.zero_add] at hheights
    rw [htip]
    exact hheights
  · obtain ⟨l', _, hfollows⟩ := hrounds n
    obtain ⟨k, hk, _⟩ := hfollows.round (size n) hroom fun c hc => hclock' c hc n
    exact ⟨k, hk⟩
  · obtain ⟨l', _, hfollows⟩ := hrounds n
    obtain ⟨k, _, _, hpos, hnext⟩ := hfollows.round (size n) hroom
      fun c hc => hclock' c hc n
    have hbefore := hfollows.rest.tipHeight
    have hafter := hnext.rest.tipHeight
    rw [List.length_drop] at hafter
    show (client n).chain.tipHeight < (client (n + 1)).chain.tipHeight
    rw [UInt64.lt_iff_toNat_lt] at hbehind ⊢
    -- a client that is behind lacks at least one certificate, and the round applies it
    have hne : l' ≠ [] := by
      rintro rfl
      rw [List.length_nil] at hbefore
      change server.chain.tipHeight.toNat = (client n).chain.tipHeight.toNat + 0 at hbefore
      omega
    have hk := hpos hne
    have hl' := List.length_pos_iff.mpr hne
    change server.chain.tipHeight.toNat = (client n).chain.tipHeight.toNat + l'.length at hbefore
    change server.chain.tipHeight.toNat
      = (client (n + 1)).chain.tipHeight.toNat + (l'.length - k) at hafter
    omega
  · obtain ⟨l', hlength, hfollows⟩ := hrounds n
    -- after as many rounds as there are certificates none is lacking
    have hnil : l' = [] := List.length_eq_zero_iff.mp (by omega)
    have hrest := hfollows.rest
    rw [hnil] at hrest
    have hsame : (client n).chain = server.chain := hrest.eq_of_nil
    rw [hsame]
    exact ⟨rfl, rfl⟩

end

section
attribute [local instance] Devnet.primitives

/-- The ledger after the first block. -/
def devnetFirst : Blockchain := { Devnet.chain with blocks := [Block.genesis, Devnet.first] }

/-- The ledger after both blocks. -/
def devnetSecond : Blockchain :=
  { Devnet.chain with blocks := [Block.genesis, Devnet.first, Devnet.second] }

lemma finalizes_first : Finalizes [Devnet.self] EventSchedule.empty Devnet.chain
    [Devnet.firstCertificate] devnetFirst :=
  .cons Devnet.verify_firstCertificate ⟨⟨Block.genesis, rfl, by decide⟩, rfl, rfl⟩
    Devnet.first_applies (.nil _)

lemma finalizes_second : Finalizes [Devnet.self] EventSchedule.empty devnetFirst
    [Devnet.secondCertificate] devnetSecond :=
  .cons Devnet.verify_secondCertificate ⟨⟨Devnet.first, rfl, by decide⟩, rfl, rfl⟩
    Devnet.second_applies (.nil _)

/-- The clock is not behind the blocks. -/
lemma devnet_clock : ∀ c ∈ [Devnet.firstCertificate, Devnet.secondCertificate],
    c.block.timestamp ≤ 1000 := by
  intro c hc
  simp only [List.mem_cons, List.not_mem_nil, or_false] at hc
  rcases hc with rfl | rfl <;> decide

/-- A node that gets both certificates at once. -/
def devnetSync : (ℕ → Reading) × Op :=
  (fun _ => Devnet.reading "",
    .applySyncCertificates [Devnet.firstCertificate, Devnet.secondCertificate])

lemma devnetSync_run : (Devnet.node.run [devnetSync]).chain = devnetSecond ∧
    (Devnet.node.run [devnetSync]).finalized
      = [Devnet.firstCertificate, Devnet.secondCertificate] := by
  have hready : Ready [Devnet.self] EventSchedule.empty Devnet.node :=
    ⟨rfl, rfl, by decide, by decide⟩
  obtain ⟨server, happlied, hchain, hfinalized, _⟩ := applySyncCertificates_finalizes
    (fun _ => Devnet.reading "") hready (finalizes_first.append finalizes_second) (by decide)
    fun c hc i => clockAllows_of_le (devnet_clock c hc)
  have hrun : Devnet.node.run [devnetSync] = server := by
    rw [run, List.foldl_cons, List.foldl_nil, devnetSync, step, ← List.singleton_append, happlied]
  rw [hrun, hchain, hfinalized]
  exact ⟨rfl, rfl⟩

/-- A new node takes over both blocks. -/
theorem sync_converges_devnet :
    (syncAfter (Devnet.node.run [devnetSync]) (fun _ _ => 1000) (fun _ _ => Devnet.reading "")
        Devnet.node 2).chain.tipHash = Devnet.second.hash := by
  obtain ⟨hchain, hfinalized⟩ := devnetSync_run
  obtain ⟨_, _, _, hsame⟩ := sync_converges Devnet.chain rfl [Devnet.self] EventSchedule.empty
    Devnet.validator Devnet.validator Devnet.node Devnet.node Devnet.node_started
    Devnet.node_started [devnetSync] [] rfl (by rw [hchain]; decide) (fun _ _ => 1000)
    (fun _ _ => Devnet.reading "")
    (fun _ _ => ⟨1000, rfl, by rw [hfinalized]; exact devnet_clock⟩)
  have htip := (hsame 2 (by rw [hchain]; decide)).1
  rw [hchain] at htip
  exact htip

end

end ConsensusRuntime

end IeumChain
