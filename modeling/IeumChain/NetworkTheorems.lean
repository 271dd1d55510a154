import IeumChain.Network
import Mathlib.Tactic

/-!
# What a peer can get away with

The guard is a product of one small machine for each peer (`PeerRecord`): nothing a peer sends
touches the record of another. Two bounds follow for every run of the task, whatever other peers
send in between:

* in a stretch of time shorter than a block, a peer whose messages are still looked at has collected
  fewer penalties than a block takes and one more for each good message (`penalties_bounded`);
* a peer that is blocked is out of the run: the task does what it would have done had the peer sent
  nothing (`blocked_silent`).

Of what peers tell, the routing table gets private IPv4 addresses only for peers of the same LAN
(`learned_addresses`). The addresses of the operator's bootstrap nodes are not told by peers; they
go into the table as they are.
-/

namespace IeumChain

open Lib

/-! ## One peer -/

namespace PeerRecord

/-- A peer that is not known. -/
def fresh : PeerRecord := ⟨0, none⟩

/-- Is the peer blocked? -/
def Blocked (record : PeerRecord) (now : ℕ) : Prop := ∃ d, record.blockedUntil = some d ∧ now < d

/-- The record after `check`. -/
def lifted (record : PeerRecord) (now : ℕ) : PeerRecord :=
  match record.blockedUntil with
  | none => record
  | some deadline => if now < deadline then record else fresh

/-- The record after `penalize`. -/
def penalized (record : PeerRecord) (points : ℤ) (deadline : ℕ) : PeerRecord :=
  let score := PeerGuard.saturatingAdd record.score (max points 0)
  if banScore ≤ score then ⟨score, some deadline⟩ else { record with score }

/-- The record after `reward`. -/
def rewarded (record : PeerRecord) : PeerRecord := { record with score := max (record.score - 1) 0 }

variable {record : PeerRecord} {now deadline : ℕ} {points : ℤ}

lemma lifted_of_blocked (h : record.Blocked now) : record.lifted now = record := by
  obtain ⟨d, hd, hlt⟩ := h
  rw [lifted, hd]
  exact if_pos hlt

lemma lifted_of_none (h : record.blockedUntil = none) : record.lifted now = record := by
  rw [lifted, h]

lemma lifted_of_over {d : ℕ} (h : record.blockedUntil = some d) (hle : d ≤ now) :
    record.lifted now = fresh := by
  rw [lifted, h]
  exact if_neg (Nat.not_lt.mpr hle)

/-- A known peer has a score within the type, and it is blocked from the ban score on. -/
structure Sane (record : PeerRecord) : Prop where
  nonneg : 0 ≤ record.score
  le_max : record.score ≤ 2 ^ 31 - 1
  blocked : record.blockedUntil ≠ none ↔ banScore ≤ record.score

lemma sane_fresh : Sane fresh := ⟨le_rfl, by decide, by decide⟩

lemma sane_mk {score : ℤ} {blockedUntil : Option ℕ} (hnonneg : 0 ≤ score)
    (hmax : score ≤ 2 ^ 31 - 1) (hblocked : blockedUntil ≠ none ↔ banScore ≤ score) :
    Sane ⟨score, blockedUntil⟩ := ⟨hnonneg, hmax, hblocked⟩

lemma Sane.lifted (h : Sane record) : Sane (record.lifted now) := by
  unfold PeerRecord.lifted
  split
  · exact h
  · split
    · exact h
    · exact sane_fresh

/-- A score that does not overflow is a sum. -/
lemma saturatingAdd_eq (h : Sane record) (points : ℤ) :
    PeerGuard.saturatingAdd record.score (max points 0)
      = min (2 ^ 31 - 1) (record.score + max points 0) := by
  have hnonneg := h.nonneg
  rw [PeerGuard.saturatingAdd]
  omega

lemma Sane.penalized (h : Sane record) : Sane (record.penalized points deadline) := by
  have hnonneg := h.nonneg
  have hsum := saturatingAdd_eq h points
  unfold PeerRecord.penalized
  simp only [hsum]
  split
  next hban => exact sane_mk (by omega) (by omega) ⟨fun _ => hban, fun _ => by simp⟩
  next hfree =>
    -- a penalty that does not ban cannot be given to a peer that is blocked
    have hbelow : ¬ banScore ≤ record.score := by
      have hmax := h.le_max
      omega
    refine sane_mk (by omega) (by omega) ⟨fun hblocked => ?_, fun hban => absurd hban hfree⟩
    exact absurd (h.blocked.mp hblocked) hbelow

lemma Sane.rewarded (h : Sane record) (hfree : record.blockedUntil = none) :
    Sane record.rewarded := by
  have hnonneg := h.nonneg
  have hmax := h.le_max
  have hbelow : ¬ banScore ≤ record.score := fun hban => h.blocked.mpr hban hfree
  refine ⟨le_max_right _ _, by show max _ _ ≤ _; omega, ?_⟩
  show record.blockedUntil ≠ none ↔ banScore ≤ max (record.score - 1) 0
  have hban : (0 : ℤ) < banScore := by decide
  simp only [hfree, ne_eq, not_true_eq_false, false_iff]
  omega

end PeerRecord

namespace PeerGuard
variable {guard : PeerGuard} {peer other : String} {now : ℕ} {points : ℤ}

/-- The record of a peer. -/
def record (guard : PeerGuard) (peer : String) : PeerRecord :=
  (guard.peers.lookup peer).getD PeerRecord.fresh

lemma record_insert {r : PeerRecord} {peers : HashMap String PeerRecord} {banDuration : ℕ} :
    record ⟨peers.insert peer r, banDuration⟩ other
      = if other = peer then r else record ⟨peers, banDuration⟩ other := by
  rw [record, HashMap.lookup_insert, apply_ite (Option.getD · PeerRecord.fresh)]
  rfl

/-- `check` lets a peer pass exactly when it is not blocked. -/
lemma check_eq_allow : (guard.check peer now).1 = .allow ↔ ¬ (guard.record peer).Blocked now := by
  unfold check record PeerRecord.Blocked
  cases hlookup : guard.peers.lookup peer with
  | none => simp [PeerRecord.fresh]
  | some r =>
    cases hblocked : r.blockedUntil with
    | none => simp [hblocked]
    | some d =>
      by_cases hlt : now < d
      · simp [hblocked, hlt]
      · simp only [hblocked, hlt, if_false, Option.getD_some, Option.some.injEq, true_iff]
        rintro ⟨e, rfl, he⟩
        exact hlt he

lemma record_of_none (h : guard.peers.lookup peer = none) :
    guard.record peer = PeerRecord.fresh := by rw [record, h]; rfl

lemma record_of_some {r : PeerRecord} (h : guard.peers.lookup peer = some r) :
    guard.record peer = r := by rw [record, h]; rfl

/-- `check` touches one record. -/
lemma record_check : (guard.check peer now).2.record other
    = if other = peer then (guard.record peer).lifted now else guard.record other := by
  have hsame : guard.record other = if other = peer then guard.record peer
      else guard.record other := by
    split
    next heq => rw [heq]
    next => rfl
  unfold check
  cases hlookup : guard.peers.lookup peer with
  | none =>
    rw [record_of_none hlookup] at hsame ⊢
    show guard.record other = _
    exact hsame
  | some r =>
    rw [record_of_some hlookup] at hsame ⊢
    cases hblocked : r.blockedUntil with
    | none =>
      rw [PeerRecord.lifted_of_none hblocked]
      simp only [hblocked]
      exact hsame
    | some d =>
      by_cases hlt : now < d
      · rw [PeerRecord.lifted_of_blocked ⟨d, hblocked, hlt⟩]
        simp only [hblocked, hlt, if_true]
        exact hsame
      · rw [PeerRecord.lifted_of_over hblocked (Nat.not_lt.mp hlt)]
        simp only [hblocked, hlt, if_false]
        exact record_insert

lemma banDuration_check : (guard.check peer now).2.banDuration = guard.banDuration := by
  unfold check
  split
  · rfl
  · split
    · rfl
    · split <;> rfl

lemma penalize_eq : (guard.penalize peer points now).2
    = { guard with
        peers := guard.peers.insert peer
          ((guard.record peer).penalized points (now + guard.banDuration)) } := by
  by_cases hban : banScore ≤ saturatingAdd (guard.record peer).score (max points 0)
  · rw [PeerRecord.penalized, if_pos hban]
    exact congrArg Prod.snd (if_pos hban)
  · rw [PeerRecord.penalized, if_neg hban]
    exact congrArg Prod.snd (if_neg hban)

/-- `penalize` touches one record. -/
lemma record_penalize : (guard.penalize peer points now).2.record other
    = if other = peer then (guard.record peer).penalized points (now + guard.banDuration)
      else guard.record other := by
  rw [penalize_eq, record_insert]

lemma banDuration_penalize :
    (guard.penalize peer points now).2.banDuration = guard.banDuration := by
  rw [penalize_eq]

/-- `reward` touches one record. -/
lemma record_reward : (guard.reward peer).record other
    = if other = peer then (guard.record peer).rewarded else guard.record other := by
  unfold reward
  cases hlookup : guard.peers.lookup peer with
  | none =>
    simp only
    split
    next heq => rw [heq, record_of_none hlookup]; rfl
    next => rfl
  | some r =>
    rw [record_of_some hlookup]
    exact record_insert

lemma banDuration_reward : (guard.reward peer).banDuration = guard.banDuration := by
  unfold reward
  split <;> rfl

end PeerGuard

/-! ## One event and one peer -/

/-- The points that an effect takes from a peer. -/
def Effect.penaltyOf (peer : String) : Effect → ℤ
  | .guard (.penalize p points) => if p = peer then points else 0
  | _ => 0

/-- The points that an effect gives a peer. -/
def Effect.rewardOf (peer : String) : Effect → ℤ
  | .guard (.reward p) => if p = peer then 1 else 0
  | _ => 0

/-- The points that were taken from a peer. -/
def penalties (peer : String) (effects : List Effect) : ℤ := (effects.map (·.penaltyOf peer)).sum

/-- How many good messages a peer sent. -/
def rewards (peer : String) (effects : List Effect) : ℤ := (effects.map (·.rewardOf peer)).sum

lemma penalties_append (peer : String) (l m : List Effect) :
    penalties peer (l ++ m) = penalties peer l + penalties peer m := by
  rw [penalties, List.map_append, List.sum_append]
  rfl

lemma rewards_append (peer : String) (l m : List Effect) :
    rewards peer (l ++ m) = rewards peer l + rewards peer m := by
  rw [rewards, List.map_append, List.sum_append]
  rfl

/-- Effects that do not change a score. -/
def NoCalls (effects : List Effect) : Prop := ∀ e ∈ effects, ∀ call, e ≠ .guard call

lemma NoCalls.penalties {effects : List Effect} (h : NoCalls effects) (peer : String) :
    penalties peer effects = 0 := by
  apply List.sum_eq_zero
  intro x hx
  obtain ⟨e, he, rfl⟩ := List.mem_map.mp hx
  cases e with
  | guard call => exact absurd rfl (h _ he call)
  | _ => rfl

lemma NoCalls.rewards {effects : List Effect} (h : NoCalls effects) (peer : String) :
    rewards peer effects = 0 := by
  apply List.sum_eq_zero
  intro x hx
  obtain ⟨e, he, rfl⟩ := List.mem_map.mp hx
  cases e with
  | guard call => exact absurd rfl (h _ he call)
  | _ => rfl

/-- What an event makes of the record of a peer, and the points it takes and gives. A message is
judged only if the peer is not blocked, and a connection that fails, always. -/
inductive Turn (failure : Prop) (now deadline : ℕ) (record : PeerRecord) :
    PeerRecord → ℤ → ℤ → Prop where
  | idle : Turn failure now deadline record record 0 0
  | rewarded (h : ¬ record.Blocked now) :
    Turn failure now deadline record (record.lifted now).rewarded 0 1
  | penalized (points : ℤ) (hpoints : 0 < points) (h : ¬ record.Blocked now) :
    Turn failure now deadline record ((record.lifted now).penalized points deadline) points 0
  | failed (h : failure) : Turn failure now deadline record (record.penalized 25 deadline) 25 0

namespace P2pNode
variable {ctx : SwarmContext} {network : P2pNode} {surroundings : Surroundings}
  {event : SwarmEvent} {peer p : String}

/-- An event that leaves the guard alone. -/
lemma turn_idle {failure : Prop} {after : PeerGuard} {effects : List Effect}
    {now deadline : ℕ} (hguard : after.record peer = network.guard.record peer)
    (hcalls : NoCalls effects) :
    Turn failure now deadline (network.guard.record peer) (after.record peer)
      (penalties peer effects) (rewards peer effects) := by
  rw [hguard, hcalls.penalties, hcalls.rewards]
  exact .idle

lemma forEach_concat (handle : P2pNode → String × Multiaddr → P2pNode × List Effect)
    (network : P2pNode) (entries : List (String × Multiaddr)) (entry : String × Multiaddr) :
    forEach handle network (entries ++ [entry])
      = ((handle (forEach handle network entries).1 entry).1,
          (forEach handle network entries).2
            ++ (handle (forEach handle network entries).1 entry).2) := by
  rw [forEach, List.foldl_append]
  rfl

/-- A loop over addresses leaves the guard alone. -/
lemma forEach_guard {handle : P2pNode → String × Multiaddr → P2pNode × List Effect}
    (hhandle : ∀ network entry, (handle network entry).1.guard = network.guard ∧
      NoCalls (handle network entry).2)
    (network : P2pNode) (entries : List (String × Multiaddr)) :
    (forEach handle network entries).1.guard = network.guard ∧
      NoCalls (forEach handle network entries).2 := by
  induction entries using List.reverseRecOn with
  | nil => exact ⟨rfl, fun e he => absurd he List.not_mem_nil⟩
  | append_singleton entries entry ih =>
    obtain ⟨hguard, hcalls⟩ := ih
    obtain ⟨hguard', hcalls'⟩ := hhandle (forEach handle network entries).1 entry
    rw [forEach_concat]
    refine ⟨hguard'.trans hguard, fun e he => ?_⟩
    rcases List.mem_append.mp he with he | he
    · exact hcalls e he
    · exact hcalls' e he

lemma onDiscovered_guard (network : P2pNode) (entry : String × Multiaddr) :
    (onDiscovered network entry).1.guard = network.guard ∧
      NoCalls (onDiscovered network entry).2 := by
  unfold onDiscovered
  simp only
  split
  · exact ⟨rfl, by simp [NoCalls]⟩
  · exact ⟨rfl, by simp [NoCalls]⟩

lemma onExpired_guard (network : P2pNode) (entry : String × Multiaddr) :
    (onExpired network entry).1.guard = network.guard ∧ NoCalls (onExpired network entry).2 :=
  ⟨rfl, by simp [NoCalls, onExpired]⟩

lemma noCalls_onListenAddr (resolver : Resolver) (p : String) (address : Multiaddr) :
    NoCalls (onListenAddr network resolver p address) := by
  unfold onListenAddr
  split
  · exact fun e he => absurd he List.not_mem_nil
  · split
    · exact fun e he => absurd he List.not_mem_nil
    · intro e he call
      obtain ⟨a, _, rfl⟩ := List.mem_map.mp he
      unfold learn
      split <;> simp

/-- A message of a peer that passes the check of the guard and is judged. -/
lemma turn_judged {failure : Prop} {guard : PeerGuard} {now : ℕ}
    (hcheck : network.guard.check p now = (.allow, guard)) {after : PeerGuard}
    {effects rest : List Effect} {call : GuardCall} (hrest : NoCalls rest)
    (heffects : effects = .guard call :: rest)
    (hcall : (call = .reward p ∧ after = guard.reward p) ∨
      ∃ points, 0 < points ∧ call = .penalize p points ∧
        after = (guard.penalize p points now).2) :
    Turn failure now (now + network.guard.banDuration) (network.guard.record peer)
      (after.record peer) (penalties peer effects) (rewards peer effects) := by
  have hrecord : ∀ q, guard.record q
      = if q = p then (network.guard.record p).lifted now else network.guard.record q := by
    intro q
    have hguard : guard = (network.guard.check p now).2 := by rw [hcheck]
    rw [hguard, PeerGuard.record_check]
  have hban : guard.banDuration = network.guard.banDuration := by
    have hguard : guard = (network.guard.check p now).2 := by rw [hcheck]
    rw [hguard, PeerGuard.banDuration_check]
  have hfree : ¬ (network.guard.record p).Blocked now := by
    rw [← PeerGuard.check_eq_allow, hcheck]
  have hpenalties : penalties peer effects = Effect.penaltyOf peer (.guard call) := by
    rw [heffects, penalties, List.map_cons, List.sum_cons]
    exact (congrArg _ (hrest.penalties peer)).trans (add_zero _)
  have hrewards : rewards peer effects = Effect.rewardOf peer (.guard call) := by
    rw [heffects, rewards, List.map_cons, List.sum_cons]
    exact (congrArg _ (hrest.rewards peer)).trans (add_zero _)
  rw [hpenalties, hrewards]
  rcases hcall with ⟨rfl, rfl⟩ | ⟨points, hpoints, rfl, rfl⟩
  · rw [PeerGuard.record_reward, hrecord, hrecord, if_pos rfl]
    simp only [Effect.penaltyOf, Effect.rewardOf, eq_comm (a := p)]
    split
    next heq => rw [heq]; exact .rewarded hfree
    next => exact .idle
  · rw [PeerGuard.record_penalize, hrecord, hrecord, if_pos rfl, hban]
    simp only [Effect.penaltyOf, Effect.rewardOf, eq_comm (a := p)]
    split
    next heq => rw [heq]; exact .penalized points hpoints hfree
    next => exact .idle

/-- A blocked peer's message changes nothing. -/
lemma turn_dropped {failure : Prop} {guard : PeerGuard} {now deadline : ℕ}
    (hcheck : network.guard.check p now = (.temporarilyBlocked, guard)) :
    Turn failure now deadline (network.guard.record peer) (guard.record peer) (penalties peer [])
      (rewards peer []) := by
  have hblocked : (network.guard.record p).Blocked now := by
    by_contra hfree
    rw [← PeerGuard.check_eq_allow, hcheck] at hfree
    cases hfree
  have hguard : guard = (network.guard.check p now).2 := by rw [hcheck]
  have hrecord : guard.record peer = network.guard.record peer := by
    rw [hguard, PeerGuard.record_check, PeerRecord.lifted_of_blocked hblocked]
    split
    next heq => rw [heq]
    next => rfl
  rw [hrecord]
  exact .idle

/-- What one event does to the record of a peer. -/
lemma turn (ctx : SwarmContext) (network : P2pNode) (surroundings : Surroundings)
    (event : SwarmEvent) (peer : String) :
    Turn (event = .communicationInboundFailure peer) surroundings.instant
      (surroundings.instant + network.guard.banDuration)
      (network.guard.record peer)
      ((handleSwarmEvent ctx network surroundings event).network.guard.record peer)
      (penalties peer (handleSwarmEvent ctx network surroundings event).effects)
      (rewards peer (handleSwarmEvent ctx network surroundings event).effects) := by
  have hnone : NoCalls [] := fun e he => absurd he List.not_mem_nil
  -- only gossip, direct requests and failed direct messages come to the guard
  cases event with
  | mdnsDiscovered peers =>
    simp only [handleSwarmEvent]
    split
    · exact turn_idle rfl hnone
    · obtain ⟨hguard, hcalls⟩ := forEach_guard onDiscovered_guard network peers
      exact turn_idle (by rw [hguard]) hcalls
  | mdnsExpired peers =>
    simp only [handleSwarmEvent]
    split
    · exact turn_idle rfl hnone
    · obtain ⟨hguard, hcalls⟩ := forEach_guard onExpired_guard network peers
      exact turn_idle (by rw [hguard]) hcalls
  | identifyReceived p listenAddrs =>
    refine turn_idle rfl fun e he => ?_
    obtain ⟨address, _, hmem⟩ := List.mem_flatMap.mp he
    exact noCalls_onListenAddr _ _ _ e hmem
  | gossipMessage p source topic data =>
    simp only [handleSwarmEvent]
    cases hcheck : network.guard.check p surroundings.instant with
    | mk decision guard =>
      cases decision with
      -- what a blocked peer sends is dropped unread
      | temporarilyBlocked => exact turn_dropped hcheck
      | allow =>
        simp only [onGossipMessage]
        split
        -- the message is too large, cannot be decoded, or is passed on
        next => exact turn_judged hcheck (by simp [NoCalls]) rfl (.inr ⟨100, by decide, rfl, rfl⟩)
        next =>
          split
          next => exact turn_judged hcheck hnone rfl (.inr ⟨25, by decide, rfl, rfl⟩)
          next message _ =>
            refine turn_judged hcheck ?_ rfl (.inl ⟨rfl, rfl⟩)
            intro e he call
            simp only [Option.mem_toList, Option.map_eq_some_iff] at he
            obtain ⟨told, _, rfl⟩ := he
            simp
  | communicationRequest p request answered =>
    simp only [handleSwarmEvent]
    cases hcheck : network.guard.check p surroundings.instant with
    | mk decision guard =>
      cases decision with
      | temporarilyBlocked => exact turn_dropped hcheck
      | allow =>
        simp only [onCommunicationRequest]
        cases isOk (validateDirectCommunication ctx.localPeerId p request
          surroundings.unixTime) with
        | true =>
          cases answered with
          | true => exact turn_judged hcheck (by simp [NoCalls]) rfl (.inl ⟨rfl, rfl⟩)
          | false => exact turn_judged hcheck hnone rfl (.inl ⟨rfl, rfl⟩)
        | false =>
          have hpoints : (0 : ℤ) < 50 := by decide
          cases answered with
          | true => exact turn_judged hcheck (by simp [NoCalls]) rfl (.inr ⟨50, hpoints, rfl, rfl⟩)
          | false => exact turn_judged hcheck hnone rfl (.inr ⟨50, hpoints, rfl, rfl⟩)
  | communicationInboundFailure p =>
    show Turn _ _ _ _ ((network.guard.penalize p 25 surroundings.instant).2.record peer)
      ((if p = peer then 25 else 0) + 0) (0 + 0)
    rw [PeerGuard.record_penalize, add_zero, add_zero]
    simp only [eq_comm (a := p)]
    split
    next heq => rw [heq]; exact .failed rfl
    next => exact .idle
  | connectionEstablished => exact turn_idle rfl (by simp [NoCalls, handleSwarmEvent])
  | connectionClosed => exact turn_idle rfl (by simp [NoCalls, handleSwarmEvent])
  | outgoingConnectionError => exact turn_idle rfl (by simp [NoCalls, handleSwarmEvent])

lemma banDuration_handle (ctx : SwarmContext) (network : P2pNode) (surroundings : Surroundings)
    (event : SwarmEvent) :
    (handleSwarmEvent ctx network surroundings event).network.guard.banDuration
      = network.guard.banDuration := by
  have hcheck : ∀ p now, (network.guard.check p now).2.banDuration = network.guard.banDuration :=
    fun _ _ => PeerGuard.banDuration_check
  cases event with
  | mdnsDiscovered peers =>
    simp only [handleSwarmEvent]
    split
    · rfl
    · rw [(forEach_guard onDiscovered_guard network peers).1]
  | mdnsExpired peers =>
    simp only [handleSwarmEvent]
    split
    · rfl
    · rw [(forEach_guard onExpired_guard network peers).1]
  | gossipMessage p source topic data =>
    simp only [handleSwarmEvent]
    specialize hcheck p surroundings.instant
    split
    next hresult => rw [hresult] at hcheck; exact hcheck
    next hresult =>
      rw [hresult] at hcheck
      simp only [onGossipMessage]
      split
      · exact PeerGuard.banDuration_penalize.trans hcheck
      · split
        · exact PeerGuard.banDuration_penalize.trans hcheck
        · exact PeerGuard.banDuration_reward.trans hcheck
  | communicationRequest p request answered =>
    simp only [handleSwarmEvent]
    specialize hcheck p surroundings.instant
    split
    next hresult => rw [hresult] at hcheck; exact hcheck
    next hresult =>
      rw [hresult] at hcheck
      simp only [onCommunicationRequest]
      cases isOk (validateDirectCommunication ctx.localPeerId p request
        surroundings.unixTime) with
      | true => cases answered <;> exact PeerGuard.banDuration_reward.trans hcheck
      | false => cases answered <;> exact PeerGuard.banDuration_penalize.trans hcheck
  | communicationInboundFailure p => exact PeerGuard.banDuration_penalize
  | _ => rfl

/-! ## Runs -/

lemma run_concat (ctx : SwarmContext) (network : P2pNode) (arrivals : List Arrival) (a : Arrival) :
    run ctx network (arrivals ++ [a])
      = ((handleSwarmEvent ctx (run ctx network arrivals).1 a.1 a.2).network,
          (run ctx network arrivals).2
            ++ (handleSwarmEvent ctx (run ctx network arrivals).1 a.1 a.2).effects) := by
  rw [run, List.foldl_append]
  rfl

lemma banDuration_run (ctx : SwarmContext) (network : P2pNode) (arrivals : List Arrival) :
    (run ctx network arrivals).1.guard.banDuration = network.guard.banDuration := by
  induction arrivals using List.reverseRecOn with
  | nil => rfl
  | append_singleton arrivals a ih =>
    rw [run_concat]
    exact (banDuration_handle _ _ _ _).trans ih

end P2pNode

/-- A turn keeps a record sane. -/
lemma Turn.sane {failure : Prop} {now deadline : ℕ} {record after : PeerRecord}
    {taken given : ℤ} (h : Turn failure now deadline record after taken given)
    (hsane : record.Sane) : after.Sane := by
  cases h with
  | idle => exact hsane
  | rewarded hfree =>
    apply hsane.lifted.rewarded
    cases hblocked : record.blockedUntil with
    | none => rw [PeerRecord.lifted_of_none hblocked, hblocked]
    | some d =>
      have hover : d ≤ now := Nat.not_lt.mp fun hlt => hfree ⟨d, hblocked, hlt⟩
      rw [PeerRecord.lifted_of_over hblocked hover]
      rfl
  | penalized points hpoints hfree => exact hsane.lifted.penalized
  | failed hfailure => exact hsane.penalized

namespace P2pNode

lemma sane_run (ctx : SwarmContext) {network : P2pNode}
    (hsane : ∀ peer, (network.guard.record peer).Sane) (arrivals : List Arrival) (peer : String) :
    ((run ctx network arrivals).1.guard.record peer).Sane := by
  induction arrivals using List.reverseRecOn with
  | nil => exact hsane peer
  | append_singleton arrivals a ih =>
    rw [run_concat]
    exact (turn ctx _ a.1 a.2 peer).sane ih

lemma sane_start (banDuration : ℕ) (peer : String) :
    ((start banDuration).guard.record peer).Sane := PeerRecord.sane_fresh

end P2pNode

/-! ## The bound on penalties -/

/-- How a peer stands in a stretch of time that ends at `last`: it is blocked until later, or it is
blocked since before, or its penalties are in its score. -/
inductive Standing (last : ℕ) (record : PeerRecord) (taken given : ℤ) : Prop where
  | banned (d : ℕ) (h : record.blockedUntil = some d) (hlast : last < d)
  | waiting (h : record.blockedUntil ≠ none) (htaken : taken = 0) (hgiven : given = 0)
  | free (h : record.blockedUntil = none) (hle : taken ≤ record.score + given)

namespace Standing
variable {last now deadline : ℕ} {record after : PeerRecord} {taken given points : ℤ}

/-- A penalty bans a peer, or it is in the score. -/
lemma penalized (hsane : record.Sane) (hblocked : record.blockedUntil = none)
    (hle : taken ≤ record.score + given) (hpoints : 0 < points) (hlast : last < deadline) :
    Standing last (record.penalized points deadline) (taken + points) given := by
  have hscore : ¬ banScore ≤ record.score := fun hban => hsane.blocked.mpr hban hblocked
  have hban : banScore = 100 := rfl
  unfold PeerRecord.penalized
  simp only [PeerRecord.saturatingAdd_eq hsane]
  split
  next => exact .banned deadline rfl hlast
  next hfree =>
    refine .free hblocked ?_
    show taken + points ≤ min (2 ^ 31 - 1) (record.score + max points 0) + given
    omega

/-- A penalty on a blocked peer starts the block anew. -/
lemma penalized_of_blocked (hsane : record.Sane) (hblocked : record.blockedUntil ≠ none)
    (hlast : last < deadline) :
    Standing last (record.penalized points deadline) taken given := by
  have hscore := hsane.blocked.mp hblocked
  have hmax := hsane.le_max
  have hban : banScore = 100 := rfl
  unfold PeerRecord.penalized
  simp only [PeerRecord.saturatingAdd_eq hsane]
  rw [if_pos (by omega)]
  exact .banned deadline rfl hlast

/-- The standing after one event of the stretch. -/
lemma turn (h : Standing last record taken given) (hsane : record.Sane) (hnow : now ≤ last)
    (hlast : last < deadline) {failure : Prop} {newTaken newGiven : ℤ}
    (hturn : Turn failure now deadline record after newTaken newGiven) :
    Standing last after (taken + newTaken) (given + newGiven) := by
  cases hturn with
  | idle => simpa using h
  | rewarded hfree =>
    rw [add_zero]
    cases h with
    | banned d hd hlast => exact absurd ⟨d, hd, lt_of_le_of_lt hnow hlast⟩ hfree
    -- its ban is over: the record starts afresh
    | waiting hblocked htaken hgiven =>
      obtain ⟨d, hd⟩ := Option.ne_none_iff_exists'.mp hblocked
      have hover : d ≤ now := Nat.not_lt.mp fun hlt => hfree ⟨d, hd, hlt⟩
      rw [PeerRecord.lifted_of_over hd hover, htaken, hgiven]
      exact .free rfl (by decide)
    | free hblocked hle =>
      rw [PeerRecord.lifted_of_none hblocked]
      refine .free hblocked ?_
      show taken ≤ max (record.score - 1) 0 + (given + 1)
      omega
  | penalized _ hpoints hfree =>
    rw [add_zero]
    cases h with
    | banned d hd hlast => exact absurd ⟨d, hd, lt_of_le_of_lt hnow hlast⟩ hfree
    | waiting hblocked htaken hgiven =>
      obtain ⟨d, hd⟩ := Option.ne_none_iff_exists'.mp hblocked
      have hover : d ≤ now := Nat.not_lt.mp fun hlt => hfree ⟨d, hd, hlt⟩
      rw [PeerRecord.lifted_of_over hd hover, htaken, hgiven]
      exact penalized PeerRecord.sane_fresh rfl (by decide) hpoints hlast
    | free hblocked hle =>
      rw [PeerRecord.lifted_of_none hblocked]
      exact penalized hsane hblocked hle hpoints hlast
  | failed hfailure =>
    rw [add_zero]
    cases h with
    | banned d hd _ => exact penalized_of_blocked hsane (by rw [hd]; simp) hlast
    | waiting hblocked _ _ => exact penalized_of_blocked hsane hblocked hlast
    | free hblocked hle => exact penalized hsane hblocked hle (by decide) hlast

end Standing

namespace P2pNode

/-- The standing of a peer at the end of a stretch that is shorter than a block. -/
lemma standing_run (ctx : SwarmContext) {network : P2pNode}
    (hsane : ∀ peer, (network.guard.record peer).Sane) (peer : String) (last : ℕ) :
    ∀ window : List Arrival,
      (∀ a ∈ window, a.1.instant ≤ last ∧ last < a.1.instant + network.guard.banDuration) →
      Standing last ((run ctx network window).1.guard.record peer)
        (penalties peer (run ctx network window).2) (rewards peer (run ctx network window).2) := by
  intro window
  induction window using List.reverseRecOn with
  | nil =>
    intro _
    by_cases hblocked : (network.guard.record peer).blockedUntil = none
    · have hnonneg := (hsane peer).nonneg
      exact .free hblocked (by simpa [run, penalties, rewards] using hnonneg)
    · exact .waiting hblocked rfl rfl
  | append_singleton window a ih =>
    intro hwindow
    obtain ⟨hnow, hlast⟩ := hwindow a (by simp)
    have hbefore := ih fun b hb => hwindow b (List.mem_append_left _ hb)
    have hturn := turn ctx (run ctx network window).1 a.1 a.2 peer
    rw [banDuration_run] at hturn
    rw [run_concat, penalties_append, rewards_append]
    exact hbefore.turn (sane_run ctx hsane window peer) hnow hlast hturn

/-- **Abuse is bounded.** Where a peer is looked at, the penalties it collected in a stretch of time
shorter than a block are fewer than a block takes, but for one more for each good message. -/
theorem penalties_bounded (ctx : SwarmContext) (banDuration : ℕ) (before window : List Arrival)
    (peer : String) (now : ℕ)
    (hwindow : ∀ a ∈ window, a.1.instant ≤ now ∧ now < a.1.instant + banDuration)
    (hseen : ((run ctx (run ctx (start banDuration) before).1 window).1.guard.check peer now).1
      = .allow) :
    penalties peer (run ctx (run ctx (start banDuration) before).1 window).2
      ≤ 99 + rewards peer (run ctx (run ctx (start banDuration) before).1 window).2 := by
  have hsane := sane_run ctx (sane_start banDuration) before
  have hban : (run ctx (start banDuration) before).1.guard.banDuration = banDuration :=
    banDuration_run ctx _ before
  have hfree := PeerGuard.check_eq_allow.mp hseen
  have hstanding := standing_run ctx hsane peer now window (by rwa [hban])
  cases hstanding with
  | banned d hd hlast => exact absurd ⟨d, hd, hlast⟩ hfree
  | waiting _ htaken hgiven => rw [htaken, hgiven]; decide
  | free hblocked hle =>
    have hend := sane_run ctx hsane window peer
    have hscore : ¬ (100 : ℤ) ≤ _ := fun hban => hend.blocked.mpr hban hblocked
    omega

end P2pNode

/-! A node that cannot read what `p` sends. -/

namespace Sample

/-- The message that there is a version `1`. -/
def news : Bytes := textBytes "\x7b\"UpdateAvailable\":\x7b\"version\":\"1\"\x7d\x7d"

def ctx : SwarmContext where
  codec :=
    { toVec := fun _ => .error "not supported"
      fromSlice := fun bytes =>
        if bytes = news then .ok (.updateAvailable "1")
        else .error "expected value at line 1 column 1"
      compress := .ok
      decompress := fun bytes _ => .ok bytes }
  localPeerId := "node"
  maxMessageBytes := 100
  loopbackOnly := false

def surroundings (instant : ℕ) : Surroundings :=
  { instant
    unixTime := .ok 0
    resolver := ⟨fun _ => .error "no such host", id, fun _ => List.Perm.refl _⟩ }

def garbage (instants : List ℕ) : List P2pNode.Arrival :=
  instants.map fun instant =>
    (surroundings instant, .gossipMessage "p" none "ieum-chain/blocks/1" [])

/-- Three messages that do not decode, one that does, and one more that does not. -/
def mixed : List P2pNode.Arrival :=
  garbage [1, 2, 3] ++ [(surroundings 4, .gossipMessage "p" none "ieum-chain/blocks/1" news)] ++
    garbage [5]

end Sample

namespace P2pNode

/-- The good message lets a fourth bad one pass: they take 100 points together, and the next one is
looked at. -/
theorem penalties_bounded_mixed :
    penalties "p" (run Sample.ctx (run Sample.ctx (start 10) []).1 Sample.mixed).2 = 100 ∧
      penalties "p" (run Sample.ctx (run Sample.ctx (start 10) []).1 Sample.mixed).2
        ≤ 99 + rewards "p" (run Sample.ctx (run Sample.ctx (start 10) []).1 Sample.mixed).2 :=
  ⟨by decide +kernel, penalties_bounded Sample.ctx 10 [] Sample.mixed "p" 6 (by decide +kernel)
    (by decide +kernel)⟩

end P2pNode

/-! ## The block -/

/-- Is the event a message of the peer? -/
def SwarmEvent.sentBy (peer : String) : SwarmEvent → Bool
  | .gossipMessage p _ _ _ => p == peer
  | .communicationRequest p _ _ => p == peer
  | _ => false

/-- A penalty that leaves a peer blocked blocks it for the whole duration. -/
lemma Turn.blocked {failure : Prop} {now deadline : ℕ} {record after : PeerRecord}
    {taken given : ℤ} (h : Turn failure now deadline record after taken given)
    (hsane : record.Sane) (htaken : taken ≠ 0) (hblocked : after.Blocked now) :
    after.blockedUntil = some deadline := by
  have hpenalized : ∀ {r : PeerRecord} {points : ℤ}, r.Sane →
      (r.penalized points deadline).Blocked now →
      (r.penalized points deadline).blockedUntil = some deadline := by
    rintro r points hr ⟨d, hd, _⟩
    have hafter : (r.penalized points deadline).Sane := hr.penalized
    have hban := hafter.blocked.mp (by rw [hd]; simp)
    unfold PeerRecord.penalized at hban ⊢
    simp only at hban ⊢
    split
    next => rfl
    next hfree => rw [if_neg hfree] at hban; exact absurd hban hfree
  cases h with
  | idle => exact absurd rfl htaken
  | rewarded _ => exact absurd rfl htaken
  | penalized points _ _ => exact hpenalized hsane.lifted hblocked
  | failed _ => exact hpenalized hsane hblocked

/-- While a peer is blocked only a failed connection touches its record, and starts the block
anew. -/
lemma Turn.of_blocked {failure : Prop} {now deadline d : ℕ} {record after : PeerRecord}
    {taken given : ℤ} (h : Turn failure now deadline record after taken given)
    (hsane : record.Sane) (hd : record.blockedUntil = some d) (hnow : now < d) :
    after.blockedUntil = some d ∨ failure ∧ after.blockedUntil = some deadline := by
  cases h with
  | idle => exact .inl hd
  | rewarded hfree => exact absurd ⟨d, hd, hnow⟩ hfree
  | penalized _ _ hfree => exact absurd ⟨d, hd, hnow⟩ hfree
  | failed hfailure =>
    have hscore := hsane.blocked.mp (by rw [hd]; simp)
    have hmax := hsane.le_max
    have hban : banScore = 100 := rfl
    refine .inr ⟨hfailure, ?_⟩
    unfold PeerRecord.penalized
    simp only [PeerRecord.saturatingAdd_eq hsane]
    rw [if_pos (by omega)]

namespace P2pNode

/-- A message of a blocked peer is dropped. -/
lemma handle_blocked (ctx : SwarmContext) {network : P2pNode} {surroundings : Surroundings}
    {event : SwarmEvent} {peer : String} (hsent : event.sentBy peer = true)
    (hblocked : (network.guard.record peer).Blocked surroundings.instant) :
    (handleSwarmEvent ctx network surroundings event).network = network ∧
      (handleSwarmEvent ctx network surroundings event).effects = [] := by
  have hcheck : network.guard.check peer surroundings.instant
      = (.temporarilyBlocked, network.guard) := by
    unfold PeerGuard.record at hblocked
    unfold PeerGuard.check
    cases hlookup : network.guard.peers.lookup peer with
    | none =>
      rw [hlookup] at hblocked
      obtain ⟨d, hd, _⟩ := hblocked
      cases hd
    | some r =>
      rw [hlookup] at hblocked
      obtain ⟨d, hd, hlt⟩ := hblocked
      have hr : r.blockedUntil = some d := hd
      simp only [hr, hlt, if_true]
  cases event with
  | gossipMessage p source topic data =>
    obtain rfl : p = peer := by simpa [SwarmEvent.sentBy] using hsent
    simp only [handleSwarmEvent, hcheck, and_self]
  | communicationRequest p request answered =>
    obtain rfl : p = peer := by simpa [SwarmEvent.sentBy] using hsent
    simp only [handleSwarmEvent, hcheck, and_self]
  | _ => simp [SwarmEvent.sentBy] at hsent

lemma run_cons (ctx : SwarmContext) (network : P2pNode) (a : Arrival) (arrivals : List Arrival) :
    run ctx network (a :: arrivals)
      = ((run ctx (handleSwarmEvent ctx network a.1 a.2).network arrivals).1,
          (handleSwarmEvent ctx network a.1 a.2).effects
            ++ (run ctx (handleSwarmEvent ctx network a.1 a.2).network arrivals).2) := by
  induction arrivals using List.reverseRecOn with
  | nil => simp [run]
  | append_singleton arrivals b ih =>
    rw [← List.cons_append, run_concat, ih, run_concat, List.append_assoc]

/-- While a peer is blocked until `d` at least, its messages might as well not have come. -/
lemma run_blocked (ctx : SwarmContext) (peer : String) (d : ℕ) : ∀ (arrivals : List Arrival)
    (network : P2pNode), (∀ p, (network.guard.record p).Sane) →
    (∃ e, (network.guard.record peer).blockedUntil = some e ∧ d ≤ e) →
    (∀ a ∈ arrivals, a.1.instant < d ∧ d ≤ a.1.instant + network.guard.banDuration) →
    run ctx network arrivals
        = run ctx network (arrivals.filter fun a => !a.2.sentBy peer) ∧
      ((∀ a ∈ arrivals, a.2 ≠ .communicationInboundFailure peer) →
        ((run ctx network arrivals).1.guard.record peer).blockedUntil
          = (network.guard.record peer).blockedUntil) := by
  intro arrivals
  induction arrivals with
  | nil => exact fun network _ _ _ => ⟨rfl, fun _ => rfl⟩
  | cons a arrivals ih =>
    rintro network hsane ⟨e, he, hde⟩ hinstants
    obtain ⟨⟨hnow, hlast⟩, hrest⟩ := List.forall_mem_cons.mp hinstants
    have hlt : a.1.instant < e := lt_of_lt_of_le hnow hde
    have hturn := turn ctx network a.1 a.2 peer
    have hsane' : ∀ p, ((handleSwarmEvent ctx network a.1 a.2).network.guard.record p).Sane :=
      fun p => (turn ctx network a.1 a.2 p).sane (hsane p)
    -- only a failed direct message can move the end of the block, to that of a new ban
    have hkept : ∃ e', ((handleSwarmEvent ctx network a.1 a.2).network.guard.record
        peer).blockedUntil = some e' ∧ d ≤ e' := by
      rcases hturn.of_blocked (hsane peer) he hlt with hsame | ⟨_, hanew⟩
      · exact ⟨e, hsame, hde⟩
      · exact ⟨_, hanew, hlast⟩
    obtain ⟨heq, hsame⟩ := ih _ hsane' hkept (by rwa [banDuration_handle])
    constructor
    · cases hsent : a.2.sentBy peer with
      | true =>
        obtain ⟨hnetwork, heffects⟩ := handle_blocked ctx hsent ⟨e, he, hlt⟩
        rw [List.filter_cons_of_neg (by simp [hsent]), run_cons, heq, hnetwork, heffects]
        rfl
      | false =>
        rw [List.filter_cons_of_pos (by simp [hsent]), run_cons, run_cons, heq]
    · intro hnofailure
      obtain ⟨hfirst, hothers⟩ := List.forall_mem_cons.mp hnofailure
      rw [run_cons]
      show ((run ctx _ arrivals).1.guard.record peer).blockedUntil = _
      rw [hsame hothers]
      rcases hturn.of_blocked (hsane peer) he hlt with hsame | ⟨hfailure, _⟩
      · rw [hsame, he]
      · exact absurd hfailure hfirst

/-- **A block holds.** A penalty that leaves a peer blocked takes it out of the run for as long as a
block lasts: the task does what it does without the peer's messages. After that, unless a connection
to the peer failed in between, the peer is let in again. -/
theorem blocked_silent (ctx : SwarmContext) (banDuration : ℕ) (before : List Arrival) (a : Arrival)
    (after : List Arrival) (peer : String) {handled : Handled}
    (hhandled : handleSwarmEvent ctx (run ctx (start banDuration) before).1 a.1 a.2 = handled)
    (hpenalty : penalties peer handled.effects ≠ 0)
    (hblocked : (handled.network.guard.check peer a.1.instant).1 = .temporarilyBlocked)
    (hafter : ∀ b ∈ after, a.1.instant ≤ b.1.instant ∧ b.1.instant < a.1.instant + banDuration) :
    run ctx handled.network after
        = run ctx handled.network (after.filter fun b => !b.2.sentBy peer) ∧
      ((∀ b ∈ after, b.2 ≠ .communicationInboundFailure peer) →
        ∀ now, a.1.instant + banDuration ≤ now →
          ((run ctx handled.network after).1.guard.check peer now).1 = .allow) := by
  subst hhandled
  set network := (handleSwarmEvent ctx (run ctx (start banDuration) before).1 a.1 a.2).network
  have hsane := sane_run ctx (sane_start banDuration) before
  have hban : network.guard.banDuration = banDuration :=
    (banDuration_handle ctx _ a.1 a.2).trans (banDuration_run ctx _ before)
  have hturn := turn ctx (run ctx (start banDuration) before).1 a.1 a.2 peer
  have hnot : (network.guard.record peer).Blocked a.1.instant := by
    by_contra hfree
    rw [← PeerGuard.check_eq_allow, hblocked] at hfree
    cases hfree
  -- the penalty that blocked the peer started a whole ban
  have huntil : (network.guard.record peer).blockedUntil = some (a.1.instant + banDuration) := by
    have h := hturn.blocked (hsane peer) hpenalty hnot
    rwa [banDuration_run] at h
  have hinstants : ∀ b ∈ after, b.1.instant < a.1.instant + banDuration ∧
      a.1.instant + banDuration ≤ b.1.instant + network.guard.banDuration := by
    intro b hb
    obtain ⟨hle, hlt⟩ := hafter b hb
    rw [hban]
    exact ⟨hlt, Nat.add_le_add_right hle _⟩
  obtain ⟨heq, hsame⟩ := run_blocked ctx peer _ after network
    (fun p => (turn ctx _ a.1 a.2 p).sane (hsane p)) ⟨_, huntil, le_rfl⟩ hinstants
  refine ⟨heq, fun hnofailure now hnow => ?_⟩
  rw [PeerGuard.check_eq_allow]
  rintro ⟨d, hd, hlt⟩
  rw [hsame hnofailure, huntil] at hd
  obtain rfl := Option.some.inj hd
  exact absurd hnow (Nat.not_le.mpr hlt)

/-- The fourth message bans. The fifth is not looked at, while another peer's is, and when the block
is over the peer is let in again. -/
theorem blocked_silent_fifth :
    let banned := (handleSwarmEvent Sample.ctx
      (run Sample.ctx (start 10) (Sample.garbage [1, 2, 3])).1 (Sample.surroundings 4)
      (.gossipMessage "p" none "ieum-chain/blocks/1" [])).network
    let other : Arrival :=
      (Sample.surroundings 6, .gossipMessage "q" none "ieum-chain/blocks/1" Sample.news)
    run Sample.ctx banned (Sample.garbage [5] ++ [other]) = run Sample.ctx banned [other] ∧
      ∀ now, 14 ≤ now →
        ((run Sample.ctx banned (Sample.garbage [5] ++ [other])).1.guard.check "p" now).1 =
          .allow := by
  intro banned other
  obtain ⟨hsilent, hallowed⟩ := blocked_silent Sample.ctx 10 (Sample.garbage [1, 2, 3])
    (Sample.surroundings 4, .gossipMessage "p" none "ieum-chain/blocks/1" [])
    (Sample.garbage [5] ++ [other]) "p" rfl (by decide +kernel) (by decide +kernel)
    (by decide +kernel)
  refine ⟨hsilent, hallowed ?_⟩
  intro b hb
  rcases List.mem_pair.mp hb with rfl | rfl <;> nofun

/-! ## Addresses -/

end P2pNode

/-- The peers that were found on the LAN in a run. -/
def lanPeers (arrivals : List P2pNode.Arrival) : List String :=
  arrivals.flatMap fun a => match a.2 with
    | .mdnsDiscovered peers => peers.map Prod.fst
    | _ => []

/-- What `accepts_learned_address` asks of an address: its IPv4 components are public, or private
ones of the LAN, and none of IPv6 is `::` or `::1`. Every other IPv6 address passes, private ones
too, and so does every other component. -/
structure AllowedIps (lan : Bool) (address : Multiaddr) : Prop where
  ip4 : ∀ ip, .ip4 ip ∈ address → isPublicIpv4 ip = true ∨ lan = true ∧ isLanIpv4 ip = true
  ip6 : ∀ ip, .ip6 ip ∈ address → ip ≠ 0 ∧ ip ≠ 1

/-- What `normalize_learned_address` and `resolve_dns4_addresses` leave of an address that a peer
tells of itself: it goes over one relay at most, and no `/dns4` is left in it. The other kinds of
names (`/dns`, `/dns6`, `/dnsaddr`) are not resolved and stay. -/
structure Dns4Resolved (address : Multiaddr) : Prop where
  nonempty : address ≠ []
  circuits : address.count .p2pCircuit ≤ 1
  no_dns4 : ∀ domain, .dns4 domain ∉ address

lemma allowedIps_of_accepts {lan : Bool} {address : Multiaddr}
    (h : acceptsLearnedAddress address lan = true) : AllowedIps lan address := by
  have hall := List.all_eq_true.mp h
  constructor
  · intro ip hmem
    simpa [acceptsProtocol] using hall _ hmem
  · intro ip hmem
    have hip := hall _ hmem
    simp only [acceptsProtocol, Bool.and_eq_true, Bool.not_eq_true', beq_eq_false_iff_ne] at hip
    exact ⟨hip.2, hip.1⟩

lemma AllowedIps.mono {lan lan' : Bool} {address : Multiaddr} (h : AllowedIps lan address)
    (hlan : lan = true → lan' = true) : AllowedIps lan' address :=
  ⟨fun ip hmem => (h.ip4 ip hmem).imp_right fun ⟨hyes, hip⟩ => ⟨hlan hyes, hip⟩, h.ip6⟩

/-- Normalising takes nothing into an address that is not there. -/
lemma normalizeFrom_sublist {peerId : String} {afterCircuit : Bool} {address normalized : Multiaddr}
    (h : normalizeFrom peerId afterCircuit address = some normalized) :
    normalized.Sublist address := by
  induction address generalizing afterCircuit normalized with
  | nil =>
    obtain rfl := Option.some.inj h
    exact List.Sublist.slnil
  | cons protocol rest ih =>
    have hmap : ∀ {b : Bool} {l : Multiaddr},
        (normalizeFrom peerId b rest).map (protocol :: ·) = some l →
        l.Sublist (protocol :: rest) := by
      intro b l hl
      obtain ⟨l', hl', rfl⟩ := Option.map_eq_some_iff.mp hl
      exact (ih hl').cons_cons _
    cases protocol with
    | p2p found =>
      simp only [normalizeFrom] at h
      split at h
      · obtain rfl := Option.some.inj h
        exact List.nil_sublist _
      · split at h
        · cases h
        · exact hmap h
    | _ => exact hmap h

/-- A domain is replaced wherever it stands. -/
lemma replaceDns4_ne (ip : Ipv4) (domain : String) (protocol : Protocol) :
    replaceDns4 ip protocol ≠ .dns4 domain := by
  cases protocol <;> simp [replaceDns4]

lemma count_replaceDns4 (ip : Ipv4) (address : Multiaddr) :
    (address.map (replaceDns4 ip)).count .p2pCircuit = address.count .p2pCircuit := by
  induction address with
  | nil => rfl
  | cons protocol rest ih =>
    rw [List.map_cons, List.count_cons, List.count_cons, ih]
    cases protocol <;> simp [replaceDns4]

/-- What resolving gives. -/
lemma resolved_of_mem {resolver : Resolver} {address found : Multiaddr} {all : List Multiaddr}
    (hresolve : resolveDns4Addresses resolver address = .ok all) (hmem : found ∈ all)
    (hne : address ≠ []) (hcircuits : address.count .p2pCircuit ≤ 1) : Dns4Resolved found := by
  unfold resolveDns4Addresses at hresolve
  split at hresolve
  next hnone =>
    obtain rfl := Except.ok.inj hresolve
    obtain rfl := List.mem_singleton.mp hmem
    refine ⟨hne, hcircuits, fun domain hdomain => ?_⟩
    have hnot := List.findSome?_eq_none_iff.mp hnone _ hdomain
    cases hnot
  next domain hdomain =>
    simp only [bind_eq_ok, mapError_eq_ok, ensure_eq_ok, pure_eq_ok] at hresolve
    obtain ⟨answer, _, _, _, rfl⟩ := hresolve
    obtain ⟨ip, _, rfl⟩ := List.mem_map.mp ((resolver.sort_perm _).mem_iff.mp hmem)
    refine ⟨by simpa using hne, ?_, fun domain hdomain => ?_⟩
    · rw [count_replaceDns4]
      exact hcircuits
    · obtain ⟨protocol, _, heq⟩ := List.mem_map.mp hdomain
      exact replaceDns4_ne _ _ _ heq

namespace P2pNode
variable {ctx : SwarmContext} {network : P2pNode} {peer : String} {address : Multiaddr}

/-- Effects of a peer's own messages and connections do not touch the routing table. -/
def NoAddresses (effects : List Effect) : Prop := ∀ p address, .addAddress p address ∉ effects

lemma noAddresses_calls (ctx : SwarmContext) (network : P2pNode) (surroundings : Surroundings)
    {event : SwarmEvent} (h : ∀ peers, event ≠ .mdnsDiscovered peers)
    (h' : ∀ p addresses, event ≠ .identifyReceived p addresses)
    (h'' : ∀ peers, event ≠ .mdnsExpired peers) :
    NoAddresses (handleSwarmEvent ctx network surroundings event).effects ∧
      (handleSwarmEvent ctx network surroundings event).network.sameLanPeers
        = network.sameLanPeers := by
  cases event with
  | mdnsDiscovered peers => exact absurd rfl (h peers)
  | mdnsExpired peers => exact absurd rfl (h'' peers)
  | identifyReceived p addresses => exact absurd rfl (h' p addresses)
  | gossipMessage p source topic data =>
    simp only [handleSwarmEvent]
    split
    · exact ⟨by simp [NoAddresses], rfl⟩
    · simp only [onGossipMessage]
      split
      · exact ⟨by simp [NoAddresses], rfl⟩
      · split
        · exact ⟨by simp [NoAddresses], rfl⟩
        · refine ⟨fun q a hmem => ?_, rfl⟩
          rcases List.mem_cons.mp hmem with heq | hmem
          · cases heq
          · obtain ⟨told, _, heq⟩ := Option.map_eq_some_iff.mp (Option.mem_toList.mp hmem)
            cases heq
  | communicationRequest p request answered =>
    simp only [handleSwarmEvent]
    split
    · exact ⟨by simp [NoAddresses], rfl⟩
    · simp only [onCommunicationRequest]
      cases isOk (validateDirectCommunication ctx.localPeerId p request
          surroundings.unixTime) with
      | true => cases answered <;> exact ⟨by simp [NoAddresses], rfl⟩
      | false => cases answered <;> exact ⟨by simp [NoAddresses], rfl⟩
  | _ => exact ⟨by simp [NoAddresses, handleSwarmEvent], rfl⟩

/-- What the loop over discovered addresses adds was discovered. -/
lemma forEach_onDiscovered (network : P2pNode) (peers : List (String × Multiaddr)) :
    (∀ p ∈ (forEach onDiscovered network peers).1.sameLanPeers,
      p ∈ network.sameLanPeers ∨ p ∈ peers.map Prod.fst) ∧
    ∀ p address, .addAddress p address ∈ (forEach onDiscovered network peers).2 →
      p ∈ peers.map Prod.fst ∧ AllowedIps true address := by
  induction peers using List.reverseRecOn with
  | nil => exact ⟨fun p hp => .inl hp, fun p address hmem => absurd hmem List.not_mem_nil⟩
  | append_singleton peers entry ih =>
    obtain ⟨hpeers, heffects⟩ := ih
    rw [forEach_concat, List.map_append]
    constructor
    · intro p hp
      simp only [onDiscovered] at hp
      split at hp
      · rcases Finset.mem_insert.mp hp with rfl | hp
        · exact .inr (by simp)
        · exact (hpeers p hp).imp_right (List.mem_append_left _)
      · exact (hpeers p hp).imp_right (List.mem_append_left _)
    · intro p address hmem
      rcases List.mem_append.mp hmem with hmem | hmem
      · exact (heffects p address hmem).imp_left (List.mem_append_left _)
      · simp only [onDiscovered] at hmem
        split at hmem
        next haccepts =>
          simp only [List.mem_cons, Effect.addAddress.injEq, List.not_mem_nil, or_false,
            reduceCtorEq, false_or] at hmem
          obtain ⟨rfl, rfl⟩ := hmem
          exact ⟨by simp, allowedIps_of_accepts haccepts⟩
        next => simp at hmem

lemma forEach_onExpired (network : P2pNode) (peers : List (String × Multiaddr)) :
    (∀ p ∈ (forEach onExpired network peers).1.sameLanPeers, p ∈ network.sameLanPeers) ∧
      NoAddresses (forEach onExpired network peers).2 := by
  induction peers using List.reverseRecOn with
  | nil => exact ⟨fun p hp => hp, fun p address => List.not_mem_nil⟩
  | append_singleton peers entry ih =>
    obtain ⟨hpeers, heffects⟩ := ih
    rw [forEach_concat]
    constructor
    · intro p hp
      exact hpeers p (Finset.mem_of_mem_erase hp)
    · intro p address hmem
      rcases List.mem_append.mp hmem with hmem | hmem
      · exact heffects p address hmem
      · exact absurd (List.mem_singleton.mp hmem) (by simp)

/-- What a peer's own list of addresses adds. -/
lemma onListenAddr_adds {resolver : Resolver} {p : String} {listed : Multiaddr}
    (hmem : .addAddress peer address ∈ onListenAddr network resolver p listed) :
    peer = p ∧ AllowedIps (decide (p ∈ network.sameLanPeers)) address ∧ Dns4Resolved address := by
  unfold onListenAddr at hmem
  split at hmem
  · exact absurd hmem List.not_mem_nil
  next normalized hnormalized =>
    split at hmem
    · exact absurd hmem List.not_mem_nil
    next all hresolve =>
      obtain ⟨found, hfound, hlearn⟩ := List.mem_map.mp hmem
      unfold learn at hlearn
      split at hlearn
      next haccepts =>
        obtain ⟨rfl, rfl⟩ := Effect.addAddress.inj hlearn
        unfold normalizeLearnedAddress at hnormalized
        split at hnormalized
        · cases hnormalized
        next hcircuits =>
          obtain ⟨hfrom, hne⟩ := Option.filter_eq_some_iff.mp hnormalized
          have hcount : normalized.count .p2pCircuit ≤ 1 :=
            le_trans ((normalizeFrom_sublist hfrom).count_le _) (Nat.not_lt.mp hcircuits)
          exact ⟨rfl, allowedIps_of_accepts haccepts,
            resolved_of_mem hresolve hfound (by simpa using hne) hcount⟩
      next => cases hlearn

/-- The addresses that were passed on so far, when `lan` were found on the LAN. -/
structure Learned (ctx : SwarmContext) (lan : List String) (network : P2pNode)
    (effects : List Effect) : Prop where
  peers : ∀ p ∈ network.sameLanPeers, ctx.loopbackOnly = false ∧ p ∈ lan
  routable : ∀ p address, .addAddress p address ∈ effects →
    AllowedIps (!ctx.loopbackOnly && decide (p ∈ lan)) address
  resolved : ∀ p address, .addAddress p address ∈ effects →
    p ∉ lan ∨ ctx.loopbackOnly = true → Dns4Resolved address

namespace Learned
variable {lan found : List String} {effects more : List Effect} {after : P2pNode}

/-- What was passed on stays in order when more peers are found. -/
lemma append (h : Learned ctx lan network effects) (found : List String) :
    Learned ctx (lan ++ found) network effects where
  peers p hp := (h.peers p hp).imp_right (List.mem_append_left _)
  routable p address hmem := by
    refine (h.routable p address hmem).mono fun hlan => ?_
    simp only [Bool.and_eq_true, decide_eq_true_eq] at hlan ⊢
    exact hlan.imp_right (List.mem_append_left _)
  resolved p address hmem hnot := h.resolved p address hmem
    (hnot.imp_left fun hfresh hold => hfresh (List.mem_append_left _ hold))

/-- An event that adds no address. -/
lemma quiet (h : Learned ctx lan network effects) (hnone : NoAddresses more)
    (hless : ∀ p ∈ after.sameLanPeers, p ∈ network.sameLanPeers) :
    Learned ctx lan after (effects ++ more) where
  peers p hp := h.peers p (hless p hp)
  routable p address hmem :=
    h.routable p address ((List.mem_append.mp hmem).resolve_right (hnone p address))
  resolved p address hmem :=
    h.resolved p address ((List.mem_append.mp hmem).resolve_right (hnone p address))

/-- Peers of the LAN are found. -/
lemma discovered (h : Learned ctx lan network effects) (hloopback : ctx.loopbackOnly = false)
    (peers : List (String × Multiaddr)) :
    Learned ctx (lan ++ peers.map Prod.fst) (forEach onDiscovered network peers).1
      (effects ++ (forEach onDiscovered network peers).2) := by
  obtain ⟨hlan, hadds⟩ := forEach_onDiscovered network peers
  have hold := h.append (peers.map Prod.fst)
  constructor
  · intro p hp
    rcases hlan p hp with hp | hp
    · exact hold.peers p hp
    · exact ⟨hloopback, List.mem_append_right _ hp⟩
  · intro p address hmem
    rcases List.mem_append.mp hmem with hmem | hmem
    · exact hold.routable p address hmem
    · obtain ⟨hp, hroutable⟩ := hadds p address hmem
      have hin : p ∈ lan ++ peers.map Prod.fst := List.mem_append_right _ hp
      exact hroutable.mono fun _ => by simp [hloopback, hin]
  · intro p address hmem hnot
    rcases List.mem_append.mp hmem with hmem | hmem
    · exact hold.resolved p address hmem hnot
    · rcases hnot with hfresh | hloop
      · exact absurd (List.mem_append_right _ (hadds p address hmem).1) hfresh
      · rw [hloopback] at hloop
        cases hloop

/-- A peer tells its addresses. -/
lemma identified (h : Learned ctx lan network effects) (resolver : Resolver) (peer : String)
    (listenAddrs : List Multiaddr) :
    Learned ctx lan network
      (effects ++ listenAddrs.flatMap (onListenAddr network resolver peer)) := by
  refine ⟨h.peers, fun p address hmem => ?_, fun p address hmem hnot => ?_⟩
  · rcases List.mem_append.mp hmem with hmem | hmem
    · exact h.routable p address hmem
    · obtain ⟨listed, _, hlisted⟩ := List.mem_flatMap.mp hmem
      obtain ⟨rfl, hroutable, _⟩ := onListenAddr_adds hlisted
      refine hroutable.mono fun hlan => ?_
      obtain ⟨hloopback, hin⟩ := h.peers p (of_decide_eq_true hlan)
      simp [hloopback, hin]
  · rcases List.mem_append.mp hmem with hmem | hmem
    · exact h.resolved p address hmem hnot
    · obtain ⟨listed, _, hlisted⟩ := List.mem_flatMap.mp hmem
      exact (onListenAddr_adds hlisted).2.2

end Learned

/-- What one event adds to the routing table. -/
lemma learned_handle {lan : List String} {effects : List Effect}
    (h : Learned ctx lan network effects) (a : Arrival) :
    Learned ctx (lan ++ lanPeers [a]) (handleSwarmEvent ctx network a.1 a.2).network
      (effects ++ (handleSwarmEvent ctx network a.1 a.2).effects) := by
  have hold := h.append (lanPeers [a])
  cases hevent : a.2 with
  | mdnsDiscovered peers =>
    have hfound : lanPeers [a] = peers.map Prod.fst := by
      simp only [lanPeers, List.flatMap_cons, List.flatMap_nil, hevent, List.append_nil]
    simp only [handleSwarmEvent]
    cases hloopback : ctx.loopbackOnly with
    | true => exact hold.quiet (by simp [NoAddresses]) fun p hp => hp
    | false => exact hfound ▸ h.discovered hloopback peers
  | mdnsExpired peers =>
    obtain ⟨hless, hnone⟩ := forEach_onExpired network peers
    simp only [handleSwarmEvent]
    split
    · exact hold.quiet (by simp [NoAddresses]) fun p hp => hp
    · exact hold.quiet hnone hless
  | identifyReceived p listenAddrs => exact hold.identified _ p listenAddrs
  | _ =>
    refine hold.quiet ?_ fun p hp => ?_
    · exact (noAddresses_calls ctx network a.1 (by simp) (by simp) (by simp)).1
    · rwa [(noAddresses_calls ctx network a.1 (by simp) (by simp) (by simp)).2] at hp

lemma learned_run (ctx : SwarmContext) (banDuration : ℕ) (arrivals : List Arrival) :
    Learned ctx (lanPeers arrivals) (run ctx (start banDuration) arrivals).1
      (run ctx (start banDuration) arrivals).2 := by
  induction arrivals using List.reverseRecOn with
  | nil =>
    exact ⟨fun p hp => absurd hp (Finset.notMem_empty p),
      fun p address hmem => absurd hmem List.not_mem_nil,
      fun p address hmem => absurd hmem List.not_mem_nil⟩
  | append_singleton arrivals a ih =>
    have hmore : lanPeers (arrivals ++ [a]) = lanPeers arrivals ++ lanPeers [a] := by
      rw [lanPeers, List.flatMap_append]
      rfl
    rw [hmore, run_concat]
    exact learned_handle ih a

/-- **The routing table gets no private IPv4 addresses from outside.** Whatever other peers tell a
node, the addresses it passes on for a peer keep to `AllowedIps`, where the LAN is that of the peers
which mDNS found, and counts only without `loopbackOnly`. What a peer that was not found there tells
of itself goes over one relay at most and has no `/dns4` left. -/
theorem learned_addresses (ctx : SwarmContext) (banDuration : ℕ) (arrivals : List Arrival)
    (peer : String) (address : Multiaddr)
    (hadded : .addAddress peer address ∈ (run ctx (start banDuration) arrivals).2) :
    AllowedIps (!ctx.loopbackOnly && decide (peer ∈ lanPeers arrivals)) address ∧
      (peer ∉ lanPeers arrivals ∨ ctx.loopbackOnly = true → Dns4Resolved address) :=
  ⟨(learned_run ctx banDuration arrivals).routable peer address hadded,
    (learned_run ctx banDuration arrivals).resolved peer address hadded⟩

/-- A peer tells a domain behind which there is a public address. -/
theorem learned_addresses_domain :
    AllowedIps false [.ip4 ⟨8, 8, 8, 8⟩] ∧ Dns4Resolved [.ip4 ⟨8, 8, 8, 8⟩] := by
  have hlearned := learned_addresses Sample.ctx 10
    [({ Sample.surroundings 1 with
        resolver := ⟨fun _ => .ok [.v4 ⟨8, 8, 8, 8⟩, .v6 1], id, fun _ => List.Perm.refl _⟩ },
      .identifyReceived "p" [[.dns4 "node.example", .p2p "p"]])] "p" [.ip4 ⟨8, 8, 8, 8⟩]
    (List.mem_singleton.mpr rfl)
  exact ⟨hlearned.1, hlearned.2 (.inl List.not_mem_nil)⟩

end P2pNode

end IeumChain
