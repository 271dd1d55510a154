import IeumChain.TrafficRewards

/-!
# The contribution ledger

`recordValidated` does one of five things (`step_recordValidated`). After any calls the ledger is a
function of the credited receipts: the points, the verifiers and the address of every node are read
off them (`Accounts`, `accounts_recorded`), so a message counts once for a verifier, a verifier
within its quota, and a node under one address (`contribution_accounting`).

A receipt that the checks at the start refuse leaves no trace. One that is refused for its reward
address does: it has used up its verifier's credit for the message (`rejected_receipt_iff`).
-/

namespace IeumChain

open Lib

namespace ContributionLedger

/-- The receipts a verifier has counted so far. -/
def countOf (ledger : ContributionLedger) (verifier : String) : UInt32 :=
  (ledger.verifierCounts.lookup verifier).getD 0

/-- What a call of `record_validated` does. -/
inductive Step (ledger : ContributionLedger) (receipt : RelayReceipt) :
    Result Bool × ContributionLedger → Prop where
  | refused {error : String} :
      ledger.checkReceipt receipt = .error error → Step ledger receipt (.error error, ledger)
  | known : ledger.checkReceipt receipt = .ok () → receipt.dedupe ∈ ledger.seen →
      Step ledger receipt (.ok false, ledger)
  | exhausted : ledger.checkReceipt receipt = .ok () → receipt.dedupe ∉ ledger.seen →
      ledger.policy.maximumReceiptsPerVerifier ≤ ledger.countOf receipt.verifierPeerId →
      Step ledger receipt (.ok false, { ledger with
        seen := insert receipt.dedupe ledger.seen
        verifierCounts := ledger.verifierCounts.insert receipt.verifierPeerId
          (ledger.countOf receipt.verifierPeerId) })
  | mismatched {contribution : NodeContribution} : ledger.checkReceipt receipt = .ok () →
      receipt.dedupe ∉ ledger.seen →
      ledger.countOf receipt.verifierPeerId < ledger.policy.maximumReceiptsPerVerifier →
      ledger.nodes.lookup receipt.relayPeerId = some contribution →
      contribution.rewardAddress ≠ receipt.rewardAddress →
      Step ledger receipt (.error "같은 PeerId가 서로 다른 보상 주소를 사용했습니다.", { ledger with
        seen := insert receipt.dedupe ledger.seen
        verifierCounts := ledger.verifierCounts.insert receipt.verifierPeerId
          (ledger.countOf receipt.verifierPeerId + 1) })
  | credited : ledger.checkReceipt receipt = .ok () → receipt.dedupe ∉ ledger.seen →
      ledger.countOf receipt.verifierPeerId < ledger.policy.maximumReceiptsPerVerifier →
      (contributionOf ledger.nodes receipt).rewardAddress = receipt.rewardAddress →
      Step ledger receipt (.ok true, { ledger with
        seen := insert receipt.dedupe ledger.seen
        verifierCounts := ledger.verifierCounts.insert receipt.verifierPeerId
          (ledger.countOf receipt.verifierPeerId + 1)
        nodes := ledger.nodes.insert receipt.relayPeerId
          (credit ledger.policy (contributionOf ledger.nodes receipt) receipt) })

theorem step_recordValidated (ledger : ContributionLedger) (receipt : RelayReceipt) :
    Step ledger receipt (ledger.recordValidated receipt) := by
  rw [recordValidated]
  cases hcheck : ledger.checkReceipt receipt with
  | error e => exact .refused hcheck
  | ok =>
    dsimp only
    by_cases hseen : receipt.dedupe ∈ ledger.seen
    · rw [if_pos hseen]
      exact .known hcheck hseen
    rw [if_neg hseen]
    have hcount : (ledger.verifierCounts.lookup receipt.verifierPeerId).getD 0 =
        ledger.countOf receipt.verifierPeerId := rfl
    rw [hcount]
    by_cases hquota : ledger.policy.maximumReceiptsPerVerifier ≤
        ledger.countOf receipt.verifierPeerId
    · rw [if_pos hquota]
      exact .exhausted hcheck hseen hquota
    have hbelow := UInt32.not_le.mp hquota
    rw [if_neg hquota, Finmap.insert_insert, Finmap.insert_insert]
    by_cases haddress : (contributionOf ledger.nodes receipt).rewardAddress = receipt.rewardAddress
    · rw [if_neg (not_not.mpr haddress)]
      exact .credited hcheck hseen hbelow haddress
    · rw [if_pos haddress]
      -- an entry made for this receipt has its address, so there was one before
      cases hnode : ledger.nodes.lookup receipt.relayPeerId with
      | none => exact absurd (by rw [contributionOf, hnode]; rfl) haddress
      | some contribution =>
        have hfound : contributionOf ledger.nodes receipt = contribution := by
          rw [contributionOf, hnode]
          rfl
        rw [hfound, HashMap.insert_lookup hnode]
        exact .mismatched hcheck hseen hbelow hnode (hfound ▸ haddress)

/-! ## The credited receipts -/

/-- The points of a relay's receipts. -/
def pointsOf (credited : List RelayReceipt) (relay : String) : ℕ :=
  ((credited.filter fun r => r.relayPeerId = relay).map RelayReceipt.points).sum

/-- The verifiers of a relay's receipts. -/
def verifiersOf (credited : List RelayReceipt) (relay : String) : Finset String :=
  ((credited.filter fun r => r.relayPeerId = relay).map RelayReceipt.verifierPeerId).toFinset

/-- The address of a relay's first receipt. -/
def addressOf (credited : List RelayReceipt) (relay : String) : Option String :=
  (credited.find? fun r => r.relayPeerId = relay).map RelayReceipt.rewardAddress

/-- How many receipts a verifier has. -/
def verifiedBy (credited : List RelayReceipt) (verifier : String) : ℕ :=
  (credited.filter fun r => r.verifierPeerId = verifier).length

section Append

variable (credited : List RelayReceipt) (r : RelayReceipt)

lemma pointsOf_append (relay : String) : pointsOf (credited ++ [r]) relay =
    pointsOf credited relay + if r.relayPeerId = relay then r.points else 0 := by
  rw [pointsOf, List.filter_append, List.map_append, List.sum_append, ← pointsOf]
  split <;> simp [*]

lemma verifiersOf_append (relay : String) : verifiersOf (credited ++ [r]) relay =
    if r.relayPeerId = relay then insert r.verifierPeerId (verifiersOf credited relay)
    else verifiersOf credited relay := by
  ext v
  split
  case isTrue h => simp [verifiersOf, h]
  case isFalse h => simp [verifiersOf, h]

lemma addressOf_append (relay : String) : addressOf (credited ++ [r]) relay =
    (addressOf credited relay).or (if r.relayPeerId = relay then some r.rewardAddress else none) := by
  rw [addressOf, List.find?_append, Option.map_or, ← addressOf]
  split <;> simp [*]

lemma verifiedBy_append (v : String) : verifiedBy (credited ++ [r]) v =
    verifiedBy credited v + if r.verifierPeerId = v then 1 else 0 := by
  rw [verifiedBy, List.filter_append, List.length_append, ← verifiedBy]
  split <;> simp [*]

end Append

/-- A relay without an address has no receipts. -/
lemma filter_of_addressOf {credited : List RelayReceipt} {relay : String}
    (h : addressOf credited relay = none) :
    (credited.filter fun r => r.relayPeerId = relay) = [] := by
  rw [addressOf, Option.map_eq_none_iff, List.find?_eq_none] at h
  rw [List.filter_eq_nil_iff]
  exact h

/-! ## A run of calls -/

/-- The ledger after a call, and the receipts credited so far. -/
def recorded (s : ContributionLedger × List RelayReceipt) (receipt : RelayReceipt) :
    ContributionLedger × List RelayReceipt :=
  match s.1.recordValidated receipt with
  | (.ok true, ledger) => (ledger, s.2 ++ [receipt])
  | (_, ledger) => (ledger, s.2)

/-- The ledger after a sequence of calls, and the receipts credited by them. -/
def run (ledger : ContributionLedger) (receipts : List RelayReceipt) :
    ContributionLedger × List RelayReceipt :=
  receipts.foldl recorded (ledger, [])

/-- The ledger is a function of the credited receipts, up to what rejected ones have used up. -/
structure Accounts (policy : RewardPolicy) (ledger : ContributionLedger)
    (credited : List RelayReceipt) : Prop where
  samePolicy : ledger.policy = policy
  once : (credited.map RelayReceipt.dedupe).Nodup
  seen : ∀ r ∈ credited, r.dedupe ∈ ledger.seen
  counted : ∀ v, verifiedBy credited v ≤ (ledger.countOf v).toNat
  quota : ∀ v, (ledger.countOf v).toNat ≤ policy.maximumReceiptsPerVerifier.toNat
  independent : ∀ r ∈ credited, r.relayPeerId ≠ r.verifierPeerId
  address : ∀ r ∈ credited, addressOf credited r.relayPeerId = some r.rewardAddress
  valid : ∀ r ∈ credited, validateRewardAddress r.rewardAddress = .ok ()
  nodes : ∀ relay, ledger.nodes.lookup relay = (addressOf credited relay).map fun address =>
    { rewardAddress := address
      points := UInt64.ofNat (min policy.maximumPointsPerNode.toNat (pointsOf credited relay))
      verifiers := verifiersOf credited relay }

lemma accounts_new {policy : RewardPolicy} {epoch : UInt64} {ledger : ContributionLedger}
    (h : new policy epoch = .ok ledger) : Accounts policy ledger [] := by
  rw [new] at h
  simp only [bind_eq_ok, pure_eq_ok] at h
  obtain ⟨-, -, rfl⟩ := h
  exact
    { samePolicy := rfl
      once := List.nodup_nil
      seen := fun r hr => absurd hr List.not_mem_nil
      counted := fun v => Nat.zero_le _
      quota := fun v => Nat.zero_le _
      independent := fun r hr => absurd hr List.not_mem_nil
      address := fun r hr => absurd hr List.not_mem_nil
      valid := fun r hr => absurd hr List.not_mem_nil
      nodes := fun relay => rfl }

section Counts

variable {ledger : ContributionLedger} {verifier : String} {count : UInt32}

/-- The ledger with another count of a verifier and another entry seen. -/
def noted (ledger : ContributionLedger) (key : String × String) (verifier : String)
    (count : UInt32) : ContributionLedger :=
  { ledger with
    seen := insert key ledger.seen
    verifierCounts := ledger.verifierCounts.insert verifier count }

/-- The ledger with another contribution of a relay. -/
def withNode (ledger : ContributionLedger) (relay : String) (contribution : NodeContribution) :
    ContributionLedger :=
  { ledger with nodes := ledger.nodes.insert relay contribution }

lemma countOf_noted (key : String × String) (v : String) :
    (ledger.noted key verifier count).countOf v =
      if v = verifier then count else ledger.countOf v := by
  rw [countOf, noted, HashMap.lookup_insert]
  split
  · rfl
  · rfl

end Counts

/-- What the checks at the start promise. -/
lemma of_checkReceipt {ledger : ContributionLedger} {receipt : RelayReceipt}
    (h : ledger.checkReceipt receipt = .ok ()) : receipt.relayPeerId ≠ receipt.verifierPeerId ∧
      validateRewardAddress receipt.rewardAddress = .ok () := by
  rw [checkReceipt] at h
  simp only [bind_eq_ok, ensure_eq_ok] at h
  obtain ⟨_, -, _, -, _, hself, _, -, _, -, haddress⟩ := h
  exact ⟨hself, haddress⟩

/-- Noting a receipt without crediting it keeps the accounts, as long as the quota is kept. -/
lemma Accounts.noted {policy : RewardPolicy} {ledger : ContributionLedger}
    {credited : List RelayReceipt} (h : Accounts policy ledger credited) (key : String × String)
    {verifier : String} {count : UInt32} (hle : (ledger.countOf verifier).toNat ≤ count.toNat)
    (hquota : count.toNat ≤ policy.maximumReceiptsPerVerifier.toNat) :
    Accounts policy (ledger.noted key verifier count) credited where
  samePolicy := h.samePolicy
  once := h.once
  seen r hr := Finset.mem_insert_of_mem (h.seen r hr)
  counted v := by
    rw [countOf_noted]
    split
    case isTrue hv => exact (h.counted v).trans (hv ▸ hle)
    case isFalse => exact h.counted v
  quota v := by
    rw [countOf_noted]
    split
    case isTrue => exact hquota
    case isFalse => exact h.quota v
  independent := h.independent
  address := h.address
  valid := h.valid
  nodes := h.nodes

/-- Below a bound a count has a successor. -/
lemma toNat_add_one {count bound : UInt32} (h : count < bound) :
    (count + 1).toNat = count.toNat + 1 := by
  have hlt := UInt32.lt_iff_toNat_lt.mp h
  have hmax := bound.toNat_lt
  rw [UInt32.toNat_add]
  exact Nat.mod_eq_of_lt (by simp; omega)

/-- Below the quota a receipt may be counted for its verifier. -/
lemma Accounts.counting {policy : RewardPolicy} {ledger : ContributionLedger}
    {credited : List RelayReceipt} (h : Accounts policy ledger credited) (key : String × String)
    {verifier : String} (hquota : ledger.countOf verifier < ledger.policy.maximumReceiptsPerVerifier) :
    Accounts policy (ledger.noted key verifier (ledger.countOf verifier + 1)) credited := by
  have hnext := toNat_add_one hquota
  rw [h.samePolicy, UInt32.lt_iff_toNat_lt] at hquota
  exact h.noted key (by omega) (by omega)

/-- What a receipt finds is what its relay's credited receipts add up to. -/
lemma Accounts.contributionOf {policy : RewardPolicy} {ledger : ContributionLedger}
    {credited : List RelayReceipt} (h : Accounts policy ledger credited) (r : RelayReceipt) :
    ContributionLedger.contributionOf ledger.nodes r =
      { rewardAddress := (addressOf credited r.relayPeerId).getD r.rewardAddress
        points := UInt64.ofNat
          (min policy.maximumPointsPerNode.toNat (pointsOf credited r.relayPeerId))
        verifiers := verifiersOf credited r.relayPeerId } := by
  rw [ContributionLedger.contributionOf, h.nodes]
  cases haddress : addressOf credited r.relayPeerId with
  | none =>
    rw [pointsOf, verifiersOf, filter_of_addressOf haddress, List.map_nil, List.sum_nil,
      Nat.min_zero]
    rfl
  | some address => rfl

/-- Adding with the cap at every step is the cap of the sum. -/
lemma credit_points (cap p q : ℕ) (hcap : cap < 2 ^ 64) :
    min (min ((UInt64.ofNat (min cap p)).toNat + q) (2 ^ 64 - 1)) cap = min cap (p + q) := by
  have hle : min cap p ≤ cap := min_le_left _ _
  rw [UInt64.toNat_ofNat', Nat.mod_eq_of_lt (by omega)]
  omega

/-- Crediting a receipt keeps the accounts. -/
lemma Accounts.credited {policy : RewardPolicy} {ledger : ContributionLedger}
    {credited : List RelayReceipt} (h : Accounts policy ledger credited) {r : RelayReceipt}
    (hcheck : ledger.checkReceipt r = .ok ()) (hseen : r.dedupe ∉ ledger.seen)
    (hquota : ledger.countOf r.verifierPeerId < ledger.policy.maximumReceiptsPerVerifier)
    (haddress : (ContributionLedger.contributionOf ledger.nodes r).rewardAddress =
      r.rewardAddress) :
    Accounts policy ((ledger.noted r.dedupe r.verifierPeerId
      (ledger.countOf r.verifierPeerId + 1)).withNode r.relayPeerId
        (credit ledger.policy (ContributionLedger.contributionOf ledger.nodes r) r))
      (credited ++ [r]) := by
  obtain ⟨hself, hvalid⟩ := of_checkReceipt hcheck
  have hnext := toNat_add_one hquota
  have hnoted := h.counting r.dedupe hquota
  have hfound := h.contributionOf r
  rw [hfound] at haddress
  -- the address stays with the relay, or it is new
  have hfirst : addressOf (credited ++ [r]) r.relayPeerId = some r.rewardAddress := by
    rw [addressOf_append, if_pos rfl]
    cases hbefore : addressOf credited r.relayPeerId with
    | none => rfl
    | some address =>
      rw [hbefore] at haddress
      exact congrArg some haddress
  refine
    { samePolicy := h.samePolicy
      once := ?_
      seen := ?_
      counted := ?_
      quota := hnoted.quota
      independent := ?_
      address := ?_
      valid := ?_
      nodes := ?_ }
  · rw [List.map_append, List.map_singleton, List.nodup_append]
    refine ⟨h.once, List.nodup_singleton _, fun key hkey key' hkey' heq => ?_⟩
    obtain ⟨r', hr', rfl⟩ := List.mem_map.mp hkey
    rw [List.mem_singleton.mp hkey'] at heq
    exact hseen (heq ▸ h.seen r' hr')
  · intro r' hr'
    obtain hmem | hlast := List.mem_append.mp hr'
    · exact hnoted.seen r' hmem
    · exact List.mem_singleton.mp hlast ▸ Finset.mem_insert_self _ _
  · intro v
    have hcount : ((ledger.noted r.dedupe r.verifierPeerId
        (ledger.countOf r.verifierPeerId + 1)).withNode r.relayPeerId
          (credit ledger.policy (ContributionLedger.contributionOf ledger.nodes r) r)).countOf v =
        if v = r.verifierPeerId then ledger.countOf r.verifierPeerId + 1 else ledger.countOf v :=
      countOf_noted r.dedupe v
    have hbefore := h.counted v
    rw [verifiedBy_append, hcount]
    by_cases hv : v = r.verifierPeerId
    · rw [if_pos hv, if_pos hv.symm, hnext, ← hv]
      omega
    · rw [if_neg hv, if_neg (Ne.symm hv)]
      exact hbefore
  · intro r' hr'
    obtain hmem | hlast := List.mem_append.mp hr'
    · exact h.independent r' hmem
    · exact List.mem_singleton.mp hlast ▸ hself
  · intro r' hr'
    obtain hmem | hlast := List.mem_append.mp hr'
    · rw [addressOf_append, h.address r' hmem]
      rfl
    · exact List.mem_singleton.mp hlast ▸ hfirst
  · intro r' hr'
    obtain hmem | hlast := List.mem_append.mp hr'
    · exact h.valid r' hmem
    · exact List.mem_singleton.mp hlast ▸ hvalid
  · intro relay
    show (ledger.nodes.insert r.relayPeerId _).lookup relay = _
    rw [HashMap.lookup_insert]
    by_cases hrelay : relay = r.relayPeerId
    · rw [if_pos hrelay, hrelay, hfirst, pointsOf_append, verifiersOf_append, if_pos rfl, if_pos rfl,
        hfound, h.samePolicy, credit, haddress,
        credit_points _ _ _ policy.maximumPointsPerNode.toNat_lt]
      rfl
    · rw [if_neg hrelay, h.nodes, addressOf_append, pointsOf_append, verifiersOf_append,
        if_neg (Ne.symm hrelay), if_neg (Ne.symm hrelay), if_neg (Ne.symm hrelay), Option.or_none,
        Nat.add_zero]

/-- Every call keeps the accounts. -/
lemma Accounts.recorded {policy : RewardPolicy} {s : ContributionLedger × List RelayReceipt}
    (h : Accounts policy s.1 s.2) (r : RelayReceipt) :
    Accounts policy (ContributionLedger.recorded s r).1 (ContributionLedger.recorded s r).2 := by
  rw [ContributionLedger.recorded]
  have hstep := step_recordValidated s.1 r
  generalize s.1.recordValidated r = outcome at hstep
  cases hstep with
  | refused => exact h
  | known => exact h
  | exhausted => exact h.noted r.dedupe le_rfl (h.quota _)
  | mismatched _ _ hquota => exact h.counting r.dedupe hquota
  | credited hcheck hseen hquota haddress => exact h.credited hcheck hseen hquota haddress

lemma run_concat (ledger : ContributionLedger) (receipts : List RelayReceipt) (r : RelayReceipt) :
    ledger.run (receipts ++ [r]) = ContributionLedger.recorded (ledger.run receipts) r := by
  rw [run, List.foldl_append, List.foldl_cons, List.foldl_nil, run]

/-- So does every run. -/
theorem accounts_run {policy : RewardPolicy} {epoch : UInt64} {ledger : ContributionLedger}
    (h : new policy epoch = .ok ledger) (receipts : List RelayReceipt) :
    Accounts policy (ledger.run receipts).1 (ledger.run receipts).2 := by
  induction receipts using List.reverseRecOn with
  | nil => exact accounts_new h
  | append_singleton receipts r ih =>
    rw [run_concat]
    exact ih.recorded r

/-- A run only adds credited receipts. -/
lemma credited_run_append (ledger : ContributionLedger) (receipts later : List RelayReceipt) :
    (ledger.run receipts).2 <+: (ledger.run (receipts ++ later)).2 := by
  induction later using List.reverseRecOn with
  | nil => rw [List.append_nil]
  | append_singleton later r ih =>
    refine ih.trans ?_
    rw [← List.append_assoc, run_concat, recorded]
    split
    · exact List.prefix_append _ _
    · exact List.prefix_refl _

/-! ## The eligible nodes -/

/-- An eligible node, as its relay's credited receipts determine it. -/
def IsEligible (policy : RewardPolicy) (credited : List RelayReceipt) (node : EligibleNode) : Prop :=
  policy.minimumDistinctVerifiers ≤ (verifiersOf credited node.peerId).card ∧
    addressOf credited node.peerId = some node.rewardAddress ∧
    node.points.toNat = min policy.maximumPointsPerNode.toNat (pointsOf credited node.peerId) ∧
    node.distinctVerifiers = (verifiersOf credited node.peerId).card

lemma mem_eligibleNodes {policy : RewardPolicy} {ledger : ContributionLedger}
    {credited : List RelayReceipt} (h : Accounts policy ledger credited)
    (iteration : EntryIteration String NodeContribution) (node : EligibleNode) :
    node ∈ ledger.eligibleNodes iteration ↔ IsEligible policy credited node := by
  have hcap : ∀ relay, (UInt64.ofNat (min policy.maximumPointsPerNode.toNat
      (pointsOf credited relay))).toNat =
        min policy.maximumPointsPerNode.toNat (pointsOf credited relay) := by
    intro relay
    rw [UInt64.toNat_ofNat']
    exact Nat.mod_eq_of_lt ((min_le_left _ _).trans_lt policy.maximumPointsPerNode.toNat_lt)
  rw [eligibleNodes, (perm_sortBy _ _).mem_iff, List.mem_map]
  constructor
  · rintro ⟨⟨relay, contribution⟩, hentry, rfl⟩
    obtain ⟨hmem, hmin⟩ := List.mem_filter.mp hentry
    have hlookup := (iteration.mem_entries _ _ _).mp hmem
    rw [h.nodes] at hlookup
    obtain ⟨address, haddress, rfl⟩ := Option.map_eq_some_iff.mp hlookup
    rw [h.samePolicy] at hmin
    exact ⟨of_decide_eq_true hmin, haddress, hcap relay, rfl⟩
  · rintro ⟨hmin, haddress, hpoints, hverifiers⟩
    refine ⟨(node.peerId, ⟨node.rewardAddress, node.points, verifiersOf credited node.peerId⟩),
      List.mem_filter.mpr ⟨?_, ?_⟩, ?_⟩
    · rw [iteration.mem_entries, h.nodes, haddress]
      have hsame : UInt64.ofNat (min policy.maximumPointsPerNode.toNat
          (pointsOf credited node.peerId)) = node.points := by
        rw [← hpoints, UInt64.ofNat_toNat]
      rw [Option.map_some, hsame]
    · rw [h.samePolicy]
      exact decide_eq_true hmin
    · rw [← hverifiers]

lemma nodup_eligible (iteration : EntryIteration String NodeContribution)
    (ledger : ContributionLedger) :
    ((ledger.eligibleNodes iteration).map EligibleNode.peerId).Pairwise (· < ·) := by
  rw [eligibleNodes, List.pairwise_map]
  apply pairwise_sortBy
  rw [List.map_map]
  exact (iteration.nodup ledger.nodes).sublist (List.filter_sublist.map _)

/-! ## The accounting -/

/-- What a ledger, the receipts credited to it and its eligible nodes are. -/
structure Accounted (policy : RewardPolicy) (ledger : ContributionLedger)
    (credited : List RelayReceipt) (eligible : List EligibleNode) : Prop where
  once : (credited.map fun r => (r.verifierPeerId, r.messageId)).Nodup
  quota : ∀ v, (credited.filter fun r => r.verifierPeerId = v).length ≤
    policy.maximumReceiptsPerVerifier.toNat
  independent : ∀ r ∈ credited, r.relayPeerId ≠ r.verifierPeerId
  points : ∀ relay node, ledger.nodes.lookup relay = some node →
    node.points.toNat = min policy.maximumPointsPerNode.toNat
      ((credited.filter fun r => r.relayPeerId = relay).map RelayReceipt.points).sum
  each : ∀ r ∈ credited, 1 ≤ r.points ∧ r.points ≤ 16
  ordered : (eligible.map EligibleNode.peerId).Pairwise (· < ·)
  listed : ∀ node, node ∈ eligible ↔ IsEligible policy credited node

lemma points_bounds (r : RelayReceipt) : 1 ≤ r.points ∧ r.points ≤ 16 := by
  rw [RelayReceipt.points]
  omega

/-- After every sequence of calls on a new ledger the accounts are in order, and a node that has an
address keeps it. -/
theorem contribution_accounting (policy : RewardPolicy) (epoch : UInt64)
    (ledger : ContributionLedger) (hnew : new policy epoch = .ok ledger)
    (iteration : EntryIteration String NodeContribution) (receipts : List RelayReceipt) :
    Accounted policy (ledger.run receipts).1 (ledger.run receipts).2
        ((ledger.run receipts).1.eligibleNodes iteration) ∧
      ∀ later relay node, (ledger.run receipts).1.nodes.lookup relay = some node →
        ∃ node', (ledger.run (receipts ++ later)).1.nodes.lookup relay = some node' ∧
          node'.rewardAddress = node.rewardAddress := by
  have h := accounts_run hnew receipts
  constructor
  · exact
      { once := h.once
        quota := fun v => (h.counted v).trans (h.quota v)
        independent := h.independent
        points := by
          intro relay node hnode
          rw [h.nodes] at hnode
          obtain ⟨address, -, rfl⟩ := Option.map_eq_some_iff.mp hnode
          dsimp only
          rw [UInt64.toNat_ofNat']
          exact Nat.mod_eq_of_lt ((min_le_left _ _).trans_lt policy.maximumPointsPerNode.toNat_lt)
        each := fun r _ => points_bounds r
        ordered := nodup_eligible iteration _
        listed := mem_eligibleNodes h iteration }
  · intro later relay node hnode
    have h' := accounts_run hnew (receipts ++ later)
    obtain ⟨rest, hrest⟩ := credited_run_append ledger receipts later
    rw [h.nodes] at hnode
    obtain ⟨address, haddress, rfl⟩ := Option.map_eq_some_iff.mp hnode
    -- the first receipt of the relay stays the first
    have hstays : addressOf (ledger.run (receipts ++ later)).2 relay = some address := by
      rw [← hrest, addressOf, List.find?_append, Option.map_or, ← addressOf, haddress]
      rfl
    have hlookup := h'.nodes relay
    rw [hstays, Option.map_some] at hlookup
    exact ⟨_, hlookup, rfl⟩

/-- A receipt for a message of a hundred bytes, at the start of epoch 2. -/
def receiptOf (relay verifier message address : String) : RelayReceipt where
  relayPeerId := relay
  rewardAddress := address
  verifierPeerId := verifier
  messageId := message
  payloadBytes := 100
  observedAt := 2 * 24 * 60 * 60
  relayStartedAt := 2 * 24 * 60 * 60 - 60 * 60

/-- The address of 64 ones. -/
def ones : String := String.ofList (List.replicate 64 '1')

/-- The address of 64 twos. -/
def twos : String := String.ofList (List.replicate 64 '2')

/-- A new ledger of epoch 2. -/
def secondEpoch : ContributionLedger := ⟨.default, 2, ∅, ∅, ∅⟩

lemma new_secondEpoch : new .default 2 = .ok secondEpoch := rfl

/-- Three receipts, one of them twice. -/
theorem contribution_accounting_three : ∃ ledger, new .default 2 = .ok ledger ∧
    Accounted .default
      (ledger.run [receiptOf "relay" "verifier-1" "message-1" ones,
        receiptOf "relay" "verifier-2" "message-2" ones,
        receiptOf "relay" "verifier-2" "message-2" ones,
        receiptOf "relay" "verifier-3" "message-3" ones]).1
      (ledger.run [receiptOf "relay" "verifier-1" "message-1" ones,
        receiptOf "relay" "verifier-2" "message-2" ones,
        receiptOf "relay" "verifier-2" "message-2" ones,
        receiptOf "relay" "verifier-3" "message-3" ones]).2
      ((ledger.run [receiptOf "relay" "verifier-1" "message-1" ones,
        receiptOf "relay" "verifier-2" "message-2" ones,
        receiptOf "relay" "verifier-2" "message-2" ones,
        receiptOf "relay" "verifier-3" "message-3" ones]).1.eligibleNodes .sorted) :=
  ⟨secondEpoch, new_secondEpoch,
    (contribution_accounting .default 2 secondEpoch new_secondEpoch .sorted _).1⟩

/-! ## Rejected receipts -/

/-- What the checks at the start of `record_validated` ask of a receipt. -/
structure Admissible (ledger : ContributionLedger) (receipt : RelayReceipt) : Prop where
  epoch : receipt.observedAt / ledger.policy.epochSeconds = ledger.epoch
  independent : receipt.relayPeerId ≠ receipt.verifierPeerId
  message : receipt.payloadBytes ≠ 0 ∧ isBlank receipt.messageId = false
  uptime : receipt.relayStartedAt ≠ 0 ∧ ledger.policy.minimumUptimeSeconds.toNat ≤
    receipt.observedAt.toNat - receipt.relayStartedAt.toNat
  address : textLen receipt.rewardAddress = 64 ∧
    (textBytes receipt.rewardAddress).all isAsciiHexDigit = true

lemma checkReceipt_eq_ok {ledger : ContributionLedger} {receipt : RelayReceipt}
    (hpolicy : ledger.policy.epochSeconds ≠ 0) :
    ledger.checkReceipt receipt = .ok () ↔ Admissible ledger receipt := by
  rw [checkReceipt]
  simp only [validateRewardAddress, bind_eq_ok, ensure_eq_ok]
  constructor
  · rintro ⟨_, -, _, hepoch, _, hself, _, hmessage, _, huptime, haddress⟩
    exact ⟨hepoch, hself, hmessage, huptime, haddress⟩
  · rintro ⟨hepoch, hself, hmessage, huptime, haddress⟩
    exact ⟨(), hpolicy, (), hepoch, (), hself, (), hmessage, (), huptime, haddress⟩

/-- The epoch of an accepted policy has seconds. -/
lemma epochSeconds_ne_zero {policy : RewardPolicy} {epoch : UInt64} {ledger : ContributionLedger}
    (h : new policy epoch = .ok ledger) : policy.epochSeconds ≠ 0 := by
  rw [new, RewardPolicy.validate] at h
  simp only [bind_eq_ok, ensure_eq_ok] at h
  obtain ⟨_, ⟨_, ⟨hday, -⟩, -⟩, -⟩ := h
  rintro hzero
  rw [hzero] at hday
  exact absurd hday (by decide)

inductive Call where
  | record (receipt : RelayReceipt)
  | eligible

inductive Outcome where
  | recorded (result : Result Bool)
  | eligible (nodes : List EligibleNode)

/-- The results of a sequence of calls. -/
def outcomes (iteration : EntryIteration String NodeContribution) :
    ContributionLedger → List Call → List Outcome
  | _, [] => []
  | ledger, .record receipt :: calls =>
    .recorded (ledger.recordValidated receipt).1 ::
      outcomes iteration (ledger.recordValidated receipt).2 calls
  | ledger, .eligible :: calls =>
    .eligible (ledger.eligibleNodes iteration) :: outcomes iteration ledger calls

/-- A receipt that passes the checks and is rejected has used up its credit: the same receipt with
the relay's own address is not credited any more. -/
lemma exists_difference {policy : RewardPolicy} {ledger : ContributionLedger}
    {credited : List RelayReceipt} (h : Accounts policy ledger credited)
    (hpolicy : ledger.policy.epochSeconds ≠ 0) {receipt : RelayReceipt} {error : String}
    (hadmissible : Admissible ledger receipt)
    (hrejected : (ledger.recordValidated receipt).1 = .error error) :
    ∃ again, (ledger.recordValidated again).1 = .ok true ∧
      ((ledger.recordValidated receipt).2.recordValidated again).1 = .ok false := by
  have hcheck := (checkReceipt_eq_ok hpolicy).mpr hadmissible
  have hstep := step_recordValidated ledger receipt
  generalize ledger.recordValidated receipt = outcome at hstep hrejected
  cases hstep with
  | refused hrefused =>
    rw [hcheck] at hrefused
    cases hrefused
  | known => cases hrejected
  | exhausted => cases hrejected
  | credited => cases hrejected
  | @mismatched contribution _ hseen hquota hnode hne =>
    -- the relay's address was checked when its first receipt was credited
    have hvalid : validateRewardAddress contribution.rewardAddress = .ok () := by
      rw [h.nodes] at hnode
      obtain ⟨address, haddress, rfl⟩ := Option.map_eq_some_iff.mp hnode
      obtain ⟨r, hr, rfl⟩ := Option.map_eq_some_iff.mp haddress
      exact h.valid r (List.mem_of_find?_eq_some hr)
    have hagain : Admissible ledger { receipt with rewardAddress := contribution.rewardAddress } :=
      { hadmissible with address := ensure_eq_ok.mp hvalid }
    refine ⟨{ receipt with rewardAddress := contribution.rewardAddress }, ?_, ?_⟩
    · have hcheck' := (checkReceipt_eq_ok hpolicy).mpr hagain
      have hstep' := step_recordValidated ledger
        { receipt with rewardAddress := contribution.rewardAddress }
      generalize ledger.recordValidated _ = outcome' at hstep' ⊢
      cases hstep' with
      | refused hrefused =>
        rw [hcheck'] at hrefused
        cases hrefused
      | known _ hknown => exact absurd hknown hseen
      | exhausted _ _ hfull => exact absurd hquota (UInt32.not_lt.mpr hfull)
      | mismatched _ _ _ hnode' hne' =>
        have hsame := hnode.symm.trans hnode'
        exact absurd (congrArg NodeContribution.rewardAddress (Option.some.inj hsame)).symm hne'
      | credited => rfl
    · have hcheck' : (ledger.noted receipt.dedupe receipt.verifierPeerId
          (ledger.countOf receipt.verifierPeerId + 1)).checkReceipt
            { receipt with rewardAddress := contribution.rewardAddress } = .ok () :=
        (checkReceipt_eq_ok hpolicy).mpr hagain
      have hstep' := step_recordValidated (ledger.noted receipt.dedupe receipt.verifierPeerId
        (ledger.countOf receipt.verifierPeerId + 1))
        { receipt with rewardAddress := contribution.rewardAddress }
      have hknown : receipt.dedupe ∈ insert receipt.dedupe ledger.seen :=
        Finset.mem_insert_self _ _
      show ((ledger.noted receipt.dedupe receipt.verifierPeerId
        (ledger.countOf receipt.verifierPeerId + 1)).recordValidated _).1 = _
      generalize (ledger.noted receipt.dedupe receipt.verifierPeerId
        (ledger.countOf receipt.verifierPeerId + 1)).recordValidated _ = outcome' at hstep' ⊢
      cases hstep' with
      | refused hrefused =>
        rw [hcheck'] at hrefused
        cases hrefused
      | known => rfl
      | exhausted _ hnew => exact absurd hknown hnew
      | mismatched _ hnew => exact absurd hknown hnew
      | credited _ hnew => exact absurd hknown hnew

/-- In every reachable ledger a rejected receipt has no effect on any later calls exactly when one
of the checks before the first write refused it. -/
theorem rejected_receipt_iff (policy : RewardPolicy) (epoch : UInt64) (fresh : ContributionLedger)
    (hnew : new policy epoch = .ok fresh) (receipts : List RelayReceipt)
    (iteration : EntryIteration String NodeContribution) (receipt : RelayReceipt) (error : String)
    (hrejected : ((fresh.run receipts).1.recordValidated receipt).1 = .error error) :
    (∀ calls, outcomes iteration ((fresh.run receipts).1.recordValidated receipt).2 calls =
      outcomes iteration (fresh.run receipts).1 calls) ↔
    ¬ Admissible (fresh.run receipts).1 receipt := by
  have h := accounts_run hnew receipts
  have hpolicy : (fresh.run receipts).1.policy.epochSeconds ≠ 0 := by
    rw [h.samePolicy]
    exact epochSeconds_ne_zero hnew
  constructor
  · intro hsame hadmissible
    obtain ⟨again, htrue, hfalse⟩ := exists_difference h hpolicy hadmissible hrejected
    have hone := hsame [.record again]
    simp only [outcomes, htrue, hfalse] at hone
    injection hone with hhead
    injection hhead with hresult
    cases hresult
  · intro hrefused calls
    have hstep := step_recordValidated (fresh.run receipts).1 receipt
    rw [← checkReceipt_eq_ok hpolicy] at hrefused
    generalize (fresh.run receipts).1.recordValidated receipt = outcome at hstep hrejected ⊢
    cases hstep with
    | refused => rfl
    | known => cases hrejected
    | exhausted => cases hrejected
    | mismatched hcheck => exact absurd hcheck hrefused
    | credited => cases hrejected

/-- A receipt that its relay confirmed itself leaves no trace. -/
theorem rejected_receipt_own :
    (secondEpoch.recordValidated (receiptOf "relay" "relay" "message-1" ones)).1 =
        .error "자기 자신이 확인한 중계 영수증은 인정하지 않습니다." ∧
      ∀ calls, outcomes .sorted
          (secondEpoch.recordValidated (receiptOf "relay" "relay" "message-1" ones)).2 calls =
        outcomes .sorted secondEpoch calls := by
  have hrejected : (secondEpoch.recordValidated (receiptOf "relay" "relay" "message-1" ones)).1 =
      .error "자기 자신이 확인한 중계 영수증은 인정하지 않습니다." := by decide +kernel
  exact ⟨hrejected, (rejected_receipt_iff .default 2 secondEpoch new_secondEpoch [] .sorted
    (receiptOf "relay" "relay" "message-1" ones) _ hrejected).mpr fun h => h.independent rfl⟩

/-- A relay with one credited receipt. -/
def oneCredited : ContributionLedger :=
  (secondEpoch.run [receiptOf "relay" "verifier-1" "message-1" ones]).1

/-- A receipt with another address is rejected, and the same message is not credited with the
relay's own address afterwards, although it would have been before. -/
theorem rejected_receipt_spends :
    (oneCredited.recordValidated (receiptOf "relay" "verifier-2" "message-2" twos)).1 =
        .error "같은 PeerId가 서로 다른 보상 주소를 사용했습니다." ∧
      ((oneCredited.recordValidated
        (receiptOf "relay" "verifier-2" "message-2" twos)).2.recordValidated
          (receiptOf "relay" "verifier-2" "message-2" ones)).1 = .ok false ∧
      (oneCredited.recordValidated (receiptOf "relay" "verifier-2" "message-2" ones)).1 =
        .ok true := by
  exact ⟨by decide +kernel, by decide +kernel, by decide +kernel⟩

end ContributionLedger

end IeumChain
