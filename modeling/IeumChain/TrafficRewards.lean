import IeumChain.RawTransaction
import IeumChain.ScheduledEvent
import IeumChain.Lib.Greedy
import IeumChain.Lib.Ranking
import IeumChain.Lib.Result
import IeumChain.Lib.Sets
import IeumChain.Lib.Tally

/-!
# Peers, relay receipts and the lottery (`traffic_rewards.rs`)

A node chooses its peers in four passes over differently sorted candidates. Receipts for relayed
messages are counted in a ledger, one for each epoch, and the nodes that enough independent peers
confirmed take part in a lottery. Counts of the type `usize` are natural numbers, sums that may
overflow are checked, and the order of a hash map's entries is a parameter.
-/

namespace IeumChain

open Lib

/-! ## Peers -/

structure TrafficPolicy where
  targetConnections : ℕ
  nearbySlots : ℕ
  diversitySlots : ℕ
  lowLoadSlots : ℕ
  maxPerCountry : ℕ
  maxPerAsn : ℕ
  maxBootstrapConnections : ℕ
  minimumUptimeBps : UInt16
deriving DecidableEq

/-- `TrafficPolicy::default`. -/
def TrafficPolicy.default : TrafficPolicy where
  targetConnections := 12
  nearbySlots := 4
  diversitySlots := 4
  lowLoadSlots := 4
  maxPerCountry := 3
  maxPerAsn := 2
  maxBootstrapConnections := 1
  minimumUptimeBps := 8000

/-- `TrafficPolicy::validate`. -/
def TrafficPolicy.validate (p : TrafficPolicy) : Result Unit := do
  ensure (p.targetConnections ≠ 0) "피어 슬롯 합계는 target_connections와 같아야 합니다."
  ensure (p.nearbySlots + p.diversitySlots + p.lowLoadSlots < 2 ^ 64)
    "attempt to add with overflow"
  ensure (p.nearbySlots + p.diversitySlots + p.lowLoadSlots = p.targetConnections)
    "피어 슬롯 합계는 target_connections와 같아야 합니다."
  ensure (p.maxPerCountry ≠ 0 ∧ p.maxPerAsn ≠ 0)
    "국가·ASN별 연결 상한은 1 이상이어야 합니다."
  ensure (p.maxBootstrapConnections ≤ p.targetConnections)
    "부트스트랩 연결 상한이 전체 연결 수보다 클 수 없습니다."
  ensure (p.minimumUptimeBps ≤ 10000) "최소 가동률은 10,000bps 이하여야 합니다."

structure PeerCandidate where
  peerId : String
  countryCode : String
  asn : UInt32
  latencyMs : UInt32
  uptimeBps : UInt16
  capacity : UInt32
  activeConnections : UInt32
  isBootstrap : Bool
deriving DecidableEq

namespace PeerCandidate

/-- `load_bps`. -/
def loadBps (c : PeerCandidate) : ℕ :=
  if c.capacity = 0 then 10000
  else min (c.activeConnections.toNat * 10000 / c.capacity.toNat) 10000

/-- The entries the first loop of `select_balanced_peers` does not skip. -/
def isUsable (c : PeerCandidate) : Bool :=
  !(isBlank c.peerId || isBlank c.countryCode || c.capacity = 0)

end PeerCandidate

/-- `country_count`. -/
def countryCount (peers : List PeerCandidate) (country : String) : ℕ :=
  (peers.filter fun peer => peer.countryCode = country).length

/-- `asn_count`. -/
def asnCount (peers : List PeerCandidate) (asn : UInt32) : ℕ :=
  (peers.filter fun peer => peer.asn = asn).length

/-- The bootstrap nodes among the peers. -/
def bootstrapCount (peers : List PeerCandidate) : ℕ :=
  (peers.filter fun peer => peer.isBootstrap).length

namespace TrafficPolicy

/-- The candidates that `fill_slots` passes over. -/
def skips (p : TrafficPolicy) (relaxedDiversity : Bool) (selected : List PeerCandidate)
    (c : PeerCandidate) : Bool :=
  (selected.any fun peer => peer.peerId = c.peerId) ||
    decide (c.uptimeBps < p.minimumUptimeBps) ||
    (c.isBootstrap && decide (p.maxBootstrapConnections ≤ bootstrapCount selected)) ||
    (!relaxedDiversity && (decide (p.maxPerCountry ≤ countryCount selected c.countryCode) ||
      decide (p.maxPerAsn ≤ asnCount selected c.asn)))

/-- `fill_slots`. -/
def fillSlots (p : TrafficPolicy) (candidates : List PeerCandidate) (count : ℕ)
    (selected : List PeerCandidate) (relaxedDiversity : Bool) : List PeerCandidate :=
  fill (p.skips relaxedDiversity) (selected.length + count) candidates selected

end TrafficPolicy

/-- An entry of the first loop of `select_balanced_peers`: the first usable one of a peer stays. -/
def addUnique (unique : HashMap String PeerCandidate) (c : PeerCandidate) :
    HashMap String PeerCandidate :=
  if c.isUsable ∧ c.peerId ∉ unique then unique.insert c.peerId c else unique

/-- The order of the nearby candidates. -/
def nearbyKey (c : PeerCandidate) : ℕ ×ₗ ℕᵒᵈ ×ₗ String :=
  toLex (c.latencyMs.toNat, toLex (OrderDual.toDual c.uptimeBps.toNat, c.peerId))

/-- The order of the candidates from elsewhere, given what is selected. -/
def diverseKey (selected : List PeerCandidate) (c : PeerCandidate) :
    ℕ ×ₗ ℕ ×ₗ ℕᵒᵈ ×ₗ ℕ ×ₗ String :=
  toLex (countryCount selected c.countryCode, toLex (asnCount selected c.asn,
    toLex (OrderDual.toDual c.uptimeBps.toNat, toLex (c.latencyMs.toNat, c.peerId))))

/-- The order of the candidates by load. -/
def lowLoadKey (c : PeerCandidate) : ℕ ×ₗ ℕᵒᵈ ×ₗ ℕ ×ₗ String :=
  toLex (c.loadBps, toLex (OrderDual.toDual c.uptimeBps.toNat,
    toLex (c.latencyMs.toNat, c.peerId)))

/-- The order in which empty slots are filled. -/
def fallbackKey (c : PeerCandidate) : ℕ ×ₗ ℕ ×ₗ ℕᵒᵈ ×ₗ String :=
  toLex (c.loadBps, toLex (c.latencyMs.toNat,
    toLex (OrderDual.toDual c.uptimeBps.toNat, c.peerId)))

/-- `select_balanced_peers`. -/
def selectBalancedPeers (iteration : HashMap.Iteration String PeerCandidate) (p : TrafficPolicy)
    (candidates : List PeerCandidate) : Result (List PeerCandidate) := do
  p.validate
  let unique := candidates.foldl addUnique ∅
  let candidates := iteration.values unique
  let selected := p.fillSlots (sortBy nearbyKey candidates) p.nearbySlots [] false
  let selected :=
    p.fillSlots (sortBy (diverseKey selected) candidates) p.diversitySlots selected false
  let selected := p.fillSlots (sortBy lowLoadKey candidates) p.lowLoadSlots selected false
  let selected := p.fillSlots (sortBy fallbackKey candidates)
    (p.targetConnections - selected.length) selected true
  return selected.take p.targetConnections

/-! ## Receipts -/

structure RelayReceipt where
  relayPeerId : String
  rewardAddress : String
  verifierPeerId : String
  messageId : String
  payloadBytes : UInt32
  observedAt : UInt64
  relayStartedAt : UInt64
deriving DecidableEq

structure RewardPolicy where
  epochSeconds : UInt64
  poolFeeBps : UInt16
  minimumDistinctVerifiers : ℕ
  maximumReceiptsPerVerifier : UInt32
  maximumPointsPerNode : UInt64
  winnerCount : ℕ
  minimumUptimeSeconds : UInt64
deriving DecidableEq

namespace RewardPolicy

/-- `RewardPolicy::default`. -/
def default : RewardPolicy where
  epochSeconds := 24 * 60 * 60
  poolFeeBps := 2500
  minimumDistinctVerifiers := 3
  maximumReceiptsPerVerifier := 200
  maximumPointsPerNode := 10000
  winnerCount := 10
  minimumUptimeSeconds := 60 * 60

/-- `RewardPolicy::validate`. -/
def validate (p : RewardPolicy) : Result Unit := do
  ensure (24 * 60 * 60 ≤ p.epochSeconds ∧ p.epochSeconds ≤ 7 * 24 * 60 * 60)
    "보상 주기는 1일~7일이어야 합니다."
  ensure (p.poolFeeBps ≤ 10000) "이벤트 풀 비율은 10,000bps 이하여야 합니다."
  ensure (2 ≤ p.minimumDistinctVerifiers ∧ p.maximumReceiptsPerVerifier ≠ 0 ∧
      p.maximumPointsPerNode ≠ 0 ∧ p.winnerCount ≠ 0)
    "보상 검증자·상한·당첨자 수 설정이 올바르지 않습니다."
  ensure (60 * 60 ≤ p.minimumUptimeSeconds ∧ p.minimumUptimeSeconds ≤ p.epochSeconds)
    "최소 가동 시간은 1시간 이상이며 보상 주기 이하여야 합니다."

end RewardPolicy

structure EligibleNode where
  peerId : String
  rewardAddress : String
  points : UInt64
  distinctVerifiers : ℕ
deriving DecidableEq

structure NodeContribution where
  rewardAddress : String
  points : UInt64
  verifiers : Finset String
deriving DecidableEq

structure ContributionLedger where
  policy : RewardPolicy
  epoch : UInt64
  seen : Finset (String × String)
  verifierCounts : HashMap String UInt32
  nodes : HashMap String NodeContribution

namespace RelayReceipt

/-- The points of a receipt: one for each 64 KiB begun, 16 at most. -/
def points (receipt : RelayReceipt) : ℕ :=
  min (max ((receipt.payloadBytes.toNat + 65535) / 65536) 1) 16

/-- What a receipt is counted under. -/
def dedupe (receipt : RelayReceipt) : String × String := (receipt.verifierPeerId, receipt.messageId)

end RelayReceipt

namespace ContributionLedger

/-- `ContributionLedger::new`. -/
def new (policy : RewardPolicy) (epoch : UInt64) : Result ContributionLedger := do
  policy.validate
  return { policy, epoch, seen := ∅, verifierCounts := ∅, nodes := ∅ }

/-- `validate_reward_address`: 64 hexadecimal digits. -/
def validateRewardAddress (address : String) : Result Unit :=
  ensure (textLen address = 64 ∧ (textBytes address).all isAsciiHexDigit = true)
    "노드 보상 주소 형식이 올바르지 않습니다."

/-- The checks at the start of `record_validated`, before the ledger is written. -/
def checkReceipt (ledger : ContributionLedger) (receipt : RelayReceipt) : Result Unit := do
  ensure (ledger.policy.epochSeconds ≠ 0) "attempt to divide by zero"
  ensure (receipt.observedAt / ledger.policy.epochSeconds = ledger.epoch)
    "중계 영수증의 보상 epoch가 다릅니다."
  ensure (receipt.relayPeerId ≠ receipt.verifierPeerId)
    "자기 자신이 확인한 중계 영수증은 인정하지 않습니다."
  ensure (receipt.payloadBytes ≠ 0 ∧ isBlank receipt.messageId = false)
    "빈 메시지 중계는 인정하지 않습니다."
  ensure (receipt.relayStartedAt ≠ 0 ∧ ledger.policy.minimumUptimeSeconds.toNat ≤
      receipt.observedAt.toNat - receipt.relayStartedAt.toNat)
    "1시간 이상 연속 가동이 독립 피어에게 확인된 노드만 보상됩니다."
  validateRewardAddress receipt.rewardAddress

/-- The contribution a receipt finds: what its relay has, or an empty one with its address. -/
def contributionOf (nodes : HashMap String NodeContribution) (receipt : RelayReceipt) :
    NodeContribution :=
  (nodes.lookup receipt.relayPeerId).getD
    { rewardAddress := receipt.rewardAddress, points := 0, verifiers := ∅ }

/-- The contribution with the points and the verifier of a receipt. -/
def credit (policy : RewardPolicy) (contribution : NodeContribution) (receipt : RelayReceipt) :
    NodeContribution :=
  { contribution with
    points := UInt64.ofNat (min (min (contribution.points.toNat + receipt.points) (2 ^ 64 - 1))
      policy.maximumPointsPerNode.toNat)
    verifiers := insert receipt.verifierPeerId contribution.verifiers }

/-- `record_validated`, with the ledger it leaves in each case. -/
def recordValidated (ledger : ContributionLedger) (receipt : RelayReceipt) :
    Result Bool × ContributionLedger :=
  match ledger.checkReceipt receipt with
  | .error e => (.error e, ledger)
  | .ok () =>
    if receipt.dedupe ∈ ledger.seen then (.ok false, ledger)
    else
      let verifierCount := (ledger.verifierCounts.lookup receipt.verifierPeerId).getD 0
      -- `entry(..).or_default()` enters a verifier also where its quota is used up
      let ledger := { ledger with
        seen := insert receipt.dedupe ledger.seen
        verifierCounts := ledger.verifierCounts.insert receipt.verifierPeerId verifierCount }
      if ledger.policy.maximumReceiptsPerVerifier ≤ verifierCount then (.ok false, ledger)
      else
        let contribution := contributionOf ledger.nodes receipt
        let ledger := { ledger with
          verifierCounts := ledger.verifierCounts.insert receipt.verifierPeerId (verifierCount + 1)
          nodes := ledger.nodes.insert receipt.relayPeerId contribution }
        if contribution.rewardAddress ≠ receipt.rewardAddress then
          (.error "같은 PeerId가 서로 다른 보상 주소를 사용했습니다.", ledger)
        else
          (.ok true, { ledger with
            nodes := ledger.nodes.insert receipt.relayPeerId
              (credit ledger.policy contribution receipt) })

/-- `eligible_nodes`. -/
def eligibleNodes (iteration : EntryIteration String NodeContribution)
    (ledger : ContributionLedger) : List EligibleNode :=
  sortBy EligibleNode.peerId <|
    ((iteration.entries ledger.nodes).filter fun entry =>
      ledger.policy.minimumDistinctVerifiers ≤ entry.2.verifiers.card).map fun entry =>
        { peerId := entry.1
          rewardAddress := entry.2.rewardAddress
          points := entry.2.points
          distinctVerifiers := entry.2.verifiers.card }

end ContributionLedger

/-! ## The lottery -/

structure LotteryPayment where
  peerId : String
  rewardAddress : String
  amount : ℕ
deriving DecidableEq

/-- The loop of `integer_sqrt`. -/
def sqrtSearch (value left right : ℕ) : Result ℕ :=
  if left ≤ right then
    let middle := left + (right - left) / 2
    if middle = 0 then .error "attempt to divide by zero"
    else if middle ≤ value / middle then sqrtSearch value (middle + 1) right
    else sqrtSearch value left (middle - 1)
  else .ok right
termination_by right + 1 - left

/-- `integer_sqrt`. -/
def integerSqrt (value : UInt64) : Result ℕ :=
  if value.toNat < 2 then .ok value.toNat
  else sqrtSearch value.toNat 1 (min value.toNat (2 ^ 32 - 1))

/-- The loop over the weights of a round, from an index on. -/
def findWinner : List ℕ → ℕ → ℕ → Option ℕ
  | [], _, _ => none
  | weight :: weights, cursor, index =>
    if cursor < weight then some index else findWinner weights (cursor - weight) (index + 1)

/-- A round of `draw_lottery`: who wins, and who is left. -/
def drawRound [Primitives] (seed : Bytes) (amount : ℕ)
    (s : List EligibleNode × List LotteryPayment) (round : ℕ) :
    Result (List EligibleNode × List LotteryPayment) := do
  let (remaining, winners) := s
  let weights ← remaining.mapM fun node => integerSqrt (max node.points 1)
  ensure (weights.sum < 2 ^ 64) "attempt to add with overflow"
  ensure (weights.sum ≠ 0) "attempt to calculate the remainder with a divisor of zero"
  let cursor := Rlp.beNat ((sha256 (seed ++ beBytes 8 round)).val.take 8) % weights.sum
  let selected := (findWinner weights cursor 0).getD 0
  let node ← okOr remaining[selected]? "removal index should be < len"
  return (remaining.eraseIdx selected, winners ++ [⟨node.peerId, node.rewardAddress, amount⟩])

/-- `draw_lottery`. -/
def drawLottery [Primitives] (seed : Bytes) (pool winnerCount : ℕ) (nodes : List EligibleNode) :
    Result (List LotteryPayment) := do
  if pool = 0 ∨ winnerCount = 0 ∨ nodes = [] then return []
  let remaining := sortBy EligibleNode.peerId nodes
  let draws := min winnerCount remaining.length
  let amount := pool / draws
  if amount = 0 then return []
  let (_, winners) ← (List.range draws).foldlM (drawRound seed amount) (remaining, [])
  return winners

end IeumChain
