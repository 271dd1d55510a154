import IeumChain.TrafficRewards

/-!
# The node emission (`node_emission.rs`)

Once a day the eligible nodes share a budget that halves every year. Each is paid in proportion to
its weight, rounded down, and the last one in the order of the peer ids gets what is left. Amounts
are natural numbers below `2 ^ 128`; what would overflow is an error.
-/

namespace IeumChain

open Lib

/-- `IEUM`. -/
def ieum : ℕ := 10 ^ 18

/-- `TOTAL_NODE_EMISSION`. -/
def totalNodeEmission : ℕ := 210000000 * ieum

/-- `REWARD_ACTIVATION_HEIGHT`. -/
def rewardActivationHeight : ℕ := 100

/-- `REWARD_ACTIVATION_UNIX`. -/
def rewardActivationUnix : ℕ := 1786287600

/-- `REWARD_END_UNIX`. -/
def rewardEndUnix : ℕ := 2240611199

/-- `REWARD_EPOCH_SECONDS`. -/
def rewardEpochSeconds : ℕ := 24 * 60 * 60

/-- `HALVING_SECONDS`. -/
def halvingSeconds : ℕ := 365 * rewardEpochSeconds

/-- `NORMAL_NODE_WEIGHT_BPS`. -/
def normalNodeWeightBps : ℕ := 10000

/-- `MAIN_NODE_WEIGHT_BPS`. -/
def mainNodeWeightBps : ℕ := 15000

/-- `MAIN_NODE_PEER_IDS`, which are not filled in yet. -/
def mainNodePeerIds : List String := ["", "", "", ""]

/-- `is_reward_active`. -/
def isRewardActive (height timestamp : UInt64) : Bool :=
  rewardActivationHeight ≤ height.toNat ∧ rewardActivationUnix ≤ timestamp.toNat ∧
    timestamp.toNat ≤ rewardEndUnix

/-- `halving_index`. -/
def halvingIndex (timestamp : UInt64) : Option ℕ :=
  if rewardActivationUnix ≤ timestamp.toNat ∧ timestamp.toNat ≤ rewardEndUnix then
    some ((timestamp.toNat - rewardActivationUnix) / halvingSeconds)
  else none

/-- `reward_year_count`. -/
def rewardYearCount : ℕ := (rewardEndUnix - rewardActivationUnix) / halvingSeconds + 1

/-- What `annual_budget` gives to a year before the last one. -/
def halvedBudget (yearIndex : ℕ) : Result ℕ := do
  let product := totalNodeEmission * 2 ^ (rewardYearCount - yearIndex - 1)
  ensure (product < 2 ^ 128) "attempt to multiply with overflow"
  return product / (2 ^ rewardYearCount - 1)

/-- `annual_budget`. -/
def annualBudget (yearIndex : ℕ) : Result ℕ := do
  if rewardYearCount ≤ yearIndex then return 0
  if yearIndex + 1 = rewardYearCount then
    let shares ← (List.range yearIndex).mapM halvedBudget
    ensure (shares.sum < 2 ^ 128) "attempt to add with overflow"
    ensure (shares.sum ≤ totalNodeEmission) "attempt to subtract with overflow"
    return totalNodeEmission - shares.sum
  halvedBudget yearIndex

/-- `daily_budget`. -/
def dailyBudget (timestamp : UInt64) : Result ℕ :=
  match halvingIndex timestamp with
  | none => .ok 0
  | some year => do
    let start := rewardActivationUnix + year * halvingSeconds
    let last := min (start + halvingSeconds - 1) rewardEndUnix
    ensure (start ≤ last) "attempt to subtract with overflow"
    let days := (last - start + 1 + (rewardEpochSeconds - 1)) / rewardEpochSeconds
    let budget ← annualBudget year
    return budget / days

/-- `remaining_budget`. -/
def remainingBudget (distributed : ℕ) : ℕ := totalNodeEmission - min distributed totalNodeEmission

/-- `is_main_node`. -/
def isMainNode (peerId : String) : Bool := peerId ≠ "" ∧ peerId ∈ mainNodePeerIds

/-- The weight of a node in `settle_daily_rewards`. -/
def nodeWeight (node : EligibleNode) : ℕ :=
  max node.points.toNat 1 * (if isMainNode node.peerId then mainNodeWeightBps
    else normalNodeWeightBps)

/-- The loop of `settle_daily_rewards` over the nodes with their weights. -/
def payShares (pool totalWeight : ℕ) :
    List (EligibleNode × ℕ) → ℕ → Result (List LotteryPayment)
  | [], _ => .ok []
  | (node, weight) :: rest, assigned => do
    ensure (rest = [] → assigned ≤ pool) "attempt to subtract with overflow"
    ensure (rest ≠ [] → totalWeight ≠ 0) "attempt to divide by zero"
    -- the last node gets what is left, the others a share with the `saturating_mul` of `u128`
    let amount := if rest = [] then pool - assigned
      else min (pool * weight) (2 ^ 128 - 1) / totalWeight
    ensure (assigned + amount < 2 ^ 128) "attempt to add with overflow"
    let payments ← payShares pool totalWeight rest (assigned + amount)
    return if 0 < amount then ⟨node.peerId, node.rewardAddress, amount⟩ :: payments else payments

/-- `settle_daily_rewards`. The hash of the previous block has no influence yet. -/
def settleDailyRewards (height timestamp : UInt64) (_previousBlockHash : String)
    (alreadyDistributed : ℕ) (eligible : List EligibleNode) : Result (List LotteryPayment) := do
  if isRewardActive height timestamp = false ∨ eligible = [] then return []
  let budget ← dailyBudget timestamp
  let pool := min budget (remainingBudget alreadyDistributed)
  if pool = 0 then return []
  let nodes := sortBy EligibleNode.peerId eligible
  let weights := nodes.map nodeWeight
  ensure (weights.sum < 2 ^ 128) "attempt to add with overflow"
  payShares pool weights.sum (nodes.zip weights) 0

end IeumChain
