import IeumChain.NodeEmission

/-!
# The settlement pays the budget of a day

The shares before the last one are rounded down, so together they stay within the pool, and the last
node gets exactly what is left (`payShares_eq_ok`). A settlement therefore pays the budget of the
day or what remains of the emission, whichever is less, and over a run of settlements no more than
the emission is paid (`daily_settlements`). The weights of any nodes that fit in memory have a
128-bit sum (`weightOf_lt`).
-/

namespace IeumChain

open Lib

namespace Emission

/-- The sum of the payments. -/
def paid (payments : List LotteryPayment) : ℕ := (payments.map LotteryPayment.amount).sum

/-- The weights of some nodes together. -/
def weightOf (nodes : List EligibleNode) : ℕ := (nodes.map nodeWeight).sum

/-! ## The shares -/

/-- Where the shares assigned so far and those of the remaining weights fit in the pool, the loop
pays out the rest of the pool. -/
lemma payShares_eq_ok {pool total : ℕ} (hpool : pool < 2 ^ 128) (htotal : 0 < total) :
    ∀ {nodes : List (EligibleNode × ℕ)} {assigned : ℕ}, nodes ≠ [] →
      assigned * total + pool * (nodes.map Prod.snd).sum ≤ pool * total →
      assigned ≤ pool ∧ ∃ payments, payShares pool total nodes assigned = .ok payments ∧
        paid payments = pool - assigned := by
  intro nodes
  induction nodes with
  | nil => exact fun hne => absurd rfl hne
  | cons entry rest ih =>
    obtain ⟨node, weight⟩ := entry
    intro assigned _ hfits
    rw [List.map_cons, List.sum_cons, Nat.mul_add] at hfits
    dsimp only at hfits
    have hassigned : assigned ≤ pool := Nat.le_of_mul_le_mul_right (by omega) htotal
    refine ⟨hassigned, ?_⟩
    rw [payShares]
    by_cases hrest : rest = []
    · -- the last node
      have hsum : assigned + (pool - assigned) < 2 ^ 128 := by omega
      subst hrest
      simp only [bind_eq_ok, ensure_eq_ok, pure_eq_ok, if_true]
      refine ⟨_, ⟨(), fun _ => hassigned, (), fun h => absurd rfl h, (), hsum, [], rfl, rfl⟩, ?_⟩
      split
      case isTrue => simp [paid]
      case isFalse hzero =>
        rw [paid, List.map_nil, List.sum_nil]
        omega
    · -- the share is rounded down, so what is left covers the shares of the rest
      obtain ⟨amount, hamount⟩ : ∃ amount, amount = min (pool * weight) (2 ^ 128 - 1) / total :=
        ⟨_, rfl⟩
      have hshare : amount * total ≤ pool * weight := by
        rw [hamount]
        exact (Nat.div_mul_le_self _ _).trans (min_le_left _ _)
      have hnext : (assigned + amount) * total + pool * (rest.map Prod.snd).sum ≤ pool * total := by
        rw [Nat.add_mul]
        omega
      obtain ⟨hle, payments, hpayments, hpaid⟩ := ih hrest hnext
      simp only [bind_eq_ok, ensure_eq_ok, pure_eq_ok, if_neg hrest, ← hamount]
      refine ⟨_, ⟨(), fun h => absurd h hrest, (), fun _ => htotal.ne', (), by omega, payments,
        hpayments, rfl⟩, ?_⟩
      split
      case isTrue =>
        have hcons : paid (⟨node.peerId, node.rewardAddress, amount⟩ :: payments) =
            amount + paid payments := by rw [paid, List.map_cons, List.sum_cons, paid]
        rw [hcons, hpaid]
        omega
      case isFalse => omega

/-! ## The budget -/

/-- No year of the emission overflows, and each begins before the end. -/
lemma annualBudget_eq_ok : ∀ year < rewardYearCount, isOk (annualBudget year) = true ∧
    rewardActivationUnix + year * halvingSeconds ≤ rewardEndUnix := by
  decide +kernel

/-- Every time has a daily budget. -/
lemma dailyBudget_eq_ok (timestamp : UInt64) : ∃ budget, dailyBudget timestamp = .ok budget := by
  rw [dailyBudget]
  cases hyear : halvingIndex timestamp with
  | none => exact ⟨0, rfl⟩
  | some year =>
    have hlt : year < rewardYearCount := by
      rw [halvingIndex] at hyear
      split at hyear
      case isTrue htime =>
        obtain rfl := Option.some.inj hyear
        have hspan : timestamp.toNat - rewardActivationUnix ≤ rewardEndUnix - rewardActivationUnix :=
          Nat.sub_le_sub_right htime.2 _
        exact Nat.lt_succ_of_le (Nat.div_le_div_right hspan)
      case isFalse => cases hyear
    obtain ⟨hok, hstart⟩ := annualBudget_eq_ok year hlt
    obtain ⟨budget, hbudget⟩ := isOk_iff.mp hok
    have hlast : rewardActivationUnix + year * halvingSeconds ≤
        min (rewardActivationUnix + year * halvingSeconds + halvingSeconds - 1) rewardEndUnix := by
      have hhalving : 0 < halvingSeconds := by decide
      exact le_min (by omega) hstart
    simp only [bind_eq_ok, ensure_eq_ok, pure_eq_ok]
    exact ⟨_, (), hlast, budget, hbudget, rfl⟩

lemma remainingBudget_lt (distributed : ℕ) : remainingBudget distributed < 2 ^ 128 :=
  (Nat.sub_le _ _).trans_lt (by decide)

/-! ## A settlement -/

/-- A call of `settle_daily_rewards`, without what was distributed before. -/
structure Settlement where
  height : UInt64
  timestamp : UInt64
  previousBlockHash : String
  eligible : List EligibleNode

/-- The nodes have distinct ids, and they are a slice: a node has 64 bytes, and no machine has an
address space of `2 ^ 56`. -/
structure Settlement.Payable (s : Settlement) : Prop where
  distinct : (s.eligible.map EligibleNode.peerId).Nodup
  slice : s.eligible.length < 2 ^ 50

/-- The payments of a settlement. -/
def Settlement.pay (s : Settlement) (distributed : ℕ) : Result (List LotteryPayment) :=
  settleDailyRewards s.height s.timestamp s.previousBlockHash distributed s.eligible

/-- The nodes that share the pool. -/
lemma weightOf_sortBy (nodes : List EligibleNode) :
    weightOf (sortBy EligibleNode.peerId nodes) = weightOf nodes :=
  ((perm_sortBy EligibleNode.peerId nodes).map nodeWeight).sum_eq

lemma nodeWeight_pos (node : EligibleNode) : 0 < nodeWeight node := by
  rw [nodeWeight]
  refine Nat.mul_pos (lt_max_of_lt_right Nat.one_pos) ?_
  split <;> decide

lemma weightOf_pos {nodes : List EligibleNode} (h : nodes ≠ []) : 0 < weightOf nodes := by
  obtain ⟨node, hnode⟩ := List.exists_mem_of_ne_nil nodes h
  exact (nodeWeight_pos node).trans_le
    (List.le_sum_of_mem (List.mem_map.mpr ⟨node, hnode, rfl⟩))

lemma nodeWeight_le (node : EligibleNode) : nodeWeight node ≤ (2 ^ 64 - 1) * mainNodeWeightBps := by
  have hpoints : node.points.toNat ≤ 2 ^ 64 - 1 := Nat.le_pred_of_lt node.points.toNat_lt
  rw [nodeWeight]
  refine Nat.mul_le_mul (max_le hpoints (by decide)) ?_
  split <;> decide

/-- The sum of the weights of a slice does not overflow. -/
lemma weightOf_lt {nodes : List EligibleNode} (h : nodes.length < 2 ^ 50) :
    weightOf nodes < 2 ^ 128 := by
  have hsum : weightOf nodes ≤ nodes.length * ((2 ^ 64 - 1) * mainNodeWeightBps) := by
    have hle := List.sum_le_card_nsmul (nodes.map nodeWeight) _
      (List.forall_mem_map.mpr fun node _ => nodeWeight_le node)
    rwa [List.length_map, smul_eq_mul] at hle
  calc weightOf nodes ≤ nodes.length * ((2 ^ 64 - 1) * mainNodeWeightBps) := hsum
    _ ≤ 2 ^ 50 * ((2 ^ 64 - 1) * mainNodeWeightBps) := Nat.mul_le_mul_right _ h.le
    _ < 2 ^ 128 := by decide

/-- A settlement in time pays the budget of the day or what remains. -/
theorem pay_eq_ok {s : Settlement} (h : s.Payable) (distributed : ℕ) :
    ∃ budget payments, dailyBudget s.timestamp = .ok budget ∧
      s.pay distributed = .ok payments ∧
      (isRewardActive s.height s.timestamp = true → s.eligible ≠ [] →
        paid payments = min budget (remainingBudget distributed)) ∧
      (isRewardActive s.height s.timestamp = false ∨ s.eligible = [] → payments = []) := by
  obtain ⟨budget, hbudget⟩ := dailyBudget_eq_ok s.timestamp
  rw [Settlement.pay, settleDailyRewards]
  by_cases hidle : isRewardActive s.height s.timestamp = false ∨ s.eligible = []
  · rw [if_pos hidle]
    refine ⟨budget, [], hbudget, rfl, fun hactive hnodes => ?_, fun _ => rfl⟩
    exact absurd hidle (not_or.mpr ⟨by rw [hactive]; exact nofun, hnodes⟩)
  have hnodes : s.eligible ≠ [] := (not_or.mp hidle).2
  rw [if_neg hidle]
  by_cases hpool : min budget (remainingBudget distributed) = 0
  · refine ⟨budget, [], hbudget, ?_, fun _ _ => hpool.symm, fun _ => rfl⟩
    simp only [bind_eq_ok]
    exact ⟨budget, hbudget, by rw [if_pos hpool]; rfl⟩
  · set nodes := sortBy EligibleNode.peerId s.eligible
    have hweight : (nodes.map nodeWeight).sum = weightOf s.eligible := weightOf_sortBy s.eligible
    have hne : nodes.zip (nodes.map nodeWeight) ≠ [] := by
      intro hnil
      have hlength := congrArg List.length hnil
      have hsame : nodes.length = s.eligible.length :=
        (perm_sortBy EligibleNode.peerId s.eligible).length_eq
      rw [List.length_zip, List.length_map, min_self, hsame, List.length_nil] at hlength
      exact hnodes (List.length_eq_zero_iff.mp hlength)
    have hsnd : (nodes.zip (nodes.map nodeWeight)).map Prod.snd = nodes.map nodeWeight :=
      List.map_snd_zip (by rw [List.length_map])
    -- nothing is assigned yet, and the weights are the whole
    have hfits : 0 * (nodes.map nodeWeight).sum + min budget (remainingBudget distributed) *
        ((nodes.zip (nodes.map nodeWeight)).map Prod.snd).sum ≤
        min budget (remainingBudget distributed) * (nodes.map nodeWeight).sum := by
      rw [hsnd]
      omega
    obtain ⟨-, payments, hpayments, hpaid⟩ := payShares_eq_ok
      ((min_le_right budget _).trans_lt (remainingBudget_lt distributed))
      (hweight ▸ weightOf_pos hnodes) hne hfits
    refine ⟨budget, payments, hbudget, ?_, fun _ _ => hpaid, fun h => absurd h hidle⟩
    simp only [bind_eq_ok]
    refine ⟨budget, hbudget, ?_⟩
    rw [if_neg hpool]
    simp only [bind_eq_ok, ensure_eq_ok]
    exact ⟨(), hweight ▸ weightOf_lt h.slice, hpayments⟩

/-- A settlement reads the nodes in the order of their ids. -/
lemma pay_perm {s : Settlement} (h : s.Payable) {nodes : List EligibleNode}
    (hperm : nodes.Perm s.eligible) (distributed : ℕ) :
    Settlement.pay { s with eligible := nodes } distributed = s.pay distributed := by
  have hsorted : sortBy EligibleNode.peerId nodes = sortBy EligibleNode.peerId s.eligible :=
    (sortBy_congr hperm.symm h.distinct).symm
  have hempty : nodes = [] ↔ s.eligible = [] := by
    rw [← List.length_eq_zero_iff, hperm.length_eq, List.length_eq_zero_iff]
  simp only [Settlement.pay, settleDailyRewards, hsorted, hempty]

/-! ## A run of settlements -/

/-- The amount distributed after a settlement. -/
def settled (distributed : ℕ) (s : Settlement) : Result ℕ := do
  let payments ← s.pay distributed
  return distributed + paid payments

/-- A settlement stays within the emission. -/
lemma settled_eq_ok {s : Settlement} (h : s.Payable) {distributed : ℕ}
    (hle : distributed ≤ totalNodeEmission) :
    ∃ distributed', settled distributed s = .ok distributed' ∧
      distributed' ≤ totalNodeEmission := by
  obtain ⟨budget, payments, -, hpay, hactive, hidle⟩ := pay_eq_ok h distributed
  have hok : settled distributed s = .ok (distributed + paid payments) := by
    rw [settled, hpay]
    rfl
  refine ⟨_, hok, ?_⟩
  have hpaid : paid payments ≤ remainingBudget distributed := by
    by_cases h : isRewardActive s.height s.timestamp = true ∧ s.eligible ≠ []
    · rw [hactive h.1 h.2]
      exact min_le_right _ _
    · have hnone : payments = [] := by
        apply hidle
        by_contra! hnot
        exact h ⟨Bool.eq_true_of_not_eq_false hnot.1, hnot.2⟩
      rw [hnone]
      exact Nat.zero_le _
  rw [remainingBudget, min_eq_left hle] at hpaid
  omega

/-- So does a run. -/
lemma foldlM_settled {settlements : List Settlement} (h : ∀ s ∈ settlements, s.Payable) :
    ∀ {distributed : ℕ}, distributed ≤ totalNodeEmission →
      ∃ total, settlements.foldlM settled distributed = .ok total ∧ total ≤ totalNodeEmission := by
  induction settlements with
  | nil => exact fun hle => ⟨_, rfl, hle⟩
  | cons s settlements ih =>
    intro distributed hle
    obtain ⟨hs, hrest⟩ := List.forall_mem_cons.mp h
    obtain ⟨distributed', hstep, hle'⟩ := settled_eq_ok hs hle
    obtain ⟨total, htotal, hbound⟩ := ih hrest hle'
    exact ⟨total, foldlM_cons_eq_ok.mpr ⟨distributed', hstep, htotal⟩, hbound⟩

/-- Every settlement of nodes with distinct ids succeeds. It pays exactly the smaller of the day's
and the remaining budget when rewards are active and there are nodes, and nothing otherwise. The
order of the nodes has no influence, and a run that starts with nothing distributed never pays more
than the emission. -/
theorem daily_settlements (settlements : List Settlement) (h : ∀ s ∈ settlements, s.Payable) :
    (∀ s ∈ settlements, ∀ distributed, ∃ budget payments,
      dailyBudget s.timestamp = .ok budget ∧ s.pay distributed = .ok payments ∧
      (isRewardActive s.height s.timestamp = true → s.eligible ≠ [] →
        paid payments = min budget (remainingBudget distributed)) ∧
      (isRewardActive s.height s.timestamp = false ∨ s.eligible = [] → payments = [])) ∧
    (∀ s ∈ settlements, ∀ distributed nodes, nodes.Perm s.eligible →
      Settlement.pay { s with eligible := nodes } distributed = s.pay distributed) ∧
    ∃ total, settlements.foldlM settled 0 = .ok total ∧ total ≤ totalNodeEmission :=
  ⟨fun s hs distributed => pay_eq_ok (h s hs) distributed,
    fun s hs distributed _ hperm => pay_perm (h s hs) hperm distributed,
    foldlM_settled h (Nat.zero_le _)⟩

/-- Two nodes, settled when seven coins are left of the emission. -/
def lastCoins : Settlement where
  height := 100
  timestamp := 1786287600
  previousBlockHash := "aa"
  eligible := [⟨"a", "11", 1, 3⟩, ⟨"b", "11", 2, 3⟩]

/-- They get the seven coins. -/
theorem daily_settlement_last_coins : ∃ payments,
    lastCoins.pay (totalNodeEmission - 7 * ieum) = .ok payments ∧ paid payments = 7 * ieum := by
  have hpayable : lastCoins.Payable := ⟨by decide, by decide⟩
  obtain ⟨budget, payments, hbudget, hpay, hactive, -⟩ :=
    (daily_settlements [lastCoins] (List.forall_mem_singleton.mpr hpayable)).1 lastCoins
      List.mem_cons_self (totalNodeEmission - 7 * ieum)
  refine ⟨payments, hpay, ?_⟩
  rw [hactive (by decide) (by decide)]
  have hday : isOk (dailyBudget 1786287600) = true ∧
      7 * ieum ≤ getOk (dailyBudget 1786287600) 0 := by decide +kernel
  have hbudget' : dailyBudget 1786287600 = .ok budget := hbudget
  rw [hbudget', getOk_ok] at hday
  rw [remainingBudget, min_eq_left (Nat.sub_le _ _)]
  have htotal : 7 * ieum ≤ totalNodeEmission := by decide
  omega

end Emission

end IeumChain
