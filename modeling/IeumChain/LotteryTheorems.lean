import IeumChain.Devnet
import IeumChain.TrafficRewards

/-!
# The lottery is fair

The binary search finds the integer square root over the whole 64-bit range (`integerSqrt_eq_ok`),
and with the operations of the machine too (`integer_sqrt_floor`).
The weights of a round cut the numbers below their sum into intervals, one for each node, so the
subtracting loop finds the one interval the round's number lies in (`findWinner_eq_some`) and never
falls back to the first node. Round after round one node is taken out and paid (`draw_lottery_run`).
-/

namespace IeumChain

open Lib

namespace Lottery

/-! ## The square root -/

/-- The search keeps the root between its bounds. -/
lemma sqrtSearch_eq_ok (value left right : ℕ) (hpos : 0 < left) (hleft : left ≤ value.sqrt + 1)
    (hright : value.sqrt ≤ right) (hmeet : left ≤ right + 1) :
    sqrtSearch value left right = .ok value.sqrt := by
  fun_induction sqrtSearch value left right with
  | case1 left right hle middle hzero => omega
  | case2 left right hle middle hmiddle hbelow ih =>
    have hsquare : middle * middle ≤ value :=
      (Nat.le_div_iff_mul_le (Nat.pos_of_ne_zero hmiddle)).mp hbelow
    have hroot : middle ≤ value.sqrt := Nat.le_sqrt.mpr hsquare
    exact ih (by omega) (by omega) hright (by omega)
  | case3 left right hle middle hmiddle habove ih =>
    have hsquare : ¬ middle * middle ≤ value := fun h =>
      habove ((Nat.le_div_iff_mul_le (Nat.pos_of_ne_zero hmiddle)).mpr h)
    have hroot : ¬ middle ≤ value.sqrt := fun h => hsquare (Nat.le_sqrt.mp h)
    exact ih hpos hleft (by omega) (by omega)
  | case4 left right hgt =>
    have heq : right = value.sqrt := by omega
    rw [heq]

/-- `integer_sqrt` returns the square root, also where the search is capped. -/
theorem integerSqrt_eq_ok (value : UInt64) : integerSqrt value = .ok value.toNat.sqrt := by
  rw [integerSqrt]
  split
  case isTrue hsmall =>
    have hroot : value.toNat = value.toNat.sqrt := Nat.eq_sqrt.mpr ⟨by nlinarith, by nlinarith⟩
    rw [← hroot]
  case isFalse hlarge =>
    have hpos : 0 < value.toNat.sqrt := Nat.sqrt_pos.mpr (by omega)
    have hcap : value.toNat.sqrt < 2 ^ 32 := Nat.sqrt_lt.mpr (by simpa using value.toNat_lt)
    have hself : value.toNat.sqrt ≤ value.toNat := Nat.sqrt_le_self _
    exact sqrtSearch_eq_ok _ _ _ Nat.one_pos (by omega) (le_min hself (by omega)) (by omega)

/-! ## The square root in 64 bits -/

/-- A round of the loop of `integer_sqrt`, with every operation checked. -/
def sqrtRound (value left right : UInt64) : Result (UInt64 × UInt64) := do
  ensure (left ≤ right) "attempt to subtract with overflow"
  ensure (left.toNat + ((right - left) / 2).toNat < 2 ^ 64) "attempt to add with overflow"
  let middle := left + (right - left) / 2
  ensure (middle ≠ 0) "attempt to divide by zero"
  if middle ≤ value / middle then
    let next ← addOne middle
    return (next, right)
  else
    ensure (1 ≤ middle) "attempt to subtract with overflow"
    return (left, middle - 1)

/-- The loop of `integer_sqrt`, if it ends within a number of checks of its condition. -/
def sqrtLoop (value : UInt64) : ℕ → UInt64 → UInt64 → Option (Result UInt64)
  | 0, _, _ => none
  | checks + 1, left, right =>
    if left ≤ right then
      match sqrtRound value left right with
      | .ok (left, right) => sqrtLoop value checks left right
      | .error e => some (.error e)
    else some (.ok right)

/-- `integer_sqrt` in 64 bits. -/
def integerSqrt64 (checks : ℕ) (value : UInt64) : Option (Result UInt64) :=
  if value < 2 then some (.ok value) else sqrtLoop value checks 1 (min value 4294967295)

/-- The root is between the bounds of the search. -/
structure Brackets (value left right : UInt64) : Prop where
  pos : 0 < left.toNat
  below : left.toNat ≤ value.toNat.sqrt + 1
  above : value.toNat.sqrt ≤ right.toNat
  meet : left.toNat ≤ right.toNat + 1
  cap : right.toNat < 2 ^ 32

/-- A round keeps the root between the bounds and halves what is between them. -/
lemma Brackets.round {value left right : UInt64} (h : Brackets value left right)
    (hle : left ≤ right) : ∃ left' right', sqrtRound value left right = .ok (left', right') ∧
      Brackets value left' right' ∧
      2 * (right'.toNat + 1 - left'.toNat) ≤ right.toNat + 1 - left.toNat := by
  obtain ⟨hpos, hleft, hright, -, hcap⟩ := h
  have hle' : left.toNat ≤ right.toNat := UInt64.le_iff_toNat_le.mp hle
  have hhalf : ((right - left) / 2).toNat = (right.toNat - left.toNat) / 2 := by
    rw [UInt64.toNat_div, UInt64.toNat_sub_of_le _ _ hle]
    rfl
  have hsum : left.toNat + ((right - left) / 2).toNat < 2 ^ 64 := by omega
  obtain ⟨middle, hmiddle⟩ : ∃ middle, middle = left + (right - left) / 2 := ⟨_, rfl⟩
  have hvalue : middle.toNat = left.toNat + (right.toNat - left.toNat) / 2 := by
    rw [hmiddle, UInt64.toNat_add, Nat.mod_eq_of_lt hsum, hhalf]
  have hnonzero : middle ≠ 0 := by
    rintro rfl
    rw [UInt64.toNat_zero] at hvalue
    omega
  -- the source compares with the quotient, since the square could overflow
  have hcompare : middle ≤ value / middle ↔ middle.toNat ≤ value.toNat.sqrt := by
    rw [UInt64.le_iff_toNat_le, UInt64.toNat_div, Nat.le_div_iff_mul_le (by omega), Nat.le_sqrt]
  have hround : ∀ bounds, sqrtRound value left right = .ok bounds ↔
      (if middle ≤ value / middle then do
        let next ← addOne middle
        return (next, right)
      else do
        ensure (1 ≤ middle) "attempt to subtract with overflow"
        return (left, middle - 1)) = .ok bounds := by
    intro bounds
    rw [hmiddle] at hnonzero ⊢
    simp only [sqrtRound, bind_eq_ok, ensure_eq_ok]
    constructor
    · rintro ⟨_, _, _, _, _, _, h⟩
      exact h
    · intro h
      exact ⟨(), hle, (), hsum, (), hnonzero, h⟩
  -- the root is in the half that the round keeps
  by_cases hbelow : middle ≤ value / middle
  · have hroot := hcompare.mp hbelow
    have hnext : (middle + 1).toNat = middle.toNat + 1 := by
      rw [UInt64.toNat_add, UInt64.toNat_one]
      exact Nat.mod_eq_of_lt (by omega)
    refine ⟨middle + 1, right, ?_, ⟨by omega, by omega, hright, by omega, hcap⟩, by omega⟩
    rw [hround, if_pos hbelow, addOne_eq_ok.mpr hnext]
    rfl
  · have hroot : ¬ middle.toNat ≤ value.toNat.sqrt := fun h => hbelow (hcompare.mpr h)
    have hone : (1 : UInt64) ≤ middle := by
      rw [UInt64.le_iff_toNat_le, UInt64.toNat_one]
      omega
    have hprevious : (middle - 1).toNat = middle.toNat - 1 := UInt64.toNat_sub_of_le _ _ hone
    refine ⟨left, middle - 1, ?_, ⟨hpos, hleft, by omega, by omega, by omega⟩, by omega⟩
    rw [hround, if_neg hbelow, ensure, if_pos hone]
    rfl

/-- The search ends once it was halved often enough. -/
lemma Brackets.loop {value : UInt64} : ∀ {halvings : ℕ} {left right : UInt64},
    Brackets value left right → right.toNat + 1 - left.toNat < 2 ^ halvings →
      ∃ root, sqrtLoop value (halvings + 1) left right = some (.ok root) ∧
        root.toNat = value.toNat.sqrt := by
  intro halvings
  induction halvings with
  | zero =>
    intro left right h hwidth
    have hgt : ¬ left ≤ right := by
      rw [UInt64.le_iff_toNat_le]
      omega
    have hroot : right.toNat = value.toNat.sqrt := by
      have hleft := h.below
      have hright := h.above
      omega
    exact ⟨right, by rw [sqrtLoop, if_neg hgt], hroot⟩
  | succ halvings ih =>
    intro left right h hwidth
    rw [sqrtLoop]
    by_cases hle : left ≤ right
    · obtain ⟨left', right', hround, h', hhalf⟩ := h.round hle
      rw [if_pos hle, hround]
      exact ih h' (by omega)
    · have hroot : right.toNat = value.toNat.sqrt := by
        have hleft := h.below
        have hright := h.above
        rw [UInt64.le_iff_toNat_le] at hle
        omega
      exact ⟨right, by rw [if_neg hle], hroot⟩

/-- **The integer square root.** On every 64-bit value the loop ends at its 33rd check at the
latest, no operation on the way overflows or divides by zero, and the result is the root, rounded
down. -/
theorem integer_sqrt_floor (value : UInt64) : ∃ root : UInt64,
    integerSqrt64 33 value = some (.ok root) ∧ integerSqrt value = .ok root.toNat ∧
      root.toNat * root.toNat ≤ value.toNat ∧
      value.toNat < (root.toNat + 1) * (root.toNat + 1) := by
  have hfloor : ∃ root, integerSqrt64 33 value = some (.ok root) ∧
      root.toNat = value.toNat.sqrt := by
    rw [integerSqrt64]
    by_cases hsmall : value < 2
    · have hvalue := UInt64.lt_iff_toNat_lt.mp hsmall
      rw [UInt64.toNat_ofNat] at hvalue
      exact ⟨value, if_pos hsmall, Nat.eq_sqrt.mpr ⟨by nlinarith, by nlinarith⟩⟩
    · rw [UInt64.lt_iff_toNat_lt, UInt64.toNat_ofNat] at hsmall
      rw [if_neg (by rwa [UInt64.lt_iff_toNat_lt, UInt64.toNat_ofNat])]
      have hroot : value.toNat.sqrt < 2 ^ 32 := Nat.sqrt_lt.mpr (by simpa using value.toNat_lt)
      have hself : value.toNat.sqrt ≤ value.toNat := Nat.sqrt_le_self _
      -- the search starts at the value or 2^32 - 1, neither below the root
      have hcap : (min value 4294967295).toNat = min value.toNat (2 ^ 32 - 1) := by
        show (if value ≤ 4294967295 then value else 4294967295).toNat = _
        have hlargest : (4294967295 : UInt64).toNat = 2 ^ 32 - 1 := rfl
        simp only [UInt64.le_iff_toNat_le, hlargest]
        split
        case isTrue hle => omega
        case isFalse hgt => omega
      refine @Brackets.loop value 32 _ _ ⟨by decide, ?_, ?_, ?_, ?_⟩ ?_
      · rw [UInt64.toNat_one]
        omega
      · omega
      · rw [UInt64.toNat_one]
        omega
      · omega
      · rw [UInt64.toNat_one]
        omega
  obtain ⟨root, hsearch, hroot⟩ := hfloor
  refine ⟨root, hsearch, ?_, ?_, ?_⟩
  · rw [hroot]
    exact integerSqrt_eq_ok value
  · rw [hroot]
    exact Nat.sqrt_le _
  · rw [hroot]
    exact Nat.lt_succ_sqrt _

example : integerSqrt64 33 18446744073709551615 = some (.ok 4294967295) := by decide +kernel

/-! ## The winner of a round -/

/-- The weight of a node. -/
def weight (node : EligibleNode) : ℕ := (max node.points.toNat 1).sqrt

lemma weight_pos (node : EligibleNode) : 0 < weight node :=
  Nat.sqrt_pos.mpr (lt_max_of_lt_right Nat.one_pos)

lemma weight_lt (node : EligibleNode) : weight node < 2 ^ 32 :=
  Nat.sqrt_lt.mpr (max_lt (by simpa using node.points.toNat_lt) (by decide))

lemma integerSqrt_points (node : EligibleNode) :
    integerSqrt (max node.points 1) = .ok (weight node) := by
  have hmax : (max node.points 1).toNat = max node.points.toNat 1 := by
    show (if node.points ≤ 1 then (1 : UInt64) else node.points).toNat = _
    split
    case isTrue hle => exact (max_eq_right (UInt64.le_iff_toNat_le.mp hle)).symm
    case isFalse hgt =>
      have hlarge : ¬ node.points.toNat ≤ 1 := fun hle => hgt (UInt64.le_iff_toNat_le.mpr hle)
      exact (max_eq_left (by omega)).symm
  rw [integerSqrt_eq_ok, hmax, weight]

/-- A loop whose every step succeeds collects the results. -/
lemma mapM_eq_ok {α β : Type} {f : α → Result β} {g : α → β} {l : List α}
    (h : ∀ a ∈ l, f a = .ok (g a)) : l.mapM f = .ok (l.map g) := by
  induction l with
  | nil => rfl
  | cons a l ih =>
    obtain ⟨ha, hl⟩ := List.forall_mem_cons.mp h
    rw [List.mapM_cons, ha, ih hl]
    rfl

/-- The number lies in the interval of the `i`-th weight. -/
def InInterval (weights : List ℕ) (number i : ℕ) : Prop :=
  (weights.take i).sum ≤ number ∧ number < (weights.take (i + 1)).sum

/-- A number below the sum lies in the interval that the loop finds. -/
lemma findWinner_eq_some : ∀ {weights : List ℕ} {number index : ℕ}, number < weights.sum →
    ∃ i < weights.length, findWinner weights number index = some (index + i) ∧
      InInterval weights number i := by
  intro weights
  induction weights with
  | nil => exact fun h => absurd h (Nat.not_lt_zero _)
  | cons w weights ih =>
    intro number index hlt
    rw [findWinner]
    by_cases hw : number < w
    · rw [if_pos hw]
      exact ⟨0, Nat.succ_pos _, rfl, Nat.zero_le _, by simpa using hw⟩
    · rw [if_neg hw]
      rw [List.sum_cons] at hlt
      have hrest : number - w < weights.sum := by omega
      obtain ⟨i, hi, hfind, hlow, hhigh⟩ := @ih (number - w) (index + 1) hrest
      refine ⟨i + 1, Nat.succ_lt_succ hi, ?_, ?_, ?_⟩
      · rw [hfind, Nat.add_right_comm, Nat.add_assoc]
      · rw [List.take_succ_cons, List.sum_cons]
        omega
      · rw [List.take_succ_cons, List.sum_cons]
        omega

/-- No two intervals meet. -/
lemma InInterval.unique {weights : List ℕ} {number i j : ℕ} (hi : InInterval weights number i)
    (hj : InInterval weights number j) : i = j := by
  have hmono : ∀ {m n : ℕ}, m ≤ n → (weights.take m).sum ≤ (weights.take n).sum := by
    intro m n hle
    exact (List.take_sublist_take_left hle).sum_le_sum fun _ _ => Nat.zero_le _
  by_contra hne
  obtain hlt | hgt := Nat.lt_or_gt_of_ne hne
  · exact absurd (hi.2.trans_le (hmono hlt)) (Nat.not_lt.mpr hj.1)
  · exact absurd (hj.2.trans_le (hmono hgt)) (Nat.not_lt.mpr hi.1)

/-! ## The draws -/

/-- Fewer than `2 ^ 31` weights have a 64-bit sum. -/
lemma sum_weight_lt {remaining : List EligibleNode} (h : remaining.length < 2 ^ 31) :
    (remaining.map weight).sum < 2 ^ 64 := by
  have hle : (remaining.map weight).sum ≤ (remaining.map weight).length • 2 ^ 32 :=
    List.sum_le_card_nsmul _ _ fun w hw => by
      obtain ⟨node, -, rfl⟩ := List.mem_map.mp hw
      exact (weight_lt node).le
  rw [List.length_map, smul_eq_mul] at hle
  omega

lemma sum_weight_pos {remaining : List EligibleNode} (h : remaining ≠ []) :
    0 < (remaining.map weight).sum := by
  obtain ⟨node, hnode⟩ := List.exists_mem_of_ne_nil remaining h
  exact (weight_pos node).trans_le (List.le_sum_of_mem (List.mem_map.mpr ⟨node, hnode, rfl⟩))

section
variable [Primitives]

/-- The number of a round: its hash value modulo the total weight. -/
def ticket (seed : Bytes) (round : ℕ) (remaining : List EligibleNode) : ℕ :=
  Rlp.beNat ((sha256 (seed ++ beBytes 8 round)).val.take 8) % (remaining.map weight).sum

/-- The payments of draws from a round on: each round takes out the one node whose interval holds
the round's number. -/
inductive Drawn (seed : Bytes) (amount : ℕ) :
    ℕ → List EligibleNode → List LotteryPayment → Prop where
  | done (round : ℕ) (remaining : List EligibleNode) : Drawn seed amount round remaining []
  | draw {round i : ℕ} {remaining : List EligibleNode} {node : EligibleNode}
      {payments : List LotteryPayment} :
      remaining[i]? = some node →
      (∀ j, InInterval (remaining.map weight) (ticket seed round remaining) j ↔ j = i) →
      Drawn seed amount (round + 1) (remaining.eraseIdx i) payments →
      Drawn seed amount round remaining (⟨node.peerId, node.rewardAddress, amount⟩ :: payments)

/-- A round with a node left takes out the winner. -/
lemma drawRound_eq_ok {seed : Bytes} {amount round : ℕ} {remaining : List EligibleNode}
    {winners : List LotteryPayment} (hne : remaining ≠ []) (hlength : remaining.length < 2 ^ 31) :
    ∃ i node, remaining[i]? = some node ∧
      (∀ j, InInterval (remaining.map weight) (ticket seed round remaining) j ↔ j = i) ∧
      drawRound seed amount (remaining, winners) round =
        .ok (remaining.eraseIdx i, winners ++ [⟨node.peerId, node.rewardAddress, amount⟩]) := by
  have hpos := sum_weight_pos hne
  have hticket : ticket seed round remaining < (remaining.map weight).sum := Nat.mod_lt _ hpos
  obtain ⟨i, hi, hfind, hinterval⟩ := @findWinner_eq_some _ _ 0 hticket
  rw [List.length_map] at hi
  rw [Nat.zero_add] at hfind
  refine ⟨i, remaining[i], List.getElem?_eq_getElem hi,
    fun j => ⟨fun hj => hj.unique hinterval, fun hj => hj ▸ hinterval⟩, ?_⟩
  have hselected : (findWinner (remaining.map weight)
      (Rlp.beNat ((sha256 (seed ++ beBytes 8 round)).val.take 8) % (remaining.map weight).sum)
      0).getD 0 = i := by
    rw [← ticket, hfind]
    rfl
  rw [drawRound]
  simp only [bind_eq_ok, ensure_eq_ok, okOr_eq_ok, pure_eq_ok]
  refine ⟨_, mapM_eq_ok fun node _ => integerSqrt_points node, (), sum_weight_lt hlength, (),
    hpos.ne', remaining[i], ?_, ?_⟩
  · rw [hselected, List.getElem?_eq_getElem hi]
  · rw [hselected]

/-- As many rounds as there are nodes at most: each pays one node, and the rest stays. -/
lemma foldlM_drawRound {seed : Bytes} {amount : ℕ} : ∀ (draws round : ℕ)
    {remaining : List EligibleNode} {winners : List LotteryPayment}, draws ≤ remaining.length →
      remaining.length < 2 ^ 31 →
      ∃ rest drawn payments, (List.range' round draws).foldlM (drawRound seed amount)
          (remaining, winners) = .ok (rest, winners ++ payments) ∧
        Drawn seed amount round remaining payments ∧ (drawn ++ rest).Perm remaining ∧
        payments = drawn.map (fun node => ⟨node.peerId, node.rewardAddress, amount⟩) ∧
        drawn.length = draws := by
  intro draws
  induction draws with
  | zero =>
    intro round remaining winners _ _
    exact ⟨remaining, [], [], by rw [List.append_nil]; rfl, .done round remaining, .refl _, rfl, rfl⟩
  | succ draws ih =>
    intro round remaining winners hle hlength
    have hne : remaining ≠ [] := List.ne_nil_of_length_pos (by omega)
    obtain ⟨i, node, hnode, hwins, hround⟩ :=
      @drawRound_eq_ok _ seed amount round remaining winners hne hlength
    obtain ⟨hi, hget⟩ := List.getElem?_eq_some_iff.mp hnode
    have hshorter : (remaining.eraseIdx i).length = remaining.length - 1 :=
      List.length_eraseIdx_of_lt hi
    obtain ⟨rest, drawn, payments, hfold, hdrawn, hperm, hpayments, hcount⟩ :=
      @ih (round + 1) (remaining.eraseIdx i)
        (winners ++ [⟨node.peerId, node.rewardAddress, amount⟩]) (by omega) (by omega)
    refine ⟨rest, node :: drawn, _, ?_, .draw hnode hwins hdrawn, ?_, ?_, ?_⟩
    · rw [List.range'_succ, foldlM_cons_eq_ok]
      exact ⟨_, hround, by rw [hfold, List.append_assoc]; rfl⟩
    · rw [List.cons_append]
      refine (hperm.cons node).trans ?_
      rw [← hget]
      exact (List.getElem_cons_eraseIdx_perm hi)
    · rw [List.map_cons, hpayments]
    · rw [List.length_cons, hcount]

/-- The lottery draws nothing: the pool does not give every draw a unit, or one of the three things
it needs is missing. -/
def Idle (pool winnerCount : ℕ) (nodes : List EligibleNode) : Prop :=
  pool < min winnerCount nodes.length ∨ nodes = [] ∨ winnerCount = 0 ∨ pool = 0

/-- What the payments of a lottery are. -/
structure Fair (seed : Bytes) (pool winnerCount : ℕ) (nodes : List EligibleNode)
    (payments : List LotteryPayment) : Prop where
  count : payments.length = min winnerCount nodes.length
  distinct : (payments.map LotteryPayment.peerId).Nodup
  toNodes : ∀ p ∈ payments, ∃ node ∈ nodes, p.peerId = node.peerId ∧
    p.rewardAddress = node.rewardAddress
  equal : ∀ p ∈ payments, p.amount = pool / min winnerCount nodes.length
  within : (payments.map LotteryPayment.amount).sum ≤ pool
  rest : pool - (payments.map LotteryPayment.amount).sum ≤ min winnerCount nodes.length - 1
  drawn : Drawn seed (pool / min winnerCount nodes.length) 0 (sortBy EligibleNode.peerId nodes)
    payments

lemma draw_idle {seed : Bytes} {pool winnerCount : ℕ} {nodes : List EligibleNode}
    (h : Idle pool winnerCount nodes) : drawLottery seed pool winnerCount nodes = .ok [] := by
  rw [drawLottery]
  by_cases hnothing : pool = 0 ∨ winnerCount = 0 ∨ nodes = []
  · rw [if_pos hnothing]
    rfl
  · have hsmall : pool < min winnerCount nodes.length := by
      rw [not_or, not_or] at hnothing
      obtain hsmall | hnodes | hcount | hpool := h
      · exact hsmall
      · exact absurd hnodes hnothing.2.2
      · exact absurd hcount hnothing.2.1
      · exact absurd hpool hnothing.1
    have hlength : (sortBy EligibleNode.peerId nodes).length = nodes.length :=
      (perm_sortBy EligibleNode.peerId nodes).length_eq
    rw [if_neg hnothing]
    dsimp only
    rw [hlength, Nat.div_eq_of_lt hsmall, if_pos rfl]
    rfl

lemma draw_eq_ok {seed : Bytes} {pool winnerCount : ℕ} {nodes : List EligibleNode}
    (hids : (nodes.map EligibleNode.peerId).Nodup) (hsmall : nodes.length < 2 ^ 31)
    (h : ¬ Idle pool winnerCount nodes) :
    ∃ payments, drawLottery seed pool winnerCount nodes = .ok payments ∧
      Fair seed pool winnerCount nodes payments := by
  obtain ⟨hpool, hnodes, hcount, hzero⟩ : min winnerCount nodes.length ≤ pool ∧ nodes ≠ [] ∧
      winnerCount ≠ 0 ∧ pool ≠ 0 := by
    rwa [Idle, not_or, not_or, not_or, Nat.not_lt] at h
  have hnothing : ¬ (pool = 0 ∨ winnerCount = 0 ∨ nodes = []) :=
    not_or.mpr ⟨hzero, not_or.mpr ⟨hcount, hnodes⟩⟩
  have hperm := perm_sortBy EligibleNode.peerId nodes
  have hdraws : 0 < min winnerCount nodes.length :=
    lt_min (Nat.pos_of_ne_zero hcount) (List.length_pos_iff.mpr hnodes)
  have hamount : pool / min winnerCount nodes.length ≠ 0 := (Nat.div_pos hpool hdraws).ne'
  obtain ⟨rest, drawn, payments, hfold, hdrawn, hsplit, hpayments, hlength⟩ :=
    @foldlM_drawRound _ seed (pool / min winnerCount nodes.length) (min winnerCount nodes.length) 0
      (sortBy EligibleNode.peerId nodes) [] (hperm.length_eq ▸ min_le_right _ _)
      (hperm.length_eq ▸ hsmall)
  have hamounts : ∀ p ∈ payments, p.amount = pool / min winnerCount nodes.length := by
    intro p hp
    rw [hpayments] at hp
    obtain ⟨node, -, rfl⟩ := List.mem_map.mp hp
    rfl
  have hpaid : (payments.map LotteryPayment.amount).sum =
      min winnerCount nodes.length * (pool / min winnerCount nodes.length) := by
    rw [List.map_congr_left hamounts, List.map_const', List.sum_replicate, hpayments,
      List.length_map, hlength, smul_eq_mul]
  refine ⟨payments, ?_, ?_⟩
  · rw [drawLottery, if_neg hnothing]
    dsimp only
    rw [hperm.length_eq, if_neg hamount, List.range_eq_range']
    simp only [bind_eq_ok, pure_eq_ok]
    exact ⟨_, hfold, List.nil_append _⟩
  · have hmem : ∀ node ∈ drawn, node ∈ nodes := fun node hnode =>
      hperm.mem_iff.mp (hsplit.mem_iff.mp (List.mem_append_left rest hnode))
    -- the drawn nodes and the rest are all nodes, each once
    have hdistinct : (drawn.map EligibleNode.peerId).Nodup := by
      have hall : ((drawn ++ rest).map EligibleNode.peerId).Nodup :=
        ((hsplit.trans hperm).map EligibleNode.peerId).nodup_iff.mpr hids
      rw [List.map_append] at hall
      exact hall.of_append_left
    have hdivmod := Nat.div_add_mod pool (min winnerCount nodes.length)
    have hmod := Nat.mod_lt pool hdraws
    exact
      { count := by rw [hpayments, List.length_map, hlength]
        distinct := by rwa [hpayments, List.map_map]
        toNodes := by
          intro p hp
          rw [hpayments] at hp
          obtain ⟨node, hnode, rfl⟩ := List.mem_map.mp hp
          exact ⟨node, hmem node hnode, rfl, rfl⟩
        equal := hamounts
        within := by omega
        rest := by omega
        drawn := hdrawn }

/-- With distinct peer ids and fewer than `2 ^ 31` nodes the lottery never fails. It draws nothing
where it is idle and is fair elsewhere, whatever the order of the nodes is. -/
theorem draw_lottery_fair (seed : Bytes) (pool winnerCount : ℕ) (nodes : List EligibleNode)
    (hids : (nodes.map EligibleNode.peerId).Nodup) (hsmall : nodes.length < 2 ^ 31) :
    (∃ payments, drawLottery seed pool winnerCount nodes = .ok payments ∧
      (Idle pool winnerCount nodes → payments = []) ∧
      (¬ Idle pool winnerCount nodes → Fair seed pool winnerCount nodes payments)) ∧
    ∀ nodes', nodes'.Perm nodes →
      drawLottery seed pool winnerCount nodes' = drawLottery seed pool winnerCount nodes := by
  constructor
  · by_cases hidle : Idle pool winnerCount nodes
    · exact ⟨[], draw_idle hidle, fun _ => rfl, fun h => absurd hidle h⟩
    · obtain ⟨payments, hdraw, hfair⟩ := @draw_eq_ok _ seed pool winnerCount nodes hids hsmall hidle
      exact ⟨payments, hdraw, fun h => absurd h hidle, fun _ => hfair⟩
  · intro nodes' hperm
    have hsorted : sortBy EligibleNode.peerId nodes' = sortBy EligibleNode.peerId nodes :=
      (sortBy_congr hperm.symm hids).symm
    have hempty : nodes' = [] ↔ nodes = [] := by
      rw [← List.length_eq_zero_iff, hperm.length_eq, List.length_eq_zero_iff]
    simp only [drawLottery, hsorted, hempty]

end

section
attribute [local instance] Devnet.primitives

/-- Of twenty nodes ten are drawn, and the whole pool of a thousand is paid. -/
theorem draw_lottery_twenty : ∃ payments,
    drawLottery (textBytes "finalized-block") 1000 10
        ((List.range 20).map fun i => ⟨hexEncode (beBytes 8 i), "11", 1, 3⟩) = .ok payments ∧
      payments.length = 10 ∧ (payments.map LotteryPayment.peerId).Nodup ∧
      (payments.map LotteryPayment.amount).sum ≤ 1000 := by
  have hids : (((List.range 20).map fun i =>
      (⟨hexEncode (beBytes 8 i), "11", 1, 3⟩ : EligibleNode)).map EligibleNode.peerId).Nodup := by
    decide +kernel
  obtain ⟨⟨payments, hdraw, -, hfair⟩, -⟩ := draw_lottery_fair (textBytes "finalized-block") 1000 10
    _ hids (by simp)
  have hbusy := hfair (by simp [Idle])
  exact ⟨payments, hdraw, by simpa using hbusy.count, hbusy.distinct, hbusy.within⟩

end

end Lottery

end IeumChain
