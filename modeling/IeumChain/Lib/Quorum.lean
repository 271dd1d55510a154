import Mathlib.Algebra.Order.BigOperators.Group.Finset
import Mathlib.Tactic

/-!
# Weighted quorums and two-phase voting

Voters carry weights; a quorum is a set of voters with more than two thirds of the total weight.
The first part is the counting: two quorums share more than a third of the weight, so with fewer
than a third of it faulty they share a correct voter.

The second part is the protocol pattern that rests on it. In `LockedVoting` a correct voter
precommits a value only after a quorum prevoted it in the same round, and after a precommit it
prevotes and precommits nothing else in that or a later round. `LockedVoting.decided_unique` is then
agreement: two values that quorums precommitted, in whatever rounds, are equal. Since the lock
never opens, no induction over the rounds between the two decisions is needed.
-/

namespace Lib

variable {ι : Type} [DecidableEq ι]

/-- The weight of a set of voters. -/
def weight (w : ι → ℕ) (s : Finset ι) : ℕ := ∑ i ∈ s, w i

/-- A set of voters from `voters` with more than two thirds of their weight. -/
structure IsQuorum (w : ι → ℕ) (voters q : Finset ι) : Prop where
  subset : q ⊆ voters
  twoThirds : 2 * weight w voters < 3 * weight w q

omit [DecidableEq ι] in
lemma weight_mono (w : ι → ℕ) {s t : Finset ι} (h : s ⊆ t) : weight w s ≤ weight w t :=
  Finset.sum_le_sum_of_subset h

/-- Two quorums share more than a third of the weight. -/
theorem IsQuorum.inter {w : ι → ℕ} {voters p q : Finset ι} (hp : IsQuorum w voters p)
    (hq : IsQuorum w voters q) : weight w voters < 3 * weight w (p ∩ q) := by
  have hunion : weight w (p ∪ q) ≤ weight w voters :=
    weight_mono w (Finset.union_subset hp.subset hq.subset)
  have hsum : weight w (p ∪ q) + weight w (p ∩ q) = weight w p + weight w q :=
    Finset.sum_union_inter
  have hp' := hp.twoThirds
  have hq' := hq.twoThirds
  omega

/-- A set with at least a third of the weight has a member outside any set with less. -/
lemma exists_mem_notMem {w : ι → ℕ} {voters faulty s : Finset ι}
    (hfaulty : 3 * weight w faulty < weight w voters)
    (hs : weight w voters ≤ 3 * weight w s) : ∃ i ∈ s, i ∉ faulty := by
  by_contra hall
  push Not at hall
  have hle : weight w s ≤ weight w faulty := weight_mono w hall
  omega

/-- A quorum has a correct member. -/
lemma IsQuorum.exists_correct {w : ι → ℕ} {voters faulty q : Finset ι}
    (hfaulty : 3 * weight w faulty < weight w voters) (hq : IsQuorum w voters q) :
    ∃ i ∈ q, i ∉ faulty := by
  have := hq.twoThirds
  exact exists_mem_notMem hfaulty (by omega)

/-- Two quorums have a correct member in common. -/
lemma IsQuorum.exists_correct_inter {w : ι → ℕ} {voters faulty p q : Finset ι}
    (hfaulty : 3 * weight w faulty < weight w voters) (hp : IsQuorum w voters p)
    (hq : IsQuorum w voters q) : ∃ i ∈ p, i ∈ q ∧ i ∉ faulty := by
  obtain ⟨i, hi, hcorrect⟩ := exists_mem_notMem hfaulty (hp.inter hq).le
  obtain ⟨hip, hiq⟩ := Finset.mem_inter.mp hi
  exact ⟨i, hip, hiq, hcorrect⟩

/-! ## Two-phase voting with permanent locks -/

/-- What the correct voters' votes satisfy when a precommit locks its value for good. -/
structure LockedVoting {R V : Type} [LinearOrder R] (w : ι → ℕ) (voters faulty : Finset ι)
    (prevoted precommitted : ι → R → V → Prop) : Prop where
  /-- A precommit has seen a quorum of prevotes for its value in its round. -/
  polka : ∀ i ∈ voters, i ∉ faulty → ∀ r v, precommitted i r v →
    ∃ q, IsQuorum w voters q ∧ ∀ j ∈ q, j ∉ faulty → prevoted j r v
  /-- After a precommit only its value is prevoted. -/
  lock : ∀ i ∈ voters, i ∉ faulty → ∀ r v r' v', precommitted i r v → prevoted i r' v' →
    r ≤ r' → v' = v
  /-- One precommit in a round. -/
  once : ∀ i ∈ voters, i ∉ faulty → ∀ r v v', precommitted i r v → precommitted i r v' → v' = v

/-- Some quorum precommitted `v` in round `r`, as far as its correct members go. -/
def Decided {R V : Type} (w : ι → ℕ) (voters faulty : Finset ι)
    (precommitted : ι → R → V → Prop) (r : R) (v : V) : Prop :=
  ∃ q, IsQuorum w voters q ∧ ∀ j ∈ q, j ∉ faulty → precommitted j r v

namespace LockedVoting
variable {R V : Type} [LinearOrder R] {w : ι → ℕ} {voters faulty : Finset ι}
  {prevoted precommitted : ι → R → V → Prop}

/-- A later decision repeats an earlier one. -/
lemma decided_unique_of_le (h : LockedVoting w voters faulty prevoted precommitted)
    (hfaulty : 3 * weight w faulty < weight w voters) {r r' : R} {v v' : V} (hle : r ≤ r')
    (hv : Decided w voters faulty precommitted r v)
    (hv' : Decided w voters faulty precommitted r' v') : v' = v := by
  obtain ⟨q, hq, hqv⟩ := hv
  obtain ⟨q', hq', hqv'⟩ := hv'
  rcases hle.eq_or_lt with rfl | _
  · -- in one round, a correct voter of both quorums precommitted both values
    obtain ⟨i, hi, hi', hcorrect⟩ := hq.exists_correct_inter hfaulty hq'
    exact h.once i (hq.subset hi) hcorrect r v v' (hqv i hi hcorrect) (hqv' i hi' hcorrect)
  · -- otherwise the later decision rests on a quorum of prevotes, which meets the first quorum
    obtain ⟨i, hi, hcorrect⟩ := hq'.exists_correct hfaulty
    obtain ⟨p, hp, hpv⟩ := h.polka i (hq'.subset hi) hcorrect r' v' (hqv' i hi hcorrect)
    obtain ⟨j, hj, hjp, hjcorrect⟩ := hq.exists_correct_inter hfaulty hp
    exact h.lock j (hq.subset hj) hjcorrect r v r' v' (hqv j hj hjcorrect)
      (hpv j hjp hjcorrect) hle

/-- **Agreement.** Any two decided values are equal. -/
theorem decided_unique (h : LockedVoting w voters faulty prevoted precommitted)
    (hfaulty : 3 * weight w faulty < weight w voters) {r r' : R} {v v' : V}
    (hv : Decided w voters faulty precommitted r v)
    (hv' : Decided w voters faulty precommitted r' v') : v = v' := by
  rcases le_total r r' with hle | hle
  · exact (h.decided_unique_of_le hfaulty hle hv hv').symm
  · exact h.decided_unique_of_le hfaulty hle hv' hv

end LockedVoting

end Lib
