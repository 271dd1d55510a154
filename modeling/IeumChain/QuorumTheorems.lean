import IeumChain.Devnet

/-!
# The two quorum rules

The state machine sums powers in 64 bits and multiplies with saturation, a certificate computes in
128 bits. Below `2 ^ 63` both rules are "three times the signed power exceeds twice the total"
(`hasQuorum_iff`, `verifyVotes_iff`). From `2 ^ 63` on twice the total is at the largest 64-bit
value, which nothing exceeds: the machine never sees a quorum, while certificates are still
accepted. So the rules agree exactly for totals below `2 ^ 63` (`quorum_rules_agree`).
-/

namespace IeumChain

open Lib

namespace BftConsensus

/-! ## Lists the machine accepts -/

/-- Validators with new ids and some power are all registered. -/
lemma foldlM_addValidator {rest : List Validator} :
    ∀ {validators : List Validator} {map : HashMap String UInt64}, Registered validators map →
      ((validators ++ rest).map Validator.id).Nodup → (∀ v ∈ rest, v.votingPower ≠ 0) →
      ∃ map', rest.foldlM addValidator map = .ok map' := by
  induction rest with
  | nil => exact fun _ _ _ => ⟨_, rfl⟩
  | cons v rest ih =>
    intro validators map hr hids hpowers
    have hnew : v.id ∉ map := by
      rw [hr.mem, idsOf, List.mem_toFinset]
      rw [List.map_append, List.map_cons, List.nodup_append] at hids
      exact fun hmem => hids.2.2 v.id hmem v.id List.mem_cons_self rfl
    have hadd : addValidator map v = .ok (map.insert v.id v.votingPower) := by
      simp only [addValidator, bind_eq_ok, ensure_eq_ok, pure_eq_ok, and_true, exists_const]
      exact ⟨hpowers v List.mem_cons_self, hnew⟩
    rw [← List.singleton_append, ← List.append_assoc] at hids
    obtain ⟨map', hrest⟩ := ih (hr.addValidator hadd) hids
      fun w hw => hpowers w (List.mem_cons_of_mem _ hw)
    exact ⟨map', foldlM_cons_eq_ok.mpr ⟨_, hadd, hrest⟩⟩

/-- A list with unique ids and powers from 1 on is accepted exactly when its sum fits into 64
bits. -/
lemma new_isOk {validators : List Validator} (hne : validators ≠ [])
    (hids : (validators.map Validator.id).Nodup) (hpowers : ∀ v ∈ validators, v.votingPower ≠ 0) :
    (∃ c, new validators = .ok c) ↔ sumPower validators < 2 ^ 64 := by
  constructor
  · rintro ⟨c, hc⟩
    obtain ⟨_, _, hsum, _⟩ := new_eq_ok hc
    exact hsum
  · intro hsum
    obtain ⟨map, hmap⟩ := foldlM_addValidator registered_nil hids hpowers
    have hr := registered_nil.foldlM hmap
    rw [List.nil_append] at hr
    simp only [new, bind_eq_ok, ensure_eq_ok, pure_eq_ok]
    exact ⟨_, (), hne, map, hmap, (), by rw [hr.total]; exact hsum, rfl⟩

/-- From `2 ^ 63` on the machine sees no quorum. -/
lemma hasQuorum_of_le {c : BftConsensus} (h : 2 ^ 63 ≤ c.totalPower.toNat)
    (key : VoteType × String) : c.hasQuorum key = false := by
  rw [hasQuorum, decide_eq_false_iff_not, saturatingMul, saturatingMul]
  omega

end BftConsensus

/-! ## Agreement of the rules -/

section
variable [Primitives]

/-- The certificate holds precommits for its block that are signed, and all of them are by
registered validators. -/
structure FinalityCertificate.SignedBy (c : FinalityCertificate) (validators : List Validator)
    (voters : Finset String) : Prop where
  hash : c.block.hash = c.block.calculateHash
  countable : Countable c.expects validators c.precommits
  voters : votersOf c.precommits = voters

/-- What the two rules make of a set of voters: the machine's and the certificate's are the
comparison of integers. -/
structure RulesAgree (validators : List Validator) (c : BftConsensus) (key : VoteType × String) :
    Prop where
  machine : c.hasQuorum key = true ↔
    2 * sumPower validators < 3 * weight (powerIn validators) (c.voters key)
  certificate : ∀ cert : FinalityCertificate, cert.SignedBy validators (c.voters key) →
    (cert.verify validators = .ok () ↔
      2 * sumPower validators < 3 * weight (powerIn validators) (c.voters key))

/-- **When the quorum rules agree.** For validators with unique ids and powers from 1 on: the
total fits into 64 bits, and for every set of registered voters the machine's quorum rule and the
certificate's are the comparison of three times the signed with twice the total power, exactly
when the total is below `2 ^ 63`. -/
theorem quorum_rules_agree (validators : List Validator) (hne : validators ≠ [])
    (hids : (validators.map Validator.id).Nodup)
    (hpowers : ∀ v ∈ validators, v.votingPower ≠ 0) :
    (∃ c₀, BftConsensus.new validators = .ok c₀ ∧
      ∀ c : BftConsensus, c.validators = c₀.validators → c.totalPower = c₀.totalPower →
        ∀ key, c.voters key ⊆ idsOf validators → RulesAgree validators c key) ↔
      sumPower validators < 2 ^ 63 := by
  constructor
  · rintro ⟨c₀, hnew, hagree⟩
    by_contra hge
    have hruns := BftConsensus.runsFor_new hnew
    -- all validators together are a quorum that the machine does not see
    set key : VoteType × String := (.precommit, "")
    set c : BftConsensus := { c₀ with votes := (∅ : HashMap _ _).insert key (idsOf validators) }
    have hvoters : c.voters key = idsOf validators := by
      simp [BftConsensus.voters, c]
    have hmachine := (hagree c rfl rfl key hvoters.subset).machine
    have hnone : c.hasQuorum key = false := by
      refine BftConsensus.hasQuorum_of_le ?_ key
      show 2 ^ 63 ≤ c₀.totalPower.toNat
      rw [hruns.total]
      exact not_lt.mp hge
    rw [hvoters, weight_idsOf hids (List.Sublist.refl validators), hnone] at hmachine
    have hquorum := hmachine.mpr (by omega)
    cases hquorum
  · intro hT
    obtain ⟨c₀, hnew⟩ := (BftConsensus.new_isOk hne hids hpowers).mpr (by omega)
    have hruns := BftConsensus.runsFor_new hnew
    refine ⟨c₀, hnew, fun c hvalidators htotal key hvoters => ⟨?_, fun cert hcert => ?_⟩⟩
    · refine BftConsensus.hasQuorum_iff ⟨?_, ?_⟩ hT hvoters
      · rw [hvalidators]
        exact hruns.registered
      · rw [htotal]
        exact hruns.total
    · rw [← hcert.voters, ← verifyVotes_iff hids (by omega) hcert.countable]
      simp only [FinalityCertificate.verify, bind_eq_ok, ensure_eq_ok]
      constructor
      · rintro ⟨_, _, hvotes⟩
        exact hvotes
      · intro hvotes
        exact ⟨(), hcert.hash, hvotes⟩

end

section
attribute [local instance] Devnet.primitives

/-- With a power of 100 the rules agree. -/
theorem quorum_rules_agree_devnet : sumPower [Devnet.self] < 2 ^ 63 ∧
    ∃ c₀, BftConsensus.new [Devnet.self] = .ok c₀ ∧
      ∀ c : BftConsensus, c.validators = c₀.validators → c.totalPower = c₀.totalPower →
        ∀ key, c.voters key ⊆ idsOf [Devnet.self] → RulesAgree [Devnet.self] c key := by
  have hT : sumPower [Devnet.self] < 2 ^ 63 := by decide
  refine ⟨hT, (quorum_rules_agree [Devnet.self] (by simp) (List.nodup_singleton _) ?_).mpr hT⟩
  intro v hv
  rw [List.mem_singleton.mp hv]
  decide

end

/-- A validator with the power `2 ^ 63`. -/
def heavy (id : String) : Validator := ⟨id, 0x8000000000000000⟩

lemma sumPower_heavy (id : String) : sumPower [heavy id] = 2 ^ 63 := by
  simp [sumPower, heavy]

/-- The vote of a validator with the power `2 ^ 63` is no quorum for the machine, though it is all
the power there is. With two of them the sum overflows. -/
theorem quorum_rules_differ :
    (∃ c₀, BftConsensus.new [heavy "a"] = .ok c₀ ∧
      BftConsensus.hasQuorum
        { c₀ with votes := (∅ : HashMap _ _).insert (.precommit, "block") {"a"} }
        (.precommit, "block") = false ∧
      2 * sumPower [heavy "a"] < 3 * weight (powerIn [heavy "a"]) {"a"}) ∧
    2 ^ 64 ≤ sumPower [heavy "a", heavy "b"] ∧
    ∀ c, BftConsensus.new [heavy "a", heavy "b"] ≠ .ok c := by
  have hids : ([heavy "a"].map Validator.id).Nodup := List.nodup_singleton _
  have hpowers : ∀ v ∈ [heavy "a"], v.votingPower ≠ 0 := by
    intro v hv
    rw [List.mem_singleton.mp hv]
    decide
  obtain ⟨c₀, hnew⟩ := (BftConsensus.new_isOk (by simp) hids hpowers).mpr
    (by rw [sumPower_heavy]; decide)
  have hruns := BftConsensus.runsFor_new hnew
  have hsum : sumPower [heavy "a", heavy "b"] = 2 ^ 64 := by simp [sumPower, heavy]
  refine ⟨⟨c₀, hnew, BftConsensus.hasQuorum_of_le ?_ _, ?_⟩, hsum.ge, fun c hc => ?_⟩
  · show 2 ^ 63 ≤ c₀.totalPower.toNat
    rw [hruns.total, sumPower_heavy]
  · have hweight := weight_idsOf hids (List.Sublist.refl _)
    have hset : idsOf [heavy "a"] = {"a"} := rfl
    rw [hset] at hweight
    rw [hweight, sumPower_heavy]
    decide
  · obtain ⟨_, _, hlt, _⟩ := BftConsensus.new_eq_ok hc
    rw [hsum] at hlt
    exact absurd hlt (lt_irrefl _)

end IeumChain
