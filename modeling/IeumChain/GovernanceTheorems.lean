import IeumChain.Governance
import IeumChain.Lib.Tally

/-!
# The policy of the supermajority

The vote map holds the last accepted vote of every validator (`lookup_voted`), the loop of
`finalize` adds up its power policy by policy (`foldlM_addPower`), and two policies cannot both have
more than two thirds. So the result is the policy of the supermajority, in whichever order different
validators voted and the map is iterated over (`finalize_supermajority`).
-/

namespace IeumChain

open Lib

namespace Governance

/-! ## The loop -/

/-- What the candidates say about a policy. -/
def sumOf (candidates : List (ParticipationPolicy × ℕ)) (p : ParticipationPolicy) : ℕ :=
  (candidates.map fun candidate => if candidate.1 = p then candidate.2 else 0).sum

/-- The power of the votes for a policy. -/
def powerFor (p : ParticipationPolicy) (vote : ParticipationPolicy × UInt64) : ℕ :=
  if vote.1 = p then vote.2.toNat else 0

/-- A vote adds its power to its policy, which is a candidate then. -/
lemma addPower_eq_ok {vote : ParticipationPolicy × UInt64} :
    ∀ {candidates : List (ParticipationPolicy × ℕ)},
      sumOf candidates vote.1 + vote.2.toNat < 2 ^ 64 →
      ∃ candidates', addPower candidates vote = .ok candidates' ∧
        (∀ p, sumOf candidates' p = sumOf candidates p + powerFor p vote) ∧
        candidates'.map Prod.fst = if vote.1 ∈ candidates.map Prod.fst then candidates.map Prod.fst
          else candidates.map Prod.fst ++ [vote.1] := by
  intro candidates
  induction candidates with
  | nil =>
    intro _
    exact ⟨_, rfl, fun p => by simp [sumOf, powerFor], rfl⟩
  | cons candidate rest ih =>
    obtain ⟨policy, sum⟩ := candidate
    intro hsmall
    rw [sumOf, List.map_cons, List.sum_cons] at hsmall
    by_cases hpolicy : policy = vote.1
    · rw [if_pos hpolicy] at hsmall
      refine ⟨(policy, sum + vote.2.toNat) :: rest, ?_, fun p => ?_, ?_⟩
      · rw [addPower, if_pos hpolicy]
        simp only [bind_eq_ok, ensure_eq_ok, pure_eq_ok]
        exact ⟨(), by omega, trivial⟩
      · rw [sumOf, sumOf, List.map_cons, List.sum_cons, List.map_cons, List.sum_cons, powerFor,
          ← hpolicy]
        split
        · omega
        · omega
      · simp [hpolicy]
    · rw [if_neg hpolicy, Nat.zero_add] at hsmall
      obtain ⟨rest', hrest, hsums, hkeys⟩ := ih hsmall
      refine ⟨(policy, sum) :: rest', ?_, fun p => ?_, ?_⟩
      · rw [addPower, if_neg hpolicy]
        simp only [bind_eq_ok, pure_eq_ok]
        exact ⟨rest', hrest, rfl⟩
      · have hsum := hsums p
        rw [sumOf, sumOf] at hsum
        rw [sumOf, sumOf, List.map_cons, List.sum_cons, List.map_cons, List.sum_cons, hsum]
        omega
      · rw [List.map_cons, hkeys, List.map_cons]
        simp only [List.mem_cons, Ne.symm hpolicy, false_or]
        split <;> rfl

/-- The loop adds up the power for every policy, and lists no policy twice. -/
lemma foldlM_addPower :
    ∀ {values : List (ParticipationPolicy × UInt64)} {candidates : List (ParticipationPolicy × ℕ)},
      (candidates.map Prod.fst).Nodup →
      (∀ p, sumOf candidates p + (values.map (powerFor p)).sum < 2 ^ 64) →
      ∃ candidates', values.foldlM addPower candidates = .ok candidates' ∧
        (candidates'.map Prod.fst).Nodup ∧
        ∀ p, sumOf candidates' p = sumOf candidates p + (values.map (powerFor p)).sum := by
  intro values
  induction values with
  | nil =>
    intro candidates hnodup _
    exact ⟨candidates, rfl, hnodup, fun p => rfl⟩
  | cons vote values ih =>
    intro candidates hnodup hsmall
    simp only [List.map_cons, List.sum_cons] at hsmall
    have hvote : powerFor vote.1 vote = vote.2.toNat := if_pos rfl
    have hfirst := hsmall vote.1
    rw [hvote] at hfirst
    have hroom : sumOf candidates vote.1 + vote.2.toNat < 2 ^ 64 := by omega
    obtain ⟨next, hnext, hsums, hkeys⟩ := addPower_eq_ok hroom
    have hnodup' : (next.map Prod.fst).Nodup := by
      rw [hkeys]
      split
      · exact hnodup
      · rename_i hnot
        rw [List.nodup_append]
        refine ⟨hnodup, List.nodup_singleton _, ?_⟩
        rintro a ha b hb rfl
        exact hnot (List.mem_singleton.mp hb ▸ ha)
    obtain ⟨candidates', hrun, hdone, htotal⟩ := ih hnodup' fun p => by
      have := hsmall p
      rw [hsums]
      omega
    refine ⟨candidates', foldlM_cons_eq_ok.mpr ⟨next, hnext, hrun⟩, hdone, fun p => ?_⟩
    rw [htotal, hsums, List.map_cons, List.sum_cons]
    omega

lemma sumOf_of_mem :
    ∀ {candidates : List (ParticipationPolicy × ℕ)} {p : ParticipationPolicy} {sum : ℕ},
      (candidates.map Prod.fst).Nodup → (p, sum) ∈ candidates → sumOf candidates p = sum := by
  intro candidates
  induction candidates with
  | nil => intro p sum _ hmem; exact absurd hmem List.not_mem_nil
  | cons candidate rest ih =>
    intro p sum hnodup hmem
    rw [List.map_cons, List.nodup_cons] at hnodup
    rw [sumOf, List.map_cons, List.sum_cons]
    rcases List.mem_cons.mp hmem with rfl | hrest
    · have hzero : sumOf rest p = 0 := by
        rw [sumOf, List.sum_eq_zero]
        intro n hn
        obtain ⟨other, hother, rfl⟩ := List.mem_map.mp hn
        exact if_neg fun heq => hnodup.1 (List.mem_map.mpr ⟨other, hother, heq⟩)
      rw [sumOf] at hzero
      rw [if_pos rfl, hzero, Nat.add_zero]
    · have hne : candidate.1 ≠ p := by
        rintro rfl
        exact hnodup.1 (List.mem_map.mpr ⟨_, hrest, rfl⟩)
      rw [if_neg hne, Nat.zero_add]
      exact ih hnodup.2 hrest

lemma exists_mem_of_sumOf {candidates : List (ParticipationPolicy × ℕ)} {p : ParticipationPolicy}
    (h : 0 < sumOf candidates p) : ∃ sum, (p, sum) ∈ candidates := by
  by_contra hnone
  push Not at hnone
  have hzero : sumOf candidates p = 0 := by
    rw [sumOf, List.sum_eq_zero]
    intro n hn
    obtain ⟨⟨q, sum⟩, hmem, rfl⟩ := List.mem_map.mp hn
    refine if_neg ?_
    rintro rfl
    exact hnone sum hmem
  omega

/-! ## The vote map -/

lemma vote_eq_ok {g g' : Governance} {call : VoteCall} :
    g.vote call.now call.validator call.proposal = .ok g' →
      ∃ power, g.votingPower.lookup call.validator = some power ∧
        g' = { g with votes := g.votes.insert call.validator (call.proposal, power) } := by
  intro h
  simp only [vote, bind_eq_ok, ensure_eq_ok, okOr_eq_ok, pure_eq_ok] at h
  obtain ⟨_, _, _, _, _, _, power, hpower, rfl⟩ := h
  exact ⟨power, hpower, rfl⟩

/-- The checks of `vote` read nothing that a vote changes. -/
lemma accepts_congr {g g' : Governance} (hepoch : g.epochStartedAt = g'.epochStartedAt)
    (hpower : g.votingPower = g'.votingPower) (call : VoteCall) :
    g.accepts call = g'.accepts call := by
  have hboth : ∀ {g g' : Governance}, g.epochStartedAt = g'.epochStartedAt →
      g.votingPower = g'.votingPower → g.accepts call = true → g'.accepts call = true := by
    intro g g' hepoch hpower h
    obtain ⟨_, h⟩ := isOk_iff.mp h
    simp only [vote, bind_eq_ok, ensure_eq_ok, okOr_eq_ok, pure_eq_ok] at h
    obtain ⟨_, hfits, _, hdue, _, hsplit, power, hmember, _⟩ := h
    let voted := { g' with votes := g'.votes.insert call.validator (call.proposal, power) }
    refine isOk_iff.mpr ⟨voted, ?_⟩
    simp only [vote, bind_eq_ok, ensure_eq_ok, okOr_eq_ok, pure_eq_ok]
    exact ⟨(), hepoch ▸ hfits, (), hepoch ▸ hdue, (), hsplit, power, hpower ▸ hmember, rfl⟩
  rw [Bool.eq_iff_iff]
  exact ⟨hboth hepoch hpower, hboth hepoch.symm hpower.symm⟩

lemma called_fixed (g : Governance) (call : VoteCall) :
    (g.called call).epochStartedAt = g.epochStartedAt ∧
      (g.called call).votingPower = g.votingPower := by
  rw [called]
  cases h : g.vote call.now call.validator call.proposal with
  | error _ => exact ⟨rfl, rfl⟩
  | ok g' =>
    obtain ⟨_, _, rfl⟩ := vote_eq_ok h
    exact ⟨rfl, rfl⟩

lemma voted_fixed (g : Governance) (calls : List VoteCall) :
    (g.voted calls).epochStartedAt = g.epochStartedAt ∧
      (g.voted calls).votingPower = g.votingPower := by
  induction calls generalizing g with
  | nil => exact ⟨rfl, rfl⟩
  | cons call calls ih =>
    have hstep := called_fixed g call
    have hvoted : g.voted (call :: calls) = (g.called call).voted calls := List.foldl_cons
    rw [hvoted, (ih (g.called call)).1, (ih (g.called call)).2]
    exact hstep

/-- A call is accepted whatever was voted before it. -/
lemma accepted_eq_filter (g : Governance) (calls : List VoteCall) :
    accepted g calls = calls.filter g.accepts := by
  have hall : ∀ g' : Governance, g'.epochStartedAt = g.epochStartedAt →
      g'.votingPower = g.votingPower → accepted g' calls = calls.filter g.accepts := by
    induction calls with
    | nil => exact fun _ _ _ => rfl
    | cons call calls ih =>
      intro g' hepoch hpower
      have hstep := called_fixed g' call
      have hrest := ih (g'.called call) (hstep.1.trans hepoch) (hstep.2.trans hpower)
      rw [accepted, hrest, accepts_congr hepoch hpower, List.filter_cons]
  exact hall g rfl rfl

lemma lastVote_concat (g : Governance) (calls : List VoteCall) (call : VoteCall) (id : String) :
    g.lastVote (calls ++ [call]) id =
      if g.accepts call ∧ call.validator = id then some call.proposal else g.lastVote calls id := by
  rw [lastVote, lastVote, accepted_eq_filter, accepted_eq_filter, List.filter_append,
    List.filter_append]
  by_cases haccept : g.accepts call = true
  · by_cases hid : call.validator = id
    · rw [if_pos ⟨haccept, hid⟩]
      simp [haccept, hid]
    · rw [if_neg fun h => hid h.2]
      simp [haccept, hid]
  · rw [if_neg fun h => haccept h.1]
    simp [haccept]

/-- The map holds the last accepted vote of every validator, with the validator's power. -/
lemma lookup_voted {g : Governance} (hnew : g.votes = ∅) (calls : List VoteCall) (id : String) :
    (g.voted calls).votes.lookup id = (g.lastVote calls id).bind fun p =>
      (g.votingPower.lookup id).map fun power => (p, power) := by
  induction calls using List.reverseRecOn with
  | nil => rw [voted, List.foldl_nil, hnew]; rfl
  | append_singleton calls call ih =>
    have hvoted : g.voted (calls ++ [call]) = (g.voted calls).called call := by
      rw [voted, voted, List.foldl_append, List.foldl_cons, List.foldl_nil]
    obtain ⟨hepoch, hpower⟩ := voted_fixed g calls
    have haccepts := accepts_congr hepoch hpower call
    rw [hvoted, lastVote_concat, ← haccepts, called, accepts]
    cases h : (g.voted calls).vote call.now call.validator call.proposal with
    | error e =>
      rw [if_neg (by simp [isOk]), getOk_error]
      exact ih
    | ok g' =>
      obtain ⟨power, hmember, rfl⟩ := vote_eq_ok h
      rw [hpower] at hmember
      rw [getOk_ok, HashMap.lookup_insert]
      by_cases hid : call.validator = id
      · rw [if_pos hid.symm, if_pos ⟨rfl, hid⟩, ← hid, hmember]
        rfl
      · rw [if_neg fun heq => hid heq.symm, if_neg fun heq => hid heq.2]
        exact ih

/-! ## The supermajority -/

section Epoch
variable {epochStartedAt : UInt64} {validators : List (String × UInt64)}

lemma lookup_power (hids : (validators.map Prod.fst).Nodup) {v : String × UInt64}
    (hv : v ∈ validators) : (new epochStartedAt validators).votingPower.lookup v.1 = some v.2 :=
  (HashMap.lookup_ofList hids).mpr hv

lemma total_power (hids : (validators.map Prod.fst).Nodup) :
    HashMap.total UInt64.toNat (new epochStartedAt validators).votingPower =
      (validators.map fun v => v.2.toNat).sum := by
  rw [HashMap.total_eq_sum_share UInt64.toNat hids, List.map_map]
  · congr 1
    apply List.map_congr_left
    intro v hv
    rw [Function.comp_apply, HashMap.share, lookup_power hids hv]
    rfl
  · intro id power h
    exact List.mem_map.mpr ⟨(id, power), (HashMap.lookup_ofList hids).mp h, rfl⟩

/-- The votes for a policy weigh what the validators weigh whose last vote they are. -/
lemma total_powerFor (hids : (validators.map Prod.fst).Nodup) (calls : List VoteCall)
    (p : ParticipationPolicy) :
    HashMap.total (powerFor p) ((new epochStartedAt validators).voted calls).votes =
      (new epochStartedAt validators).support validators calls p := by
  rw [HashMap.total_eq_sum_share (powerFor p) hids, List.map_map, support]
  · congr 1
    apply List.map_congr_left
    intro v hv
    rw [Function.comp_apply, HashMap.share, lookup_voted rfl, lookup_power hids hv]
    cases (new epochStartedAt validators).lastVote calls v.1 with
    | none => rfl
    | some q =>
      simp only [Option.bind_some, Option.map_some, Option.getD_some, powerFor,
        Option.some.injEq]
  · intro id vote h
    rw [lookup_voted rfl] at h
    obtain ⟨q, _, h⟩ := Option.bind_eq_some_iff.mp h
    obtain ⟨power, hpower, _⟩ := Option.map_eq_some_iff.mp h
    exact List.mem_map.mpr ⟨(id, power), (HashMap.lookup_ofList hids).mp hpower, rfl⟩

/-- Two policies have at most the whole power together. -/
lemma support_add_le (g : Governance) (calls : List VoteCall) {p q : ParticipationPolicy}
    (hne : p ≠ q) :
    g.support validators calls p + g.support validators calls q ≤
      (validators.map fun v => v.2.toNat).sum := by
  apply sum_ite_add_le
  intro v _ hp hq
  exact hne (Option.some.inj (hp.symm.trans hq))

lemma supermajority_unique (g : Governance) (calls : List VoteCall) {p q : ParticipationPolicy}
    (hp : 2 * (validators.map fun v => v.2.toNat).sum < 3 * g.support validators calls p)
    (hq : 2 * (validators.map fun v => v.2.toNat).sum < 3 * g.support validators calls q) :
    p = q := by
  by_contra hne
  have hboth : g.support validators calls p + g.support validators calls q ≤ _ :=
    support_add_le g calls hne
  omega

/-- The saturating products are exact where they are compared. -/
lemma saturating_lt_iff {total sum : ℕ} (h : total < 2 ^ 63) :
    saturatingMul total 2 < saturatingMul sum 3 ↔ 2 * total < 3 * sum := by
  unfold saturatingMul
  omega

lemma finalize_eq_ok (hids : (validators.map Prod.fst).Nodup)
    (hsmall : (validators.map fun v => v.2.toNat).sum < 2 ^ 63) {calls : List VoteCall}
    {values : List (ParticipationPolicy × UInt64)}
    (hvalues : ((new epochStartedAt validators).voted calls).votes.Values values) :
    ∃ result, ((new epochStartedAt validators).voted calls).finalize values = .ok result ∧
      ∀ p, result = some p ↔ 2 * (validators.map fun v => v.2.toNat).sum <
        3 * (new epochStartedAt validators).support validators calls p := by
  have hsums : ∀ p, (values.map (powerFor p)).sum =
      (new epochStartedAt validators).support validators calls p := by
    intro p
    rw [HashMap.sum_values hvalues, total_powerFor hids]
  have hle : ∀ p, (new epochStartedAt validators).support validators calls p ≤
      (validators.map fun v => v.2.toNat).sum := by
    intro p
    apply List.sum_le_sum
    intro v _
    split <;> omega
  -- no sum of votes is more than the total power, so the u64 addition is exact
  have hroom : ∀ p, sumOf [] p + (values.map (powerFor p)).sum < 2 ^ 64 := by
    intro p
    have hp := hle p
    rw [hsums, sumOf, List.map_nil, List.sum_nil]
    omega
  have hnone : (([] : List (ParticipationPolicy × ℕ)).map Prod.fst).Nodup := List.nodup_nil
  obtain ⟨candidates, hrun, hnodup, hcandidates⟩ := foldlM_addPower hnone hroom
  have hsupport : ∀ p, sumOf candidates p =
      (new epochStartedAt validators).support validators calls p := by
    intro p
    rw [hcandidates, hsums, sumOf, List.map_nil, List.sum_nil, Nat.zero_add]
  have htotal : HashMap.total UInt64.toNat
      ((new epochStartedAt validators).voted calls).votingPower =
        (validators.map fun v => v.2.toNat).sum := by
    rw [(voted_fixed _ calls).2, total_power hids]
  refine ⟨(candidates.find? fun candidate => decide
    (saturatingMul (validators.map fun v => v.2.toNat).sum 2 <
      saturatingMul candidate.2 3)).map Prod.fst, ?_, fun p => ?_⟩
  · simp only [finalize, bind_eq_ok, ensure_eq_ok, pure_eq_ok, htotal]
    exact ⟨(), by omega, candidates, hrun, rfl⟩
  rw [Option.map_eq_some_iff]
  constructor
  · -- the policy that was found passes the test with its own sum
    rintro ⟨⟨q, sum⟩, hfind, rfl⟩
    have hmem := List.mem_of_find?_eq_some hfind
    have htest := List.find?_some hfind
    rw [decide_eq_true_eq, saturating_lt_iff hsmall] at htest
    rw [← hsupport, sumOf_of_mem hnodup hmem]
    exact htest
  · intro hmajority
    -- a policy with a majority has a vote, so it is one of the candidates that are tested
    have hpositive : 0 < sumOf candidates p := by
      rw [hsupport]
      omega
    obtain ⟨sum, hmem⟩ := exists_mem_of_sumOf hpositive
    have hsome : (candidates.find? fun candidate => decide
        (saturatingMul (validators.map fun v => v.2.toNat).sum 2 <
          saturatingMul candidate.2 3)).isSome := by
      rw [List.find?_isSome]
      refine ⟨(p, sum), hmem, ?_⟩
      rw [decide_eq_true_eq, saturating_lt_iff hsmall, ← sumOf_of_mem hnodup hmem, hsupport]
      exact hmajority
    obtain ⟨⟨q, sum'⟩, hfind⟩ := Option.isSome_iff_exists.mp hsome
    have hmem' := List.mem_of_find?_eq_some hfind
    have htest := List.find?_some hfind
    rw [decide_eq_true_eq, saturating_lt_iff hsmall, ← sumOf_of_mem hnodup hmem', hsupport]
      at htest
    -- two policies with a majority are one
    exact ⟨(q, sum'), hfind, supermajority_unique _ calls htest hmajority⟩

/-- Who voted what last does not depend on how the calls of different validators interleave. -/
lemma lastVote_congr (g : Governance) {calls calls' : List VoteCall} {id : String}
    (h : calls.filter (fun call => call.validator = id) =
      calls'.filter fun call => call.validator = id) :
    g.lastVote calls id = g.lastVote calls' id := by
  have hfilter : ∀ calls : List VoteCall,
      (calls.filter g.accepts).filter (fun call => call.validator = id) =
        (calls.filter fun call => call.validator = id).filter g.accepts := by
    intro calls
    rw [List.filter_filter, List.filter_filter]
    exact List.filter_congr fun call _ => Bool.and_comm _ _
  rw [lastVote, lastVote, accepted_eq_filter, accepted_eq_filter, hfilter, hfilter, h]

/-- `finalize` returns the policy for which validators with more than two thirds of the power voted
last, there is at most one, and neither the order of the map nor the order in which different
validators voted matters. -/
theorem finalize_supermajority (hids : (validators.map Prod.fst).Nodup)
    (hsmall : (validators.map fun v => v.2.toNat).sum < 2 ^ 63) :
    (∀ calls values, ((new epochStartedAt validators).voted calls).votes.Values values →
      ∃ result, ((new epochStartedAt validators).voted calls).finalize values = .ok result ∧
        ∀ p, result = some p ↔ 2 * (validators.map fun v => v.2.toNat).sum <
          3 * (new epochStartedAt validators).support validators calls p) ∧
      (∀ calls p q,
        2 * (validators.map fun v => v.2.toNat).sum <
          3 * (new epochStartedAt validators).support validators calls p →
        2 * (validators.map fun v => v.2.toNat).sum <
          3 * (new epochStartedAt validators).support validators calls q → p = q) ∧
      ∀ calls calls' values values',
        (∀ id, calls.filter (fun call : VoteCall => call.validator = id) =
          calls'.filter fun call => call.validator = id) →
        ((new epochStartedAt validators).voted calls).votes.Values values →
        ((new epochStartedAt validators).voted calls').votes.Values values' →
        ((new epochStartedAt validators).voted calls).finalize values =
          ((new epochStartedAt validators).voted calls').finalize values' := by
  refine ⟨fun calls values hvalues => finalize_eq_ok hids hsmall hvalues,
    fun calls p q hp hq => supermajority_unique _ calls hp hq, ?_⟩
  intro calls calls' values values' hsame hvalues hvalues'
  obtain ⟨result, hresult, hiff⟩ := finalize_eq_ok hids hsmall hvalues
  obtain ⟨result', hresult', hiff'⟩ := finalize_eq_ok hids hsmall hvalues'
  have hsupport : (new epochStartedAt validators).support validators calls =
      (new epochStartedAt validators).support validators calls' := by
    funext p
    unfold support
    congr 1
    apply List.map_congr_left
    intro v _
    rw [lastVote_congr _ (hsame v.1)]
  have heq : result = result' := by
    apply Option.ext
    intro p
    rw [hiff, hiff', hsupport]
  rw [hresult, hresult', heq]

/-- Three validators. -/
def threeValidators : List (String × UInt64) := [("a", 40), ("b", 35), ("c", 25)]

/-- Two policies that differ in the reward. -/
def policyOf (rewardPerBlock : UInt64) : ParticipationPolicy :=
  { targetActiveNodes := 100, minimumUptimeBps := 9000, rewardPerBlock, rewardSplit := ⟨7000, 2000, 1000⟩ }

/-- The first validator votes with the third one, and then with the second one. -/
def ballots : List VoteCall :=
  [⟨2592000, "a", policyOf 5⟩, ⟨2592000, "c", policyOf 5⟩, ⟨2592000, "b", policyOf 8⟩,
    ⟨2592001, "a", policyOf 8⟩]

/-- The last votes, with the powers of their validators. -/
def counted : List (ParticipationPolicy × UInt64) :=
  [(policyOf 5, 25), (policyOf 8, 35), (policyOf 8, 40)]

/-- The first two have three quarters of the power, and their last votes are one policy. -/
theorem finalize_supermajority_ballots :
    ((new 0 threeValidators).voted ballots).votes.Values counted ∧
      ((new 0 threeValidators).voted ballots).finalize counted = .ok (some (policyOf 8)) := by
  have hvalues : ((new 0 threeValidators).voted ballots).votes.Values counted := by
    rw [HashMap.Values]
    decide +kernel
  refine ⟨hvalues, ?_⟩
  obtain ⟨result, hfinalize, hiff⟩ :=
    (finalize_supermajority (by decide) (by decide)).1 ballots counted hvalues
  rw [hfinalize, (hiff (policyOf 8)).mpr (by decide +kernel)]

end Epoch

end Governance

/-! ## The reward curve -/

namespace ParticipationPolicy

lemma le_ratioBps (p : ParticipationPolicy) (a : UInt32) : 8750 ≤ p.ratioBps a :=
  le_max_left _ _

lemma ratioBps_le (p : ParticipationPolicy) (a : UInt32) : p.ratioBps a ≤ 11250 :=
  max_le (by decide) (min_le_left _ _)

/-- More active nodes never raise the ratio. -/
lemma ratioBps_antitone (p : ParticipationPolicy) {a b : UInt32} (hab : a ≤ b) :
    p.ratioBps b ≤ p.ratioBps a := by
  have hactive : max a.toNat 1 ≤ max b.toNat 1 := max_le_max_right 1 (UInt32.le_iff_toNat_le.mp hab)
  have hpos : 0 < max a.toNat 1 := lt_max_of_lt_right Nat.one_pos
  exact max_le_max_left 8750 (min_le_min_left 11250 (Nat.div_le_div_left hactive hpos))

/-- The reward of the curve before it is cut down to 64 bits. -/
def fullReward (p : ParticipationPolicy) (a : UInt32) : ℕ :=
  p.rewardPerBlock.toNat * p.ratioBps a / 10000

lemma fullReward_antitone (p : ParticipationPolicy) {a b : UInt32} (hab : a ≤ b) :
    p.fullReward b ≤ p.fullReward a :=
  Nat.div_le_div_right (Nat.mul_le_mul_left _ (p.ratioBps_antitone hab))

lemma toNat_adjustedReward (p : ParticipationPolicy) (a : UInt32) :
    (p.adjustedReward a).toNat = p.fullReward a % 2 ^ 64 :=
  UInt64.toNat_ofNat'

/-- The bounds of the curve. -/
def IsBounded (p : ParticipationPolicy) (a : UInt32) : Prop :=
  p.rewardPerBlock.toNat * 8750 / 10000 ≤ (p.adjustedReward a).toNat ∧
    (p.adjustedReward a).toNat ≤ p.rewardPerBlock.toNat * 11250 / 10000

/-- A reward that was cut down is below the lower bound. -/
lemma isBounded_iff (p : ParticipationPolicy) (a : UInt32) :
    p.IsBounded a ↔ p.fullReward a < 2 ^ 64 := by
  have hlow : p.rewardPerBlock.toNat * 8750 / 10000 ≤ p.fullReward a :=
    Nat.div_le_div_right (Nat.mul_le_mul_left _ (p.le_ratioBps a))
  have hhigh : p.fullReward a ≤ p.rewardPerBlock.toNat * 11250 / 10000 :=
    Nat.div_le_div_right (Nat.mul_le_mul_left _ (p.ratioBps_le a))
  have hreward := p.rewardPerBlock.toNat_lt
  rw [IsBounded, toNat_adjustedReward]
  constructor
  · rintro ⟨hcut, -⟩
    by_contra hlarge
    -- at most an eighth of `2 ^ 64` is left, the lower bound is above three quarters of it
    have hleft : p.fullReward a % 2 ^ 64 = p.fullReward a - 2 ^ 64 := by omega
    omega
  · intro hfits
    rw [Nat.mod_eq_of_lt hfits]
    exact ⟨hlow, hhigh⟩

lemma fullReward_lt_iff (p : ParticipationPolicy) (a : UInt32) :
    p.fullReward a < 2 ^ 64 ↔ p.rewardPerBlock.toNat * p.ratioBps a < 2 ^ 64 * 10000 :=
  Nat.div_lt_iff_lt_mul (by decide)

/-- For two node counts the curve is bounded and falls exactly when the reward raised at the smaller
count fits in 64 bits. -/
theorem reward_curve_iff (p : ParticipationPolicy) (a b : UInt32) (hab : a ≤ b) :
    ((p.rewardPerBlock.toNat * 8750 / 10000 ≤ (p.adjustedReward a).toNat ∧
        (p.adjustedReward a).toNat ≤ p.rewardPerBlock.toNat * 11250 / 10000) ∧
      (p.adjustedReward b).toNat ≤ (p.adjustedReward a).toNat) ↔
    p.rewardPerBlock.toNat *
        max 8750 (min 11250 (max p.targetActiveNodes.toNat 1 * 10000 / max a.toNat 1)) <
      2 ^ 64 * 10000 := by
  have hfits : p.IsBounded a ↔ p.rewardPerBlock.toNat * p.ratioBps a < 2 ^ 64 * 10000 :=
    (p.isBounded_iff a).trans (p.fullReward_lt_iff a)
  constructor
  · rintro ⟨hbounded, -⟩
    exact hfits.mp hbounded
  · intro hlt
    refine ⟨hfits.mpr hlt, ?_⟩
    -- the rest of the curve lies below this point and fits as well
    have ha : p.fullReward a < 2 ^ 64 := (p.fullReward_lt_iff a).mpr hlt
    have hle := p.fullReward_antitone hab
    rw [toNat_adjustedReward, toNat_adjustedReward, Nat.mod_eq_of_lt ha,
      Nat.mod_eq_of_lt (hle.trans_lt ha)]
    exact hle

/-- The policy of the tests: 100 nodes wanted, 1000 a block. -/
def tested : ParticipationPolicy :=
  { targetActiveNodes := 100, minimumUptimeBps := 9000, rewardPerBlock := 1000,
    rewardSplit := { validatorBps := 5000, participantBps := 4000, treasuryBps := 1000 } }

/-- From one node to a thousand the tested curve falls from 1125 to 875. -/
theorem reward_curve_tested :
    (tested.rewardPerBlock.toNat * 8750 / 10000 ≤ (tested.adjustedReward 1).toNat ∧
        (tested.adjustedReward 1).toNat ≤ tested.rewardPerBlock.toNat * 11250 / 10000) ∧
      (tested.adjustedReward 1000).toNat ≤ (tested.adjustedReward 1).toNat :=
  (reward_curve_iff tested 1 1000 (by decide)).mpr (by decide)

/-- Two nodes wanted, with the largest reward. -/
def largest : ParticipationPolicy :=
  { tested with targetActiveNodes := 2, rewardPerBlock := 18446744073709551615 }

/-- One active node of two earns an eighth of the largest reward, less than two nodes. -/
theorem reward_curve_cut :
    (largest.adjustedReward 1).toNat = 2305843009213693950 ∧
      ¬ largest.rewardPerBlock.toNat * 8750 / 10000 ≤ (largest.adjustedReward 1).toNat ∧
      ¬ (largest.adjustedReward 2).toNat ≤ (largest.adjustedReward 1).toNat := by
  decide

/-- The curve of a policy is bounded and falls everywhere exactly when it never raises the reward
or the largest raise fits in 64 bits. -/
theorem reward_curve_everywhere_iff (p : ParticipationPolicy) :
    (∀ a b : UInt32, a ≤ b → p.IsBounded a ∧ p.adjustedReward b ≤ p.adjustedReward a) ↔
      p.targetActiveNodes.toNat ≤ 1 ∨ p.rewardPerBlock.toNat ≤ 16397105843297379214 := by
  constructor
  · intro hcurve
    by_contra! hlarge
    have hone := (p.isBounded_iff 1).mp (hcurve 1 1 (UInt32.le_refl 1)).1
    -- one node of two or more: the ratio is the largest one
    have hratio : p.ratioBps 1 = 11250 := by
      have hfull : 11250 ≤ max p.targetActiveNodes.toNat 1 * 10000 / max (1 : UInt32).toNat 1 := by
        rw [show max (1 : UInt32).toNat 1 = 1 from rfl, Nat.div_one]
        omega
      rw [ratioBps, min_eq_left hfull]
      rfl
    rw [fullReward, hratio] at hone
    omega
  · intro hsmall a b hab
    have hfits : ∀ n, p.fullReward n < 2 ^ 64 := by
      intro n
      have hreward := p.rewardPerBlock.toNat_lt
      obtain htarget | hreward' := hsmall
      · have hratio : p.ratioBps n ≤ 10000 := by
          rw [ratioBps, max_eq_right htarget, one_mul]
          exact max_le (by decide) ((min_le_right _ _).trans (Nat.div_le_self _ _))
        exact (p.fullReward_lt_iff n).mpr (by nlinarith)
      · have hratio := p.ratioBps_le n
        exact (p.fullReward_lt_iff n).mpr (by nlinarith)
    refine ⟨(p.isBounded_iff a).mpr (hfits a), UInt64.le_iff_toNat_le.mpr ?_⟩
    rw [toNat_adjustedReward, toNat_adjustedReward, Nat.mod_eq_of_lt (hfits a),
      Nat.mod_eq_of_lt (hfits b)]
    exact p.fullReward_antitone hab

end ParticipationPolicy

end IeumChain
