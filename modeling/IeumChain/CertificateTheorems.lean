import IeumChain.Consensus

/-!
# Certificates

What a certificate that passes `verify` proves: a quorum of registered validators each of whom
signed one of its votes (`verifyVotes_eq_ok`).
-/

namespace IeumChain

open Lib

/-! ## Voting power by id -/

/-- The voting power of an id, 0 when it is not registered. -/
def powerIn (validators : List Validator) (id : String) : ℕ :=
  ((powers validators).lookup id).getD 0

/-- The registered ids. -/
def idsOf (validators : List Validator) : Finset String := (validators.map Validator.id).toFinset

lemma lookup_ofList_append {l : List (String × ℕ)} {id : String} {p : String × ℕ} :
    (HashMap.ofList (l ++ [p])).lookup id
      = if id = p.1 then some p.2 else (HashMap.ofList l).lookup id := by
  rw [HashMap.ofList, List.foldl_append]
  exact HashMap.lookup_insert _ _ _ _

/-- An id has an entry exactly when it is registered. -/
lemma lookup_powers_isSome {validators : List Validator} {id : String} :
    ((powers validators).lookup id).isSome ↔ id ∈ idsOf validators := by
  unfold powers idsOf
  induction validators using List.reverseRecOn with
  | nil => simp [HashMap.ofList]
  | append_singleton l v ih =>
    rw [List.map_append, List.map_singleton, lookup_ofList_append]
    split
    · rename_i h
      simp [h]
    · rename_i h
      rw [ih]
      simp [h]

/-- With unique ids, the entry of a listed validator is its voting power. -/
lemma powerIn_of_mem {validators : List Validator} (hids : (validators.map Validator.id).Nodup)
    {v : Validator} (hv : v ∈ validators) : powerIn validators v.id = v.votingPower.toNat := by
  unfold powerIn powers
  induction validators using List.reverseRecOn with
  | nil => cases hv
  | append_singleton l w ih =>
    rw [List.map_append, List.map_singleton, lookup_ofList_append]
    rw [List.map_append, List.map_singleton] at hids
    rcases List.mem_append.mp hv with hl | hw
    · have hne : v.id ≠ w.id := by
        intro heq
        exact List.disjoint_of_nodup_append hids (List.mem_map_of_mem hl)
          (by rw [heq]; exact List.mem_singleton_self _)
      rw [if_neg hne]
      exact ih hids.of_append_left hl
    · obtain rfl := List.mem_singleton.mp hw
      rw [if_pos rfl]
      rfl

/-- With unique ids, the weight of the ids of some of the validators is their total power. -/
lemma weight_idsOf {validators l : List Validator} (hids : (validators.map Validator.id).Nodup)
    (hl : l.Sublist validators) : weight (powerIn validators) (idsOf l) = sumPower l := by
  have hnodup : (l.map Validator.id).Nodup := hids.sublist (hl.map Validator.id)
  rw [weight, idsOf, List.sum_toFinset _ hnodup, List.map_map, sumPower]
  congr 1
  apply List.map_congr_left
  intro v hv
  exact powerIn_of_mem hids (hl.subset hv)

/-! ## What a certificate proves -/

section
variable [Primitives]

/-- What the loop over the votes has established: every voter counted so far signed one of the
votes, is registered, and the power is theirs. -/
structure Counted (expected : ConsensusMessage → Bool) (validators : List Validator)
    (votes : List ConsensusMessage) (state : Finset String × ℕ) : Prop where
  signed : ∀ id ∈ state.1, ∃ vote ∈ votes, vote.validatorId = id ∧ expected vote = true ∧
    vote.verify = .ok ()
  registered : state.1 ⊆ idsOf validators
  power : state.2 = weight (powerIn validators) state.1

lemma Counted.countVote {errors : CertificateErrors} {expected : ConsensusMessage → Bool}
    {validators : List Validator} {votes : List ConsensusMessage} {vote : ConsensusMessage}
    {state state' : Finset String × ℕ} (hc : Counted expected validators votes state)
    (hvote : vote ∈ votes)
    (h : countVote errors expected (powers validators) state vote = .ok state') :
    Counted expected validators votes state' := by
  simp only [IeumChain.countVote, bind_eq_ok, ensure_eq_ok, okOr_eq_ok] at h
  obtain ⟨_, hexpected, _, hverify, power, hpower, h⟩ := h
  split at h
  · cases h
    exact hc
  · rename_i hnew
    simp only [bind_eq_ok, ensure_eq_ok, pure_eq_ok] at h
    obtain ⟨_, _, rfl⟩ := h
    refine ⟨?_, ?_, ?_⟩
    · intro id hid
      rcases Finset.mem_insert.mp hid with rfl | hid
      · exact ⟨vote, hvote, rfl, hexpected, hverify⟩
      · exact hc.signed id hid
    · refine Finset.insert_subset ?_ hc.registered
      rw [← lookup_powers_isSome, hpower]
      rfl
    · show state.2 + power = weight _ (insert vote.validatorId state.1)
      have hp : powerIn validators vote.validatorId = power := by rw [powerIn, hpower]; rfl
      rw [hc.power, weight, weight, Finset.sum_insert hnew, hp, Nat.add_comm]

lemma Counted.foldlM {errors : CertificateErrors} {expected : ConsensusMessage → Bool}
    {validators : List Validator} {votes : List ConsensusMessage} :
    ∀ {rest : List ConsensusMessage} {state state' : Finset String × ℕ}, rest ⊆ votes →
      Counted expected validators votes state →
      rest.foldlM (IeumChain.countVote errors expected (powers validators)) state = .ok state' →
      Counted expected validators votes state' := by
  intro rest
  induction rest with
  | nil =>
    intro state state' _ hc h
    cases h
    exact hc
  | cons vote rest ih =>
    intro state state' hsub hc h
    obtain ⟨mid, hmid, hrest⟩ := foldlM_cons_eq_ok.mp h
    have hvote : vote ∈ votes := hsub List.mem_cons_self
    exact ih (fun v hv => hsub (List.mem_cons_of_mem _ hv)) (hc.countVote hvote hmid) hrest

/-- The votes of a valid certificate come from a quorum of registered validators. -/
lemma verifyVotes_eq_ok {errors : CertificateErrors} {expected : ConsensusMessage → Bool}
    {validators : List Validator} {votes : List ConsensusMessage}
    (hids : (validators.map Validator.id).Nodup)
    (h : verifyVotes errors validators expected votes = .ok ()) :
    ∃ q, IsQuorum (powerIn validators) (idsOf validators) q ∧
      ∀ id ∈ q, ∃ vote ∈ votes, vote.validatorId = id ∧ expected vote = true ∧
        vote.verify = .ok () := by
  simp only [verifyVotes, bind_eq_ok, ensure_eq_ok] at h
  obtain ⟨_, _, ⟨q, signedPower⟩, hcount, hquorum⟩ := h
  have hstart : Counted expected validators votes (∅, 0) :=
    ⟨fun id hid => absurd hid (Finset.notMem_empty id), Finset.empty_subset _, rfl⟩
  have hc := hstart.foldlM (fun _ hv => hv) hcount
  refine ⟨q, ⟨hc.registered, ?_⟩, hc.signed⟩
  have hpower : signedPower = weight (powerIn validators) q := hc.power
  have htotal := weight_idsOf hids (List.Sublist.refl validators)
  rw [htotal, ← hpower]
  omega

/-- A valid finality certificate: its block carries its own hash, and a quorum of registered
validators signed a precommit for it. -/
lemma FinalityCertificate.verify_eq_ok {c : FinalityCertificate} {validators : List Validator}
    (hids : (validators.map Validator.id).Nodup) (h : c.verify validators = .ok ()) :
    c.block.hash = c.block.calculateHash ∧
      ∃ q, IsQuorum (powerIn validators) (idsOf validators) q ∧
        ∀ id ∈ q, ∃ vote ∈ c.precommits, vote.validatorId = id ∧ c.expects vote = true ∧
          vote.verify = .ok () := by
  simp only [verify, bind_eq_ok, ensure_eq_ok] at h
  obtain ⟨_, hhash, hvotes⟩ := h
  exact ⟨hhash, verifyVotes_eq_ok hids hvotes⟩

/-! ## What makes a certificate -/

/-- The validators that signed some of the votes. -/
def votersOf (votes : List ConsensusMessage) : Finset String :=
  (votes.map ConsensusMessage.validatorId).toFinset

omit [Primitives] in
lemma mem_votersOf {votes : List ConsensusMessage} {id : String} :
    id ∈ votersOf votes ↔ ∃ m ∈ votes, m.validatorId = id := by
  rw [votersOf, List.mem_toFinset, List.mem_map]

/-- The votes are ones a certificate may hold, signed by registered validators. -/
structure Countable (expected : ConsensusMessage → Bool) (validators : List Validator)
    (votes : List ConsensusMessage) : Prop where
  expected : ∀ vote ∈ votes, expected vote = true
  signed : ∀ vote ∈ votes, vote.verify = .ok ()
  registered : votersOf votes ⊆ idsOf validators

/-- The loop over votes that can be counted adds their validators, each with its power once. -/
lemma foldlM_countVote (errors : CertificateErrors) {expected : ConsensusMessage → Bool}
    {validators : List Validator} (hids : (validators.map Validator.id).Nodup)
    (hrange : sumPower validators < 2 ^ 128) {votes : List ConsensusMessage} :
    ∀ {voters : Finset String}, voters ⊆ idsOf validators →
      Countable expected validators votes →
      votes.foldlM (countVote errors expected (powers validators))
          (voters, weight (powerIn validators) voters)
        = .ok (voters ∪ votersOf votes, weight (powerIn validators) (voters ∪ votersOf votes)) := by
  induction votes with
  | nil =>
    intro voters _ _
    rw [votersOf, List.map_nil, List.toFinset_nil, Finset.union_empty]
    rfl
  | cons vote rest ih =>
    intro voters hvoters hvotes
    have hunion : voters ∪ votersOf (vote :: rest)
        = insert vote.validatorId voters ∪ votersOf rest := by
      rw [votersOf, List.map_cons, List.toFinset_cons, Finset.union_insert, Finset.insert_union]
      rfl
    have hid : vote.validatorId ∈ idsOf validators :=
      hvotes.registered (List.mem_toFinset.mpr (by simp))
    have hrest : Countable expected validators rest :=
      ⟨fun v hv => hvotes.expected v (List.mem_cons_of_mem _ hv),
        fun v hv => hvotes.signed v (List.mem_cons_of_mem _ hv),
        fun id hid => hvotes.registered (by
          rw [votersOf, List.map_cons, List.toFinset_cons]
          exact Finset.mem_insert_of_mem hid)⟩
    obtain ⟨power, hpower⟩ := Option.isSome_iff_exists.mp (lookup_powers_isSome.mpr hid)
    have hvoters' : insert vote.validatorId voters ⊆ idsOf validators :=
      Finset.insert_subset hid hvoters
    rw [hunion]
    refine foldlM_cons_eq_ok.mpr ⟨_, ?_, ih hvoters' hrest⟩
    simp only [countVote, bind_eq_ok, ensure_eq_ok, okOr_eq_ok]
    refine ⟨(), hvotes.expected vote List.mem_cons_self, (),
      hvotes.signed vote List.mem_cons_self, power, hpower, ?_⟩
    by_cases hmem : vote.validatorId ∈ voters
    · -- a second vote of the same validator adds no power
      rw [if_pos hmem, Finset.insert_eq_of_mem hmem]
      rfl
    · -- the sum stays below the power of all validators, and is exact
      have hsum : weight (powerIn validators) (insert vote.validatorId voters)
          = weight (powerIn validators) voters + power := by
        have hp : powerIn validators vote.validatorId = power := by rw [powerIn, hpower]; rfl
        rw [weight, weight, Finset.sum_insert hmem, hp, Nat.add_comm]
      have hle := weight_mono (powerIn validators) hvoters'
      rw [weight_idsOf hids (List.Sublist.refl validators)] at hle
      rw [if_neg hmem]
      simp only [bind_eq_ok, ensure_eq_ok, pure_eq_ok, ← hsum]
      exact ⟨(), by omega, trivial⟩

/-- Votes that can be counted make a certificate exactly when more than two thirds of the power
signed them. -/
lemma verifyVotes_iff {errors : CertificateErrors} {expected : ConsensusMessage → Bool}
    {validators : List Validator} (hids : (validators.map Validator.id).Nodup)
    (hrange : sumPower validators < 2 ^ 128) {votes : List ConsensusMessage}
    (hvotes : Countable expected validators votes) :
    verifyVotes errors validators expected votes = .ok () ↔
      2 * sumPower validators < 3 * weight (powerIn validators) (votersOf votes) := by
  have hcount := foldlM_countVote errors hids hrange (Finset.empty_subset _) hvotes
  rw [Finset.empty_union] at hcount
  have hle := weight_mono (powerIn validators) hvotes.registered
  rw [weight_idsOf hids (List.Sublist.refl validators)] at hle
  have hempty : weight (powerIn validators) ∅ = 0 := rfl
  rw [hempty] at hcount
  simp only [verifyVotes, bind_eq_ok, ensure_eq_ok]
  constructor
  · rintro ⟨_, _, ⟨voters, power⟩, hfold, hquorum⟩
    rw [hcount] at hfold
    obtain ⟨_, rfl⟩ := Prod.mk.inj (Except.ok.inj hfold)
    omega
  · intro hquorum
    exact ⟨(), by omega, _, hcount, by omega⟩

end

end IeumChain
