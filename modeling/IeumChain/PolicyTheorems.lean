import IeumChain.ValidatorPolicy

/-!
# The selected validators

`select` returns the first of the qualified candidates in the order of their stakes
(`select_eq_ok`), and who qualifies is told candidate by candidate (`Qualifies`): the ranking of a
country counts who stands before. Nothing of this depends on the order of the candidates or of the
hash map (`select_exact`).
-/

namespace IeumChain

open Lib

/-- The larger stake goes first, and of equal stakes the smaller id. -/
def Precedes (balances : HashMap String U128) (a b : ValidatorCandidate) : Prop :=
  (ValidatorPolicy.stakeOf balances b).toNat < (ValidatorPolicy.stakeOf balances a).toNat ∨
    (ValidatorPolicy.stakeOf balances a).toNat = (ValidatorPolicy.stakeOf balances b).toNat ∧
      a.validatorId < b.validatorId

instance (balances : HashMap String U128) (a b : ValidatorCandidate) :
    Decidable (Precedes balances a b) := inferInstanceAs (Decidable (_ ∨ _))

namespace ValidatorPolicy

/-- The rank of a candidate. -/
def candidateKey (balances : HashMap String U128) (c : ValidatorCandidate) : ℕᵒᵈ ×ₗ String :=
  rankKey (stakeOf balances c) c.validatorId

lemma candidateKey_lt {balances : HashMap String U128} {a b : ValidatorCandidate} :
    candidateKey balances a < candidateKey balances b ↔ Precedes balances a b := by
  rw [candidateKey, candidateKey, rankKey, rankKey, Prod.Lex.toLex_lt_toLex, Precedes,
    OrderDual.toDual_lt_toDual, OrderDual.toDual_inj]

/-- The conditions that every candidate has to meet. -/
def Eligible (p : ValidatorPolicy) (c : ValidatorCandidate) : Prop :=
  c.blocked = false ∧ c.ownershipProofVerified = true ∧ c.nodeEndpoint.isSome = true ∧
    (p.minUptimeBps ≤ c.uptimeBps ∨ c.observedEpochs = 0)

instance (p : ValidatorPolicy) (c : ValidatorCandidate) : Decidable (p.Eligible c) :=
  inferInstanceAs (Decidable (_ ∧ _))

lemma meets_iff {p : ValidatorPolicy} {c : ValidatorCandidate} :
    p.meets c = true ↔ p.Eligible c := by
  have hepochs : 0 < c.observedEpochs ↔ c.observedEpochs ≠ 0 := by
    rw [UInt64.lt_iff_toNat_lt, Ne, ← UInt64.toNat_inj]
    exact Nat.pos_iff_ne_zero
  have huptime : c.uptimeBps < p.minUptimeBps ↔ ¬ p.minUptimeBps ≤ c.uptimeBps :=
    UInt16.not_le.symm
  rw [meets, Eligible, Bool.not_eq_true', Bool.or_eq_false_iff, Bool.or_eq_false_iff,
    Bool.or_eq_false_iff, Bool.and_eq_false_iff, decide_eq_false_iff_not,
    decide_eq_false_iff_not, hepochs, huptime, not_not, not_not]
  cases c.nodeEndpoint with
  | none => simp
  | some endpoint =>
    simp only [Option.isNone_some, Option.isSome_some, Bool.not_eq_false']
    tauto

/-- Among the largest verified candidates of its country, as many as the limit says. -/
def CountryRanked (p : ValidatorPolicy) (balances : HashMap String U128)
    (candidates : List ValidatorCandidate) (c : ValidatorCandidate) : Prop :=
  c.identityCountryVerified = true ∧ c.countryCode.isSome = true ∧
    (candidates.filter fun d => p.Eligible d ∧ d.identityCountryVerified = true ∧
      d.countryCode = c.countryCode ∧ Precedes balances d c).length < p.countryRankLimit.toNat

instance (p : ValidatorPolicy) (balances : HashMap String U128)
    (candidates : List ValidatorCandidate) (c : ValidatorCandidate) :
    Decidable (p.CountryRanked balances candidates c) := inferInstanceAs (Decidable (_ ∧ _))

/-- A candidate qualifies by its stake, in its country or by approval. -/
def Qualifies (p : ValidatorPolicy) (balances : HashMap String U128) (circulatingSupply : U128)
    (candidates : List ValidatorCandidate) (c : ValidatorCandidate) : Prop :=
  p.Eligible c ∧
    (mulSaturating circulatingSupply (BitVec.ofNat 128 p.minStakeBps.toNat) ≤
        mulSaturating (stakeOf balances c) bpsDenominator ∨
      p.CountryRanked balances candidates c ∨ c.administratorApproved = true)

instance (p : ValidatorPolicy) (balances : HashMap String U128) (circulatingSupply : U128)
    (candidates : List ValidatorCandidate) (c : ValidatorCandidate) :
    Decidable (p.Qualifies balances circulatingSupply candidates c) :=
  inferInstanceAs (Decidable (_ ∧ _))

/-- What is returned for a candidate. -/
def selectedOf (balances : HashMap String U128) (circulatingSupply : U128)
    (c : ValidatorCandidate) : SelectedValidator :=
  { validator :=
      { id := c.validatorId
        votingPower := votingPower (stakeOf balances c) circulatingSupply }
    stake := stakeOf balances c }

/-! ## The loop over the candidates -/

section Select
variable {p : ValidatorPolicy} {balances : HashMap String U128} {circulatingSupply : U128}

lemma checkCandidate_eq_ok {s t : Eligibility} {c : ValidatorCandidate} :
    p.checkCandidate balances circulatingSupply s c = .ok t ↔
      validateCandidate c = .ok () ∧ c.validatorId ∉ s.validatorIds ∧
        normalizeAccount c.stakeAccount ∉ s.stakeAccounts ∧
        t = ⟨insert c.validatorId s.validatorIds,
          insert (normalizeAccount c.stakeAccount) s.stakeAccounts,
          if p.meets c then s.eligible ++ [p.eligibleCandidate balances circulatingSupply c]
          else s.eligible⟩ := by
  simp only [checkCandidate, bind_eq_ok, ensure_eq_ok, pure_eq_ok]
  constructor
  · rintro ⟨_, hvalid, _, hid, _, haccount, rfl⟩
    exact ⟨hvalid, hid, haccount, rfl⟩
  · rintro ⟨hvalid, hid, haccount, rfl⟩
    exact ⟨(), hvalid, (), hid, (), haccount, rfl⟩

/-- Every candidate is valid, no key and no account occurs twice, and the eligible ones are kept. -/
lemma exists_foldlM_checkCandidate {eligible : List EligibleCandidate} :
    ∀ {candidates : List ValidatorCandidate} {s : Eligibility},
      (∃ t, candidates.foldlM (p.checkCandidate balances circulatingSupply) s = .ok t ∧
        t.eligible = eligible) ↔
      (∀ c ∈ candidates, validateCandidate c = .ok ()) ∧
      ((candidates.map ValidatorCandidate.validatorId).Nodup ∧
        ∀ c ∈ candidates, c.validatorId ∉ s.validatorIds) ∧
      ((candidates.map fun c => normalizeAccount c.stakeAccount).Nodup ∧
        ∀ c ∈ candidates, normalizeAccount c.stakeAccount ∉ s.stakeAccounts) ∧
      eligible = s.eligible ++ (candidates.filter p.meets).map
        (p.eligibleCandidate balances circulatingSupply) := by
  intro candidates
  induction candidates with
  | nil =>
    intro s
    simp only [List.foldlM_nil, pure_eq_ok, exists_eq_left', List.not_mem_nil, false_implies,
      implies_true, List.map_nil, List.nodup_nil, List.filter_nil, List.append_nil, true_and,
      and_self]
    exact eq_comm
  | cons c candidates ih =>
    intro s
    -- the first candidate is checked, the rest in the state that leaves
    have hsplit : (∃ t, (c :: candidates).foldlM (p.checkCandidate balances circulatingSupply) s =
        .ok t ∧ t.eligible = eligible) ↔ ∃ s', p.checkCandidate balances circulatingSupply s c =
          .ok s' ∧ ∃ t, candidates.foldlM (p.checkCandidate balances circulatingSupply) s' = .ok t ∧
            t.eligible = eligible := by
      constructor
      · rintro ⟨t, hrun, heligible⟩
        obtain ⟨s', hstep, hrest⟩ := foldlM_cons_eq_ok.mp hrun
        exact ⟨s', hstep, t, hrest, heligible⟩
      · rintro ⟨s', hstep, t, hrest, heligible⟩
        exact ⟨t, foldlM_cons_eq_ok.mpr ⟨s', hstep, hrest⟩, heligible⟩
    -- the candidate joins the eligible ones exactly if it meets the policy
    have hkept : ∀ s' : Eligibility, s'.eligible = (if p.meets c then
        s.eligible ++ [p.eligibleCandidate balances circulatingSupply c] else s.eligible) →
        s'.eligible ++ (candidates.filter p.meets).map
          (p.eligibleCandidate balances circulatingSupply) =
        s.eligible ++ ((c :: candidates).filter p.meets).map
          (p.eligibleCandidate balances circulatingSupply) := by
      intro s' hs'
      rw [hs', List.filter_cons]
      split <;> simp
    rw [hsplit]
    simp only [List.forall_mem_cons, List.map_cons, List.nodup_cons, List.mem_map]
    constructor
    · rintro ⟨s', hstep, hrest⟩
      obtain ⟨hvalid, hid, haccount, rfl⟩ := checkCandidate_eq_ok.mp hstep
      obtain ⟨hvalid', ⟨hids, hnew⟩, ⟨haccounts, hnew'⟩, rfl⟩ := ih.mp hrest
      -- an id or account was seen if it is the first candidate's or was seen before
      refine ⟨⟨hvalid, hvalid'⟩, ⟨⟨?_, hids⟩, hid, ?_⟩, ⟨⟨?_, haccounts⟩, haccount, ?_⟩,
        hkept _ rfl⟩
      · rintro ⟨d, hd, heq⟩
        exact hnew d hd (by rw [heq]; exact Finset.mem_insert_self _ _)
      · exact fun d hd hmem => hnew d hd (Finset.mem_insert_of_mem hmem)
      · rintro ⟨d, hd, heq⟩
        exact hnew' d hd (by rw [heq]; exact Finset.mem_insert_self _ _)
      · exact fun d hd hmem => hnew' d hd (Finset.mem_insert_of_mem hmem)
    · rintro ⟨⟨hvalid, hvalid'⟩, ⟨⟨hnot, hids⟩, hid, hnew⟩, ⟨⟨hnot', haccounts⟩, haccount, hnew'⟩,
        rfl⟩
      refine ⟨_, checkCandidate_eq_ok.mpr ⟨hvalid, hid, haccount, rfl⟩, ih.mpr ⟨hvalid',
        ⟨hids, fun d hd hmem => ?_⟩, ⟨haccounts, fun d hd hmem => ?_⟩, (hkept _ rfl).symm⟩⟩
      · rcases Finset.mem_insert.mp hmem with heq | hold
        · exact hnot ⟨d, hd, heq⟩
        · exact hnew d hd hold
      · rcases Finset.mem_insert.mp hmem with heq | hold
        · exact hnot' ⟨d, hd, heq⟩
        · exact hnew' d hd hold

/-! ## The ranking of the countries -/

/-- The verified candidates of a country among some. -/
def verifiedIn (balances : HashMap String U128) (country : String)
    (candidates : List ValidatorCandidate) : List (ValidatorCandidate × U128) :=
  (candidates.filter fun c => c.identityCountryVerified = true ∧ c.countryCode = some country).map
    fun c => (c, stakeOf balances c)

/-- The map has the verified candidates of every country that has one. -/
lemma lookup_groups (candidates : List ValidatorCandidate) (country : String) :
    ((candidates.map (p.eligibleCandidate balances circulatingSupply)).foldl groupCandidate
        ∅).lookup country =
      if verifiedIn balances country candidates = [] then none
      else some (verifiedIn balances country candidates) := by
  induction candidates using List.reverseRecOn with
  | nil => rfl
  | append_singleton candidates c ih =>
    rw [List.map_append, List.foldl_append, List.map_singleton, List.foldl_cons, List.foldl_nil]
    have hsame : (¬ (c.identityCountryVerified = true ∧ c.countryCode = some country)) →
        verifiedIn balances country (candidates ++ [c]) =
          verifiedIn balances country candidates := by
      intro hnot
      rw [verifiedIn, verifiedIn, List.filter_append, List.filter_singleton]
      simp [hnot]
    rw [groupCandidate.eq_def]
    split
    · rename_i code hverified hcode
      rw [HashMap.lookup_insert]
      by_cases heq : country = code
      · have hlast : verifiedIn balances country (candidates ++ [c]) =
            verifiedIn balances country candidates ++ [(c, stakeOf balances c)] := by
          have hmember : c.identityCountryVerified = true ∧ c.countryCode = some country :=
            ⟨hverified, by rw [heq]; exact hcode⟩
          rw [verifiedIn, verifiedIn, List.filter_append, List.filter_singleton]
          simp [hmember.1, hmember.2]
        have hsome : verifiedIn balances country candidates ++ [(c, stakeOf balances c)] ≠ [] := by
          simp
        rw [if_pos heq, ← heq, hlast, if_neg hsome, ih]
        split
        · rename_i hnone
          rw [hnone]
          rfl
        · rfl
      · rw [if_neg heq, ih, hsame]
        rintro ⟨_, hother⟩
        exact heq (Option.some.inj (hother.symm.trans hcode))
    · rename_i hnot
      rw [ih, hsame]
      rintro ⟨hverified, hcode⟩
      exact hnot country hverified hcode

lemma mem_foldl_insert {ranked : List (ValidatorCandidate × U128)} {ids : Finset String}
    {id : String} :
    id ∈ ranked.foldl (fun ids entry => insert entry.1.validatorId ids) ids ↔
      id ∈ ids ∨ ∃ entry ∈ ranked, entry.1.validatorId = id := by
  induction ranked generalizing ids with
  | nil => simp
  | cons entry ranked ih =>
    rw [List.foldl_cons, ih, Finset.mem_insert, List.exists_mem_cons_iff]
    tauto

lemma mem_foldl_rankCountry {values : List (List (ValidatorCandidate × U128))}
    {ids : Finset String} {id : String} :
    id ∈ values.foldl p.rankCountry ids ↔ id ∈ ids ∨ ∃ ranked ∈ values,
      ∃ entry ∈ (sortBy (fun entry => rankKey entry.2 entry.1.validatorId) ranked).take
        p.countryRankLimit.toNat, entry.1.validatorId = id := by
  induction values generalizing ids with
  | nil => simp
  | cons ranked values ih =>
    rw [List.foldl_cons, ih, rankCountry, mem_foldl_insert, List.exists_mem_cons_iff, or_assoc]

/-! ## The qualified candidates -/

lemma countryRanked_congr {candidates candidates' : List ValidatorCandidate}
    (hperm : candidates.Perm candidates') (c : ValidatorCandidate) :
    p.CountryRanked balances candidates c ↔ p.CountryRanked balances candidates' c := by
  rw [CountryRanked, CountryRanked, (hperm.filter _).length_eq]

/-- The verified candidates of a country among those that meet the common conditions. -/
lemma verifiedIn_eligible (candidates : List ValidatorCandidate) (country : String) :
    verifiedIn balances country (candidates.filter p.meets) =
      (candidates.filter fun c => p.Eligible c ∧ c.identityCountryVerified = true ∧
        c.countryCode = some country).map fun c => (c, stakeOf balances c) := by
  rw [verifiedIn, List.filter_filter]
  congr 1
  apply List.filter_congr
  intro c _
  rw [Bool.eq_iff_iff, Bool.and_eq_true, decide_eq_true_eq, decide_eq_true_eq, meets_iff]
  exact and_comm

/-- A country's group holds a candidate exactly when it is eligible and verified there. -/
lemma mem_verifiedIn {candidates : List ValidatorCandidate} {country : String}
    {entry : ValidatorCandidate × U128} :
    entry ∈ verifiedIn balances country (candidates.filter p.meets) ↔
      entry.2 = stakeOf balances entry.1 ∧ entry.1 ∈ candidates ∧ p.Eligible entry.1 ∧
        entry.1.identityCountryVerified = true ∧ entry.1.countryCode = some country := by
  rw [verifiedIn_eligible, List.mem_map]
  constructor
  · rintro ⟨d, hd, rfl⟩
    rw [List.mem_filter, decide_eq_true_eq] at hd
    exact ⟨rfl, hd.1, hd.2⟩
  · rintro ⟨hstake, hmem, hrest⟩
    exact ⟨entry.1, List.mem_filter.mpr ⟨hmem, decide_eq_true hrest⟩, Prod.ext rfl hstake.symm⟩

/-- The rank of an entry of a group. -/
def entryKey (entry : ValidatorCandidate × U128) : ℕᵒᵈ ×ₗ String :=
  rankKey entry.2 entry.1.validatorId

lemma nodup_verifiedIn {candidates : List ValidatorCandidate}
    (hids : (candidates.map ValidatorCandidate.validatorId).Nodup) (country : String) :
    ((verifiedIn balances country (candidates.filter p.meets)).map entryKey).Nodup := by
  apply List.Nodup.of_map fun key : ℕᵒᵈ ×ₗ String => (ofLex key).2
  rw [List.map_map, verifiedIn_eligible, List.map_map]
  exact (List.Sublist.map _ List.filter_sublist).nodup hids

/-- Who stands before a candidate in its country. -/
lemma length_before {candidates : List ValidatorCandidate} {c : ValidatorCandidate}
    {country : String} (hcountry : c.countryCode = some country) :
    ((verifiedIn balances country (candidates.filter p.meets)).filter fun entry =>
      entryKey entry < candidateKey balances c).length =
    (candidates.filter fun d => p.Eligible d ∧ d.identityCountryVerified = true ∧
      d.countryCode = c.countryCode ∧ Precedes balances d c).length := by
  rw [verifiedIn_eligible, List.filter_map, List.length_map, List.filter_filter]
  congr 1
  apply List.filter_congr
  intro d _
  have hkey : entryKey (d, stakeOf balances d) < candidateKey balances c ↔
      Precedes balances d c := candidateKey_lt
  rw [Function.comp_apply, decide_eq_decide.mpr hkey, ← Bool.decide_and, decide_eq_decide,
    hcountry]
  constructor
  · rintro ⟨hbefore, heligible, hverified, hcode⟩
    exact ⟨heligible, hverified, hcode, hbefore⟩
  · rintro ⟨heligible, hverified, hcode, hbefore⟩
    exact ⟨hbefore, heligible, hverified, hcode⟩

/-- An id is in the set of the ranking loop exactly when its candidate is ranked. -/
lemma mem_countryRanked {iteration : HashMap.Iteration String (List (ValidatorCandidate × U128))}
    {candidates : List ValidatorCandidate}
    (hids : (candidates.map ValidatorCandidate.validatorId).Nodup) {c : ValidatorCandidate}
    (hc : c ∈ candidates) (heligible : p.Eligible c) :
    c.validatorId ∈ (iteration.values (((candidates.filter p.meets).map
        (p.eligibleCandidate balances circulatingSupply)).foldl groupCandidate ∅)).foldl
          p.rankCountry ∅ ↔
      p.CountryRanked balances candidates c := by
  -- among the first of its country is who has fewer than the limit before it
  have htake : ∀ country (entry : ValidatorCandidate × U128),
      entry ∈ (sortBy entryKey (verifiedIn balances country (candidates.filter p.meets))).take
          p.countryRankLimit.toNat ↔
        entry ∈ verifiedIn balances country (candidates.filter p.meets) ∧
          ((verifiedIn balances country (candidates.filter p.meets)).filter fun other =>
            entryKey other < entryKey entry).length < p.countryRankLimit.toNat :=
    fun country entry => mem_take_sortBy (nodup_verifiedIn hids country)
  rw [mem_foldl_rankCountry]
  constructor
  · rintro (hempty | ⟨ranked, hranked, entry, hentry, hid⟩)
    · exact absurd hempty (Finset.notMem_empty _)
    · obtain ⟨country, hlookup⟩ := (HashMap.mem_values (iteration.exact _)).mp hranked
      rw [lookup_groups] at hlookup
      split at hlookup
      · exact absurd hlookup (by simp)
      · rw [← Option.some.inj hlookup] at hentry
        obtain ⟨hmem, hfew⟩ := (htake country entry).mp hentry
        obtain ⟨hstake, hmem, _, hverified, hcode⟩ := mem_verifiedIn.mp hmem
        obtain rfl : entry.1 = c := List.inj_on_of_nodup_map hids hmem hc hid
        have hkey : entryKey entry = candidateKey balances entry.1 := by
          rw [entryKey, hstake, candidateKey]
        rw [hkey, length_before hcode] at hfew
        exact ⟨hverified, by rw [hcode]; rfl, hfew⟩
  · rintro ⟨hverified, hcode, hfew⟩
    obtain ⟨country, hcountry⟩ := Option.isSome_iff_exists.mp hcode
    have hmem : (c, stakeOf balances c) ∈
        verifiedIn balances country (candidates.filter p.meets) :=
      mem_verifiedIn.mpr ⟨rfl, hc, heligible, hverified, hcountry⟩
    refine .inr ⟨verifiedIn balances country (candidates.filter p.meets), ?_,
      (c, stakeOf balances c), (htake country _).mpr ⟨hmem, ?_⟩, rfl⟩
    · refine (HashMap.mem_values (iteration.exact _)).mpr ⟨country, ?_⟩
      rw [lookup_groups, if_neg (List.ne_nil_of_mem hmem)]
    · exact lt_of_eq_of_lt (length_before hcountry) hfew

/-- The qualified candidates in the order of their stakes. -/
def ranking (p : ValidatorPolicy) (balances : HashMap String U128) (circulatingSupply : U128)
    (candidates : List ValidatorCandidate) : List ValidatorCandidate :=
  sortBy (candidateKey balances)
    (candidates.filter fun c => p.Qualifies balances circulatingSupply candidates c)

/-- The filter of `select` keeps the qualified candidates. -/
lemma selected_eq {iteration : HashMap.Iteration String (List (ValidatorCandidate × U128))}
    {candidates : List ValidatorCandidate}
    (hids : (candidates.map ValidatorCandidate.validatorId).Nodup) {ids : Finset String}
    (hranked : ids = (iteration.values (((candidates.filter p.meets).map
      (p.eligibleCandidate balances circulatingSupply)).foldl groupCandidate ∅)).foldl
        p.rankCountry ∅) :
    ((((candidates.filter p.meets).map (p.eligibleCandidate balances circulatingSupply)).filter
      fun entry => entry.2.2 || decide (entry.1.validatorId ∈ ids) ||
        entry.1.administratorApproved).map fun entry => SelectedValidator.mk
          { id := entry.1.validatorId, votingPower := votingPower entry.2.1 circulatingSupply }
          entry.2.1) =
      (candidates.filter fun c => p.Qualifies balances circulatingSupply candidates c).map
        (selectedOf balances circulatingSupply) := by
  rw [List.filter_map, List.map_map, List.filter_filter]
  have hsame : candidates.filter (fun c => ((fun entry : EligibleCandidate =>
      entry.2.2 || decide (entry.1.validatorId ∈ ids) || entry.1.administratorApproved) ∘
        p.eligibleCandidate balances circulatingSupply) c && p.meets c) =
      candidates.filter fun c => p.Qualifies balances circulatingSupply candidates c := by
    apply List.filter_congr
    intro c hc
    rw [Bool.eq_iff_iff, Bool.and_eq_true, decide_eq_true_eq, meets_iff, Function.comp_apply,
      Bool.or_eq_true, Bool.or_eq_true, decide_eq_true_eq, Qualifies]
    constructor
    · rintro ⟨(henough | hmem) | happroved, heligible⟩
      · exact ⟨heligible, .inl (of_decide_eq_true henough)⟩
      · rw [hranked] at hmem
        exact ⟨heligible, .inr (.inl ((mem_countryRanked hids hc heligible).mp hmem))⟩
      · exact ⟨heligible, .inr (.inr happroved)⟩
    · rintro ⟨heligible, henough | hcountry | happroved⟩
      · exact ⟨.inl (.inl (decide_eq_true henough)), heligible⟩
      · refine ⟨.inl (.inr ?_), heligible⟩
        rw [hranked]
        exact (mem_countryRanked hids hc heligible).mpr hcountry
      · exact ⟨.inr happroved, heligible⟩
  rw [hsame]
  rfl

/-- `select` succeeds when policy, supply and candidates are in order and enough qualify, and it
returns the first of them. -/
theorem select_eq_ok {iteration : HashMap.Iteration String (List (ValidatorCandidate × U128))}
    {candidates : List ValidatorCandidate} {result : List SelectedValidator} :
    p.select iteration candidates balances circulatingSupply = .ok result ↔
      p.validate = .ok () ∧ circulatingSupply ≠ 0 ∧
        (∀ c ∈ candidates, validateCandidate c = .ok ()) ∧
        (candidates.map ValidatorCandidate.validatorId).Nodup ∧
        (candidates.map fun c => normalizeAccount c.stakeAccount).Nodup ∧
        p.minValidators ≤ result.length ∧
        result = ((p.ranking balances circulatingSupply candidates).take p.maxValidators).map
          (selectedOf balances circulatingSupply) := by
  -- whatever the order of the countries, what is selected is the ranking cut at `maxValidators`
  have hselected : (candidates.map ValidatorCandidate.validatorId).Nodup → ∀ ids,
      ids = (iteration.values (((candidates.filter p.meets).map
        (p.eligibleCandidate balances circulatingSupply)).foldl groupCandidate ∅)).foldl
          p.rankCountry ∅ →
      (sortBy (fun v : SelectedValidator => rankKey v.stake v.validator.id)
        ((((candidates.filter p.meets).map
          (p.eligibleCandidate balances circulatingSupply)).filter fun entry =>
            entry.2.2 || decide (entry.1.validatorId ∈ ids) ||
              entry.1.administratorApproved).map fun entry => SelectedValidator.mk
                { id := entry.1.validatorId
                  votingPower := votingPower entry.2.1 circulatingSupply }
                entry.2.1)).take p.maxValidators =
        ((p.ranking balances circulatingSupply candidates).take p.maxValidators).map
          (selectedOf balances circulatingSupply) := by
    intro hids ids hranked
    have hsort : ∀ l : List ValidatorCandidate,
        sortBy (fun v : SelectedValidator => rankKey v.stake v.validator.id)
          (l.map (selectedOf balances circulatingSupply)) =
        (sortBy (candidateKey balances) l).map (selectedOf balances circulatingSupply) :=
      sortBy_map fun _ => rfl
    rw [selected_eq hids hranked, hsort, ranking, List.map_take]
  simp only [select, bind_eq_ok, ensure_eq_ok, pure_eq_ok]
  constructor
  · rintro ⟨_, hpolicy, _, hsupply, s, hrun, _, hmin, hresult⟩
    obtain ⟨hvalid, ⟨hids, _⟩, ⟨haccounts, _⟩, heligible⟩ :=
      exists_foldlM_checkCandidate.mp ⟨s, hrun, rfl⟩
    rw [List.nil_append] at heligible
    rw [heligible, hselected hids _ rfl] at hmin hresult
    exact ⟨hpolicy, hsupply, hvalid, hids, haccounts, hresult ▸ hmin, hresult.symm⟩
  · rintro ⟨hpolicy, hsupply, hvalid, hids, haccounts, hmin, rfl⟩
    obtain ⟨s, hrun, heligible⟩ :=
      (exists_foldlM_checkCandidate (p := p) (s := ⟨∅, ∅, []⟩)).mpr ⟨hvalid,
        ⟨hids, fun _ _ => Finset.notMem_empty _⟩, ⟨haccounts, fun _ _ => Finset.notMem_empty _⟩,
        (List.nil_append _).symm⟩
    refine ⟨(), hpolicy, (), hsupply, s, hrun, ?_⟩
    rw [heligible, hselected hids _ rfl]
    exact ⟨(), hmin, rfl⟩

/-! ## The selection -/

/-- Where the supply and the share fit, the saturating products compare as the exact ones do. -/
lemma enough_iff {stake : U128} (hfits : circulatingSupply.toNat * p.minStakeBps.toNat < 2 ^ 128) :
    mulSaturating circulatingSupply (BitVec.ofNat 128 p.minStakeBps.toNat) ≤
        mulSaturating stake bpsDenominator ↔
      circulatingSupply.toNat * p.minStakeBps.toNat ≤ stake.toNat * 10000 := by
  have hbps : p.minStakeBps.toNat < 2 ^ 16 := p.minStakeBps.toNat_lt
  have hshare : (BitVec.ofNat 128 p.minStakeBps.toNat).toNat = p.minStakeBps.toNat := by
    rw [BitVec.toNat_ofNat]
    exact Nat.mod_eq_of_lt (by omega)
  have hden : bpsDenominator.toNat = 10000 := rfl
  rw [BitVec.le_def, mulSaturating, mulSaturating, hshare, hden, BitVec.toNat_ofNat,
    BitVec.toNat_ofNat, Nat.mod_eq_of_lt (by omega), Nat.mod_eq_of_lt (by omega)]
  omega

lemma votingPower_pos (stake circulatingSupply : U128) :
    1 ≤ (votingPower stake circulatingSupply).toNat := by
  unfold votingPower
  rw [UInt64.toNat_ofNat_of_lt']
  · omega
  · show _ < 2 ^ 64
    omega

lemma votingPower_mono {stake stake' : U128} (h : stake.toNat ≤ stake'.toNat) :
    (votingPower stake circulatingSupply).toNat ≤ (votingPower stake' circulatingSupply).toNat := by
  have hproduct : (mulSaturating stake 1000000).toNat ≤ (mulSaturating stake' 1000000).toNat := by
    have hmillion : (1000000 : U128).toNat = 1000000 := rfl
    rw [mulSaturating, mulSaturating, hmillion, BitVec.toNat_ofNat, BitVec.toNat_ofNat,
      Nat.mod_eq_of_lt (by omega), Nat.mod_eq_of_lt (by omega)]
    omega
  have hquotient := Nat.div_le_div_right (c := circulatingSupply.toNat) hproduct
  unfold votingPower
  rw [UInt64.toNat_ofNat_of_lt', UInt64.toNat_ofNat_of_lt']
  · omega
  · show _ < 2 ^ 64
    omega
  · show _ < 2 ^ 64
    omega

lemma nodup_candidateKey {candidates : List ValidatorCandidate}
    (hids : (candidates.map ValidatorCandidate.validatorId).Nodup)
    (q : ValidatorCandidate → Bool) :
    ((candidates.filter q).map (candidateKey balances)).Nodup := by
  apply List.Nodup.of_map fun key : ℕᵒᵈ ×ₗ String => (ofLex key).2
  rw [List.map_map]
  exact (List.Sublist.map _ List.filter_sublist).nodup hids

lemma ranking_congr {candidates candidates' : List ValidatorCandidate}
    (hperm : candidates.Perm candidates')
    (hids : (candidates.map ValidatorCandidate.validatorId).Nodup) :
    p.ranking balances circulatingSupply candidates =
      p.ranking balances circulatingSupply candidates' := by
  have hsame : (candidates'.filter fun c => p.Qualifies balances circulatingSupply candidates c) =
      candidates'.filter fun c => p.Qualifies balances circulatingSupply candidates' c := by
    apply List.filter_congr
    intro c _
    rw [decide_eq_decide, Qualifies, Qualifies, countryRanked_congr hperm c]
  rw [ranking, ranking, ← hsame]
  exact sortBy_congr (hperm.filter _) (nodup_candidateKey hids _)

/-- The order of the candidates and of the hash map changes nothing. -/
theorem select_perm {iteration iteration' :
      HashMap.Iteration String (List (ValidatorCandidate × U128))}
    {candidates candidates' : List ValidatorCandidate} (hperm : candidates.Perm candidates')
    {result : List SelectedValidator}
    (h : p.select iteration candidates balances circulatingSupply = .ok result) :
    p.select iteration' candidates' balances circulatingSupply = .ok result := by
  obtain ⟨hpolicy, hsupply, hvalid, hids, haccounts, hmin, hresult⟩ := select_eq_ok.mp h
  refine select_eq_ok.mpr ⟨hpolicy, hsupply, fun c hc => hvalid c (hperm.mem_iff.mpr hc),
    (hperm.map _).nodup_iff.mp hids, (hperm.map _).nodup_iff.mp haccounts, hmin, ?_⟩
  rw [← ranking_congr hperm hids]
  exact hresult

end Select

/-- **The selection is exact and does not depend on any order.** -/
theorem select_exact (p : ValidatorPolicy) (candidates : List ValidatorCandidate)
    (balances : HashMap String U128) (circulatingSupply : U128)
    (hfits : circulatingSupply.toNat * p.minStakeBps.toNat < 2 ^ 128) :
    (∀ iteration iteration' candidates', candidates.Perm candidates' → ∀ result,
      p.select iteration candidates balances circulatingSupply = .ok result ↔
        p.select iteration' candidates' balances circulatingSupply = .ok result) ∧
    ∀ iteration result,
      p.select iteration candidates balances circulatingSupply = .ok result →
      (∃ ranked : List ValidatorCandidate,
        ranked.Perm (candidates.filter fun c => p.Eligible c ∧
          (circulatingSupply.toNat * p.minStakeBps.toNat ≤ (stakeOf balances c).toNat * 10000 ∨
            p.CountryRanked balances candidates c ∨ c.administratorApproved = true)) ∧
        ranked.Pairwise (Precedes balances) ∧
        result = (ranked.take p.maxValidators).map (selectedOf balances circulatingSupply)) ∧
      p.minValidators ≤ result.length ∧
      (result.map fun v => v.validator.id).Nodup ∧
      (∀ v ∈ result, 1 ≤ v.validator.votingPower.toNat) ∧
      result.Pairwise fun v w => w.validator.votingPower ≤ v.validator.votingPower := by
  refine ⟨fun iteration iteration' candidates' hperm result =>
    ⟨select_perm hperm, select_perm hperm.symm⟩, fun iteration result h => ?_⟩
  obtain ⟨_, _, _, hids, _, hmin, hresult⟩ := select_eq_ok.mp h
  -- with `hfits` the stake rule is the one over the natural numbers
  have hexact : (candidates.filter fun c => p.Qualifies balances circulatingSupply candidates c) =
      candidates.filter fun c => p.Eligible c ∧
        (circulatingSupply.toNat * p.minStakeBps.toNat ≤ (stakeOf balances c).toNat * 10000 ∨
          p.CountryRanked balances candidates c ∨ c.administratorApproved = true) := by
    apply List.filter_congr
    intro c _
    rw [decide_eq_decide, Qualifies, enough_iff hfits]
  have hperm : (p.ranking balances circulatingSupply candidates).Perm
      (candidates.filter fun c => p.Qualifies balances circulatingSupply candidates c) :=
    perm_sortBy _ _
  -- no two candidates have one key, so the order is strict
  have hsorted : (p.ranking balances circulatingSupply candidates).Pairwise
      (Precedes balances) :=
    (pairwise_sortBy _ (nodup_candidateKey hids _)).imp candidateKey_lt.mp
  refine ⟨⟨_, hexact ▸ hperm, hsorted, hresult⟩, hmin, ?_, ?_, ?_⟩
  · have hnodup : ((p.ranking balances circulatingSupply candidates).map
        ValidatorCandidate.validatorId).Nodup := by
      rw [(hperm.map _).nodup_iff]
      exact (List.Sublist.map _ List.filter_sublist).nodup hids
    rw [hresult, List.map_map]
    exact (List.Sublist.map _ (List.take_sublist _ _)).nodup hnodup
  · intro v hv
    rw [hresult] at hv
    obtain ⟨c, _, rfl⟩ := List.mem_map.mp hv
    exact votingPower_pos _ _
  · rw [hresult, List.pairwise_map]
    refine (hsorted.sublist (List.take_sublist _ _)).imp fun {a b} hbefore => ?_
    apply UInt64.le_iff_toNat_le.mpr
    apply votingPower_mono
    rcases hbefore with hlt | ⟨heq, _⟩
    · exact hlt.le
    · exact heq.ge

/-! ## Approved candidates -/

/-- A candidate that is approved and has no stake. -/
def approvedCandidate (entry : String × String) : ValidatorCandidate :=
  { validatorId := entry.1
    stakeAccount := entry.2
    delegatedStake := 0
    countryCode := none
    identityCountryVerified := false
    ownershipProofVerified := true
    nodeEndpoint := some "/dns4/node.example/udp/7001/quic-v1"
    observedEpochs := 0
    uptimeBps := 0
    administratorApproved := true
    blocked := false }

/-- An account in hexadecimal keeps its text. -/
lemma normalizeAccount_hexEncode (account : Bytes) :
    normalizeAccount (hexEncode account) = "0x" ++ hexEncode account := by
  rw [normalizeAccount, trimStart0x_hexEncode,
    toAsciiLowercase_of_hexDecode (hexDecode_hexEncode account)]

lemma validateCandidate_approved {entry : String × String}
    (hkey : (hexDecode entry.1).map List.length = some 32) {account : Bytes}
    (haccount : entry.2 = hexEncode account) (hlength : account.length = 20) :
    validateCandidate (approvedCandidate entry) = .ok () := by
  simp only [validateCandidate, approvedCandidate, bind_eq_ok, ensure_eq_ok, haccount,
    trimStart0x_hexEncode, hexDecode_hexEncode, textLen_hexEncode, hlength]
  refine ⟨(), hkey, (), ⟨trivial, rfl⟩, (), fun h => ?_, fun h => ?_⟩
  · exact Bool.false_ne_true h.1
  · exact absurd (Option.some.inj h) (by decide)

/-- Approved candidates are selected, if their ids and their accounts differ as texts. -/
lemma select_approved {entries : List (String × String)} {circulatingSupply : U128}
    (hsupply : circulatingSupply ≠ 0) (hlength : 4 ≤ entries.length ∧ entries.length ≤ 50)
    (hkeys : ∀ entry ∈ entries, (hexDecode entry.1).map List.length = some 32)
    (haddresses : ∀ entry ∈ entries, ∃ account : Bytes, entry.2 = hexEncode account ∧
      account.length = 20)
    (hids : (entries.map Prod.fst).Nodup) (haccounts : (entries.map Prod.snd).Nodup)
    (iteration : HashMap.Iteration String (List (ValidatorCandidate × U128))) :
    ∃ result, default.select iteration (entries.map approvedCandidate) ∅ circulatingSupply =
        .ok result ∧ (result.map fun v => v.validator.id).Perm (entries.map Prod.fst) := by
  -- the approval of the administrator is enough, without a stake
  have hall : (entries.map approvedCandidate).filter (fun c =>
      default.Qualifies ∅ circulatingSupply (entries.map approvedCandidate) c) =
        entries.map approvedCandidate := by
    apply List.filter_eq_self.mpr
    intro c hc
    obtain ⟨entry, _, rfl⟩ := List.mem_map.mp hc
    exact decide_eq_true ⟨⟨rfl, rfl, rfl, .inr rfl⟩, .inr (.inr rfl)⟩
  have hperm : (default.ranking ∅ circulatingSupply (entries.map approvedCandidate)).Perm
      (entries.map approvedCandidate) := by
    rw [ranking, hall]
    exact perm_sortBy _ _
  have htake : (default.ranking ∅ circulatingSupply (entries.map approvedCandidate)).take
      default.maxValidators =
        default.ranking ∅ circulatingSupply (entries.map approvedCandidate) := by
    apply List.take_of_length_le
    rw [hperm.length_eq, List.length_map]
    exact hlength.2
  refine ⟨_, select_eq_ok.mpr ⟨rfl, hsupply, ?_, ?_, ?_, ?_, rfl⟩, ?_⟩
  · intro c hc
    obtain ⟨entry, hentry, rfl⟩ := List.mem_map.mp hc
    obtain ⟨account, haccount, hlength⟩ := haddresses entry hentry
    exact validateCandidate_approved (hkeys entry hentry) haccount hlength
  · rw [List.map_map]
    exact hids
  · rw [List.map_map]
    -- normalising an address of 20 bytes puts a prefix before it
    have hinj : ∀ a ∈ entries, ∀ b ∈ entries, normalizeAccount a.2 = normalizeAccount b.2 →
        a = b := by
      intro a ha b hb heq
      obtain ⟨x, hx, _⟩ := haddresses a ha
      obtain ⟨y, hy, _⟩ := haddresses b hb
      rw [hx, hy, normalizeAccount_hexEncode, normalizeAccount_hexEncode] at heq
      apply List.inj_on_of_nodup_map haccounts ha hb
      rw [hx, hy]
      exact String.append_right_inj _ |>.mp heq
    exact List.Nodup.map_on hinj (List.Nodup.of_map _ haccounts)
  · rw [htake, List.length_map, hperm.length_eq, List.length_map]
    exact hlength.1
  · rw [htake, List.map_map]
    have hids' := hperm.map ValidatorCandidate.validatorId
    rw [List.map_map] at hids'
    exact hids'

/-- Four candidates with a key and an account each. -/
def fourEntries : List (String × String) :=
  [1, 2, 3, 4].map fun i => (hexEncode (List.replicate 32 i), hexEncode (List.replicate 20 i))

lemma hexEncode_replicate_injective (n : ℕ) :
    Function.Injective fun i => hexEncode (List.replicate (n + 1) i) := by
  intro i j h
  exact (List.replicate_inj.mp (hexEncode_inj h)).2.resolve_left (Nat.succ_ne_zero n)

/-- The four are selected, in any order of the hash map. -/
theorem select_exact_approved :
    ∃ result, default.select .sorted (fourEntries.map approvedCandidate) ∅ 1000 = .ok result ∧
      4 ≤ result.length ∧ (result.map fun v => v.validator.id).Nodup := by
  have hkeys : ∀ entry ∈ fourEntries, (hexDecode entry.1).map List.length = some 32 := by
    intro entry hentry
    obtain ⟨i, _, rfl⟩ := List.mem_map.mp hentry
    rw [hexDecode_hexEncode, Option.map_some, List.length_replicate]
  have haddresses : ∀ entry ∈ fourEntries, ∃ account : Bytes, entry.2 = hexEncode account ∧
      account.length = 20 := by
    intro entry hentry
    obtain ⟨i, _, rfl⟩ := List.mem_map.mp hentry
    exact ⟨_, rfl, List.length_replicate⟩
  have hids : (fourEntries.map Prod.fst).Nodup := by
    rw [fourEntries, List.map_map]
    exact List.Nodup.map (hexEncode_replicate_injective 31) (by decide)
  have haccounts : (fourEntries.map Prod.snd).Nodup := by
    rw [fourEntries, List.map_map]
    exact List.Nodup.map (hexEncode_replicate_injective 19) (by decide)
  have hsupply : (1000 : U128) ≠ 0 := by decide
  obtain ⟨result, hselect, _⟩ := select_approved hsupply ⟨le_refl 4, by decide⟩ hkeys haddresses
    hids haccounts .sorted
  obtain ⟨_, hmin, hids, _⟩ := (select_exact default (fourEntries.map approvedCandidate) ∅ 1000
    (by decide)).2 .sorted result hselect
  exact ⟨result, hselect, hmin, hids⟩

end ValidatorPolicy

end IeumChain
