import IeumChain.Genesis
import IeumChain.PolicyTheorems

/-!
# The keys behind the ids

The genesis file and the selection both refuse an id that occurs twice. They compare texts, and a
vote is verified with the bytes that the text decodes to: ids that differ only in the case of their
digits are one key (`keys_distinct_iff`).
-/

namespace IeumChain

open Lib

/-- Two of the ids are verified alike: the key that casts the votes of one casts those of the
other. -/
def SharedKey (ids : List String) : Prop :=
  ∃ a ∈ ids, ∃ b ∈ ids, a ≠ b ∧ ∀ [Primitives] (message : Bytes) (signature : String),
    verifySignature a message signature = verifySignature b message signature

/-- A vote is verified with the key alone. -/
lemma verifySignature_congr [Primitives] {a b : String} (h : hexDecode a = hexDecode b)
    (message : Bytes) (signature : String) :
    verifySignature a message signature = verifySignature b message signature := by
  rw [verifySignature, verifySignature, h]

/-- Ids that are verified alike are one key. -/
lemma hexDecode_of_verifySignature {a b : String}
    (ha : (hexDecode a).map List.length = some 32)
    (h : ∀ [Primitives] (message : Bytes) (signature : String),
      verifySignature a message signature = verifySignature b message signature) :
    hexDecode a = hexDecode b := by
  obtain ⟨key, hkey, hlength⟩ := Option.map_eq_some_iff.mp ha
  -- only the first key has signatures
  let alone : Primitives :=
    { sha256 := fun _ => ⟨List.replicate 32 0, List.length_replicate⟩
      keccak256 := fun _ => ⟨List.replicate 32 0, List.length_replicate⟩
      ed25519Key := fun _ => true
      ed25519Verify := fun signer _ _ => decide (signer = key)
      secp256k1Key := fun _ => none
      ecdsaSignature := fun _ => false
      ecdsaVerify := fun _ _ _ => false
      ecdsaRecover := fun _ _ _ => none
      peerKey := fun _ => none
      peerIdOf := fun _ => ""
      peerVerify := fun _ _ _ => false }
  have haccepted : verifySignature a [] (hexEncode (List.replicate 64 0)) = .ok () := by
    simp only [verifySignature, bind_eq_ok, okOr_eq_ok, ensure_eq_ok]
    exact ⟨key, hkey, (), hlength, _, hexDecode_hexEncode _, (), List.length_replicate, (), rfl,
      decide_eq_true rfl⟩
  rw [h] at haccepted
  simp only [verifySignature, bind_eq_ok, okOr_eq_ok, ensure_eq_ok] at haccepted
  obtain ⟨signer, hsigner, _, _, _, _, _, _, _, _, hverify⟩ := haccepted
  rw [hkey, hsigner, of_decide_eq_true hverify]

lemma sharedKey_of_hexDecode {ids : List String} {a b : String} (ha : a ∈ ids) (hb : b ∈ ids)
    (hne : a ≠ b) (hkey : hexDecode a = hexDecode b) : SharedKey ids :=
  ⟨a, ha, b, hb, hne, verifySignature_congr hkey⟩

lemma not_sharedKey {ids : List String}
    (hkeys : ∀ id ∈ ids, (hexDecode id).map List.length = some 32)
    (h : (ids.map hexDecode).Nodup) : ¬ SharedKey ids := by
  rintro ⟨a, ha, b, hb, hne, halike⟩
  exact hne (List.inj_on_of_nodup_map h ha hb (hexDecode_of_verifySignature (hkeys a ha) halike))

lemma isSome_of_length {id : String} {n : ℕ} (h : (hexDecode id).map List.length = some n) :
    (hexDecode id).isSome := by
  obtain ⟨key, hkey, _⟩ := Option.map_eq_some_iff.mp h
  rw [hkey]
  rfl

/-- Ids of 32 bytes have distinct keys exactly when no two are the same in lower case. -/
lemma nodup_hexDecode_iff {ids : List String}
    (hkeys : ∀ id ∈ ids, (hexDecode id).map List.length = some 32) :
    (ids.map hexDecode).Nodup ↔ (ids.map toAsciiLowercase).Nodup := by
  rw [List.Nodup, List.Nodup, List.pairwise_map, List.pairwise_map]
  apply List.Pairwise.iff_of_mem
  intro a b ha hb
  exact not_congr
    (hexDecode_eq_iff (isSome_of_length (hkeys a ha)) (isSome_of_length (hkeys b hb)))

lemma nodup_keys_iff {ids : List String}
    (hkeys : ∀ id ∈ ids, (hexDecode id).map List.length = some 32) :
    (ids.map hexDecode).Nodup ∧ ¬ SharedKey ids ↔ (ids.map toAsciiLowercase).Nodup := by
  rw [← nodup_hexDecode_iff hkeys]
  exact ⟨And.left, fun h => ⟨h, not_sharedKey hkeys h⟩⟩

/-! ## The genesis file -/

namespace GenesisConfig

lemma exists_foldlM_checkValidator :
    ∀ {validators : List Validator} {validatorIds : Finset String},
      (∃ ids, validators.foldlM checkValidator validatorIds = .ok ids) ↔
        (∀ v ∈ validators, v.votingPower ≠ 0 ∧ (hexDecode v.id).map List.length = some 32) ∧
        (validators.map Validator.id).Nodup ∧ ∀ v ∈ validators, v.id ∉ validatorIds := by
  intro validators
  induction validators with
  | nil =>
    intro validatorIds
    simp only [List.foldlM_nil, pure_eq_ok, exists_eq', List.not_mem_nil, false_implies,
      implies_true, List.map_nil, List.nodup_nil, and_self]
  | cons v validators ih =>
    intro validatorIds
    simp only [foldlM_cons_eq_ok, checkValidator, bind_eq_ok, ensure_eq_ok, pure_eq_ok,
      List.forall_mem_cons, List.map_cons, List.nodup_cons, List.mem_map]
    constructor
    · rintro ⟨ids, _, ⟨_, ⟨hpower, hkey, hid⟩, rfl⟩, hrest⟩
      obtain ⟨hvalid, hnodup, hnew⟩ := ih.mp ⟨ids, hrest⟩
      refine ⟨⟨⟨hpower, hkey⟩, hvalid⟩, ⟨?_, hnodup⟩, hid, ?_⟩
      · rintro ⟨w, hw, heq⟩
        exact hnew w hw (heq ▸ Finset.mem_insert_self _ _)
      · exact fun w hw hmem => hnew w hw (Finset.mem_insert_of_mem hmem)
    · rintro ⟨⟨⟨hpower, hkey⟩, hvalid⟩, ⟨hnot, hnodup⟩, hid, hnew⟩
      have hrest : ∀ w ∈ validators, w.id ∉ insert v.id validatorIds := by
        intro w hw hmem
        rcases Finset.mem_insert.mp hmem with heq | hold
        · exact hnot ⟨w, hw, heq⟩
        · exact hnew w hw hold
      obtain ⟨ids, hids⟩ := ih.mpr ⟨hvalid, hnodup, hrest⟩
      exact ⟨ids, _, ⟨(), ⟨hpower, hkey, hid⟩, rfl⟩, hids⟩

/-- What a valid configuration is. -/
lemma validate_eq_ok {g : GenesisConfig} :
    g.validate = .ok () ↔ g.chainId ≠ 0 ∧ 4 ≤ g.validators.length ∧
      (∀ v ∈ g.validators, v.votingPower ≠ 0 ∧ (hexDecode v.id).map List.length = some 32) ∧
      (g.validators.map Validator.id).Nodup ∧
      (g.maxBlockBytes ≠ 0 ∧ g.maxBlockBytes ≤ 4 * 1024 * 1024) ∧
      (g.maxActiveBlockBytes ≠ 0 ∧ g.maxActiveBlockBytes ≤ 100000000) := by
  simp only [validate, bind_eq_ok, ensure_eq_ok]
  constructor
  · rintro ⟨_, hchain, _, hfour, ids, hids, _, hblock, hactive⟩
    obtain ⟨hvalid, hnodup, _⟩ := exists_foldlM_checkValidator.mp ⟨ids, hids⟩
    exact ⟨hchain, hfour, hvalid, hnodup, hblock, hactive⟩
  · rintro ⟨hchain, hfour, hvalid, hnodup, hblock, hactive⟩
    obtain ⟨ids, hids⟩ := exists_foldlM_checkValidator.mpr
      ⟨hvalid, hnodup, fun _ _ => Finset.notMem_empty _⟩
    exact ⟨(), hchain, (), hfour, ids, hids, (), hblock, hactive⟩

end GenesisConfig

/-! ## The selection -/

namespace ValidatorPolicy

section Chosen
variable {p : ValidatorPolicy} {balances : HashMap String U128} {circulatingSupply : U128}

/-- A candidate is chosen when it qualifies and fewer than the maximum stand before it. -/
def Chosen (p : ValidatorPolicy) (balances : HashMap String U128) (circulatingSupply : U128)
    (candidates : List ValidatorCandidate) (c : ValidatorCandidate) : Prop :=
  p.Qualifies balances circulatingSupply candidates c ∧
    (candidates.filter fun d => p.Qualifies balances circulatingSupply candidates d ∧
      Precedes balances d c).length < p.maxValidators

lemma mem_take_ranking {candidates : List ValidatorCandidate}
    (hids : (candidates.map ValidatorCandidate.validatorId).Nodup) {c : ValidatorCandidate} :
    c ∈ (p.ranking balances circulatingSupply candidates).take p.maxValidators ↔
      c ∈ candidates ∧ p.Chosen balances circulatingSupply candidates c := by
  have hbefore : (candidates.filter fun d => p.Qualifies balances circulatingSupply candidates d ∧
        Precedes balances d c) =
      (candidates.filter fun d => p.Qualifies balances circulatingSupply candidates d).filter
        fun d => candidateKey balances d < candidateKey balances c := by
    rw [List.filter_filter]
    apply List.filter_congr
    intro d _
    rw [decide_eq_decide.mpr candidateKey_lt, ← Bool.decide_and, decide_eq_decide]
    exact and_comm
  rw [ranking, mem_take_sortBy (nodup_candidateKey hids _), List.mem_filter,
    decide_eq_true_eq, Chosen, hbefore, and_assoc]

/-- The chosen candidates have distinct keys exactly when no two are the same in lower case. -/
lemma nodup_chosen_iff {candidates : List ValidatorCandidate}
    (hids : (candidates.map ValidatorCandidate.validatorId).Nodup) :
    ((((p.ranking balances circulatingSupply candidates).take p.maxValidators).map
        ValidatorCandidate.validatorId).map toAsciiLowercase).Nodup ↔
      ∀ c ∈ candidates, ∀ d ∈ candidates, p.Chosen balances circulatingSupply candidates c →
        p.Chosen balances circulatingSupply candidates d →
        toAsciiLowercase c.validatorId = toAsciiLowercase d.validatorId → c = d := by
  have hperm : (p.ranking balances circulatingSupply candidates).Perm
      (candidates.filter fun c => p.Qualifies balances circulatingSupply candidates c) :=
    perm_sortBy _ _
  have hnodup : (p.ranking balances circulatingSupply candidates).Nodup :=
    hperm.nodup_iff.mpr ((List.Nodup.of_map _ hids).filter _)
  rw [List.map_map, List.nodup_map_iff_inj_on (hnodup.sublist (List.take_sublist _ _))]
  constructor
  · intro hinj c hc d hd hchosen hchosen' heq
    exact hinj c ((mem_take_ranking hids).mpr ⟨hc, hchosen⟩) d
      ((mem_take_ranking hids).mpr ⟨hd, hchosen'⟩) heq
  · intro hdistinct c hc d hd heq
    obtain ⟨hmem, hchosen⟩ := (mem_take_ranking hids).mp hc
    obtain ⟨hmem', hchosen'⟩ := (mem_take_ranking hids).mp hd
    exact hdistinct c hmem d hmem' hchosen hchosen' heq

lemma validateCandidate_key {c : ValidatorCandidate} (h : validateCandidate c = .ok ()) :
    (hexDecode c.validatorId).map List.length = some 32 := by
  simp only [validateCandidate, bind_eq_ok, ensure_eq_ok] at h
  obtain ⟨_, hkey, _⟩ := h
  exact hkey

/-- The ids of a result. -/
lemma map_id_of_select {iteration : HashMap.Iteration String (List (ValidatorCandidate × U128))}
    {candidates : List ValidatorCandidate} {result : List SelectedValidator}
    (h : p.select iteration candidates balances circulatingSupply = .ok result) :
    result.map (fun v => v.validator.id) =
      ((p.ranking balances circulatingSupply candidates).take p.maxValidators).map
        ValidatorCandidate.validatorId := by
  obtain ⟨_, _, _, _, _, _, rfl⟩ := select_eq_ok.mp h
  rw [List.map_map]
  rfl

end Chosen

end ValidatorPolicy

/-- **One key, one validator** where the ids are written in one case: the keys of a genesis file
are distinct exactly when no two of its ids are the same in lower case, and those of a selection
exactly when no two of the chosen candidates have ids that are. -/
theorem keys_distinct_iff (g : GenesisConfig) (p : ValidatorPolicy)
    (iteration : HashMap.Iteration String (List (ValidatorCandidate × U128)))
    (candidates : List ValidatorCandidate) (balances : HashMap String U128)
    (circulatingSupply : U128) :
    (g.validate = .ok () →
      (((g.validators.map Validator.id).map hexDecode).Nodup ∧
          ¬ SharedKey (g.validators.map Validator.id) ↔
        ((g.validators.map Validator.id).map toAsciiLowercase).Nodup)) ∧
    ∀ result, p.select iteration candidates balances circulatingSupply = .ok result →
      (((result.map fun v => v.validator.id).map hexDecode).Nodup ∧
          ¬ SharedKey (result.map fun v => v.validator.id) ↔
        ∀ c ∈ candidates, ∀ d ∈ candidates, p.Chosen balances circulatingSupply candidates c →
          p.Chosen balances circulatingSupply candidates d →
          toAsciiLowercase c.validatorId = toAsciiLowercase d.validatorId → c = d) := by
  refine ⟨fun hvalid => ?_, fun result hselect => ?_⟩
  · obtain ⟨_, _, hkeys, _⟩ := GenesisConfig.validate_eq_ok.mp hvalid
    apply nodup_keys_iff
    intro id hid
    obtain ⟨v, hv, rfl⟩ := List.mem_map.mp hid
    exact (hkeys v hv).2
  · obtain ⟨_, _, hvalid, hids, _⟩ := ValidatorPolicy.select_eq_ok.mp hselect
    rw [← ValidatorPolicy.nodup_chosen_iff hids, ValidatorPolicy.map_id_of_select hselect]
    apply nodup_keys_iff
    intro id hid
    obtain ⟨c, hc, rfl⟩ := List.mem_map.mp hid
    have hmem := ((ValidatorPolicy.mem_take_ranking hids).mp hc).1
    exact ValidatorPolicy.validateCandidate_key (hvalid c hmem)

/-! ## Four ids -/

namespace FourIds

variable {ids : List String}

/-- A genesis file for four validators. -/
def genesis (ids : List String) : GenesisConfig :=
  { chainId := 1
    networkName := "ieum"
    genesisTime := 0
    initialBalances := []
    validators := ids.map fun id => ⟨id, 1⟩
    maxBlockBytes := 4194304
    maxActiveBlockBytes := 100000000 }

/-- Every id with an account of its own. -/
def entries (ids : List String) : List (String × String) :=
  ids.zip ([1, 2, 3, 4].map fun i => hexEncode (List.replicate 20 i))

lemma map_id_genesis (ids : List String) : (genesis ids).validators.map Validator.id = ids := by
  rw [genesis, List.map_map]
  exact List.map_id _

lemma validate_genesis (hlength : ids.length = 4)
    (hkeys : ∀ id ∈ ids, (hexDecode id).map List.length = some 32) (hnodup : ids.Nodup) :
    (genesis ids).validate = .ok () := by
  have hfour : 4 ≤ (ids.map fun id => Validator.mk id 1).length := by
    rw [List.length_map, hlength]
  have hone : (1 : UInt64) ≠ 0 := by decide
  have hblock : (genesis []).maxBlockBytes ≠ 0 ∧ (genesis []).maxBlockBytes ≤ 4 * 1024 * 1024 := by
    decide
  have hactive : (genesis []).maxActiveBlockBytes ≠ 0 ∧
      (genesis []).maxActiveBlockBytes ≤ 100000000 := by
    decide
  refine GenesisConfig.validate_eq_ok.mpr ⟨hone, hfour, ?_, (map_id_genesis ids).symm ▸ hnodup,
    hblock, hactive⟩
  intro v hv
  obtain ⟨id, hid, rfl⟩ := List.mem_map.mp hv
  exact ⟨hone, hkeys id hid⟩

lemma map_fst_entries (hlength : ids.length = 4) : (entries ids).map Prod.fst = ids :=
  List.map_fst_zip hlength.le

lemma select_entries (hlength : ids.length = 4)
    (hkeys : ∀ id ∈ ids, (hexDecode id).map List.length = some 32) (hnodup : ids.Nodup) :
    ∃ result, ValidatorPolicy.default.select .sorted
      ((entries ids).map ValidatorPolicy.approvedCandidate) ∅ 1000 = .ok result ∧
        (result.map fun v => v.validator.id).Perm ids := by
  have hfst := map_fst_entries hlength
  have hsnd : (entries ids).map Prod.snd =
      [1, 2, 3, 4].map fun i => hexEncode (List.replicate 20 i) := List.map_snd_zip hlength.ge
  have haddresses : ∀ entry ∈ entries ids, ∃ account : Bytes, entry.2 = hexEncode account ∧
      account.length = 20 := by
    intro entry hentry
    have hmem : entry.2 ∈ (entries ids).map Prod.snd := List.mem_map_of_mem hentry
    rw [hsnd] at hmem
    obtain ⟨i, _, heq⟩ := List.mem_map.mp hmem
    exact ⟨_, heq.symm, List.length_replicate⟩
  have haccounts : ((entries ids).map Prod.snd).Nodup := by
    rw [hsnd]
    exact List.Nodup.map (ValidatorPolicy.hexEncode_replicate_injective 19) (by decide)
  have hsupply : (1000 : U128) ≠ 0 := by decide
  have hentries : (entries ids).length = 4 := by
    rw [← List.length_map Prod.fst, hfst, hlength]
  obtain ⟨result, hselect, hperm⟩ := ValidatorPolicy.select_approved hsupply
    ⟨hentries.ge, by rw [hentries]; decide⟩
    (fun entry hentry => hkeys _ (hfst ▸ List.mem_map_of_mem hentry)) haddresses
    (hfst.symm ▸ hnodup) haccounts .sorted
  exact ⟨result, hselect, hfst ▸ hperm⟩

end FourIds

/-! ## One key in both cases -/

namespace TwoSpellings

/-- A key in upper-case digits. -/
def upper : String := String.ofList (List.replicate 64 'A')

/-- The same key in lower-case digits. -/
def lower : String := hexEncode (List.replicate 32 170)

def ids : List String :=
  [upper, lower, hexEncode (List.replicate 32 1), hexEncode (List.replicate 32 2)]

/-- Four keys, one of them in upper-case digits. -/
def distinct : List String :=
  [upper, hexEncode (List.replicate 32 1), hexEncode (List.replicate 32 2),
    hexEncode (List.replicate 32 3)]

lemma toList_upper : upper.toList = List.replicate 64 'A' := String.toList_ofList

lemma hexDecode_upper : hexDecode upper = some (List.replicate 32 170) := by
  have hpairs : ∀ n, hexDecodeChars (List.replicate (2 * n) 'A') = some (List.replicate n 170) := by
    intro n
    induction n with
    | zero => rfl
    | succ n ih =>
      have hdigit : hexValue 'A' = some 10 := rfl
      rw [Nat.mul_succ, List.replicate_succ, List.replicate_succ, hexDecodeChars, hdigit, ih]
      rfl
  rw [hexDecode, toList_upper]
  exact hpairs 32

lemma hexDecode_lower : hexDecode lower = some (List.replicate 32 170) := hexDecode_hexEncode _

lemma hexDecode_distinct : distinct.map hexDecode =
    [170, 1, 2, 3].map fun b => some (List.replicate 32 b) := by
  simp only [distinct, List.map_cons, List.map_nil, hexDecode_upper, hexDecode_hexEncode]

lemma length_key {texts : List String}
    (h : ∀ id ∈ texts, ∃ b : UInt8, hexDecode id = some (List.replicate 32 b)) :
    ∀ id ∈ texts, (hexDecode id).map List.length = some 32 := by
  intro id hid
  obtain ⟨b, hb⟩ := h id hid
  rw [hb, Option.map_some, List.length_replicate]

lemma hexDecode_ids : ∀ id ∈ ids, (hexDecode id).map List.length = some 32 := by
  refine length_key ?_
  simp only [ids, List.forall_mem_cons]
  exact ⟨⟨_, hexDecode_upper⟩, ⟨_, hexDecode_lower⟩, ⟨_, hexDecode_hexEncode _⟩,
    ⟨_, hexDecode_hexEncode _⟩, fun _ h => absurd h List.not_mem_nil⟩

lemma length_distinct : ∀ id ∈ distinct, (hexDecode id).map List.length = some 32 := by
  refine length_key fun id hid => ?_
  have hmem : hexDecode id ∈ distinct.map hexDecode := List.mem_map_of_mem hid
  rw [hexDecode_distinct] at hmem
  obtain ⟨b, _, heq⟩ := List.mem_map.mp hmem
  exact ⟨b, heq.symm⟩

lemma nodup_hexDecode_distinct : (distinct.map hexDecode).Nodup := by
  rw [hexDecode_distinct]
  refine List.Nodup.map (fun a b h => ?_) (by decide)
  exact (List.replicate_inj.mp (Option.some.inj h)).2.resolve_left (by decide)

lemma upper_ne_hexEncode (bs : Bytes) : upper ≠ hexEncode bs := by
  intro h
  have hchars : textBytes upper = (List.replicate 64 'A').flatMap String.utf8EncodeChar :=
    textBytes_ofList _
  have hbytes : (65 : UInt8) ∈ textBytes upper := by
    rw [hchars]
    exact List.mem_flatMap.mpr ⟨'A', List.mem_replicate.mpr ⟨by decide, rfl⟩, by decide⟩
  rw [h] at hbytes
  exact absurd (isHexByte_of_mem_hexEncode hbytes) (by decide)

lemma nodup_ids : ids.Nodup := by
  have hlower : ([170, 1, 2].map fun b : UInt8 => hexEncode (List.replicate 32 b)).Nodup :=
    List.Nodup.map (ValidatorPolicy.hexEncode_replicate_injective 31) (by decide)
  refine List.nodup_cons.mpr ⟨fun hmem => ?_, hlower⟩
  obtain ⟨b, _, heq⟩ :=
    List.mem_map.mp (show upper ∈ [170, 1, 2].map fun b : UInt8 => hexEncode (List.replicate 32 b)
      from hmem)
  exact upper_ne_hexEncode _ heq.symm

/-- Two of the ids decode to one key. -/
lemma sharedKey {texts : List String} (h : texts.Perm ids) :
    ¬ (texts.map hexDecode).Nodup ∧ SharedKey texts := by
  have hupper : upper ∈ texts := h.mem_iff.mpr (by simp [ids])
  have hlower : lower ∈ texts := h.mem_iff.mpr (by simp [ids])
  have hkey : hexDecode upper = hexDecode lower := hexDecode_upper.trans hexDecode_lower.symm
  exact ⟨fun hnodup => upper_ne_hexEncode _ (List.inj_on_of_nodup_map hnodup hupper hlower hkey),
    sharedKey_of_hexDecode hupper hlower (upper_ne_hexEncode _) hkey⟩

end TwoSpellings

/-- A key that is spelled in both cases is two validators, of a genesis file and of a selection. -/
theorem keys_shared :
    ((FourIds.genesis TwoSpellings.ids).validate = .ok () ∧
      ¬ (((FourIds.genesis TwoSpellings.ids).validators.map Validator.id).map hexDecode).Nodup ∧
      SharedKey ((FourIds.genesis TwoSpellings.ids).validators.map Validator.id)) ∧
    ∃ result, ValidatorPolicy.default.select .sorted
        ((FourIds.entries TwoSpellings.ids).map ValidatorPolicy.approvedCandidate) ∅ 1000 =
          .ok result ∧
      ¬ ((result.map fun v => v.validator.id).map hexDecode).Nodup ∧
      SharedKey (result.map fun v => v.validator.id) := by
  obtain ⟨result, hselect, hperm⟩ :=
    FourIds.select_entries rfl TwoSpellings.hexDecode_ids TwoSpellings.nodup_ids
  refine ⟨⟨FourIds.validate_genesis rfl TwoSpellings.hexDecode_ids TwoSpellings.nodup_ids, ?_⟩,
    result, hselect, TwoSpellings.sharedKey hperm⟩
  exact TwoSpellings.sharedKey (List.Perm.of_eq (FourIds.map_id_genesis _))

/-- Four keys, one of them in the other case, are the keys of four validators, of a genesis file and
of a selection. -/
theorem keys_distinct_iff_four :
    ((FourIds.genesis TwoSpellings.distinct).validate = .ok () ∧
      ¬ SharedKey ((FourIds.genesis TwoSpellings.distinct).validators.map Validator.id)) ∧
    ∃ result, ValidatorPolicy.default.select .sorted
        ((FourIds.entries TwoSpellings.distinct).map ValidatorPolicy.approvedCandidate) ∅ 1000 =
          .ok result ∧
      ¬ SharedKey (result.map fun v => v.validator.id) := by
  have hkeys := TwoSpellings.length_distinct
  have hlower := (nodup_hexDecode_iff hkeys).mp TwoSpellings.nodup_hexDecode_distinct
  have hids : TwoSpellings.distinct.Nodup := List.Nodup.of_map _ hlower
  have hvalid := FourIds.validate_genesis rfl hkeys hids
  obtain ⟨result, hselect, _⟩ := FourIds.select_entries rfl hkeys hids
  obtain ⟨hgenesis, hresult⟩ := keys_distinct_iff (FourIds.genesis TwoSpellings.distinct)
    .default .sorted ((FourIds.entries TwoSpellings.distinct).map ValidatorPolicy.approvedCandidate)
    ∅ 1000
  refine ⟨⟨hvalid, ((hgenesis hvalid).mpr ?_).2⟩, result, hselect, ((hresult result hselect).mpr ?_).2⟩
  · rw [FourIds.map_id_genesis]
    exact hlower
  · intro c hc d hd _ _ heq
    have hmap : ((FourIds.entries TwoSpellings.distinct).map ValidatorPolicy.approvedCandidate).map
        (fun c => toAsciiLowercase c.validatorId) = TwoSpellings.distinct.map toAsciiLowercase := rfl
    exact List.inj_on_of_nodup_map (hmap.symm ▸ hlower) hc hd heq

end IeumChain
