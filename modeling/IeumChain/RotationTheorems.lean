import IeumChain.LockTheorems
import IeumChain.Lib.Sets
import Mathlib.Data.List.Rotate

/-!
# Turns of the proposers

Every call keeps the validators, so the proposer of a machine is fixed by its height, its round and
the set of ids. The ids stand in ascending order whatever order the hash map goes over them, and the
turn is the place in that order counted modulo its length: consecutive turns are the members of the
rotated list, each of them once (`exists_unique_turn`).
-/

namespace IeumChain

open Lib

/-- Among consecutive turns of a cycle every member has exactly one. -/
lemma exists_unique_turn {α : Type} {members : List α} (hmembers : members.Nodup) {x : α}
    (hx : x ∈ members) (start : ℕ) :
    ∃! i, i < members.length ∧ members[(start + i) % members.length]? = some x := by
  have hturns : ∀ i < members.length,
      members[(start + i) % members.length]? = (members.rotate start)[i]? := by
    intro i hi
    rw [List.getElem?_rotate hi, Nat.add_comm]
  have hlength : (members.rotate start).length = members.length := List.length_rotate _ _
  have hnodup : (members.rotate start).Nodup := List.nodup_rotate.mpr hmembers
  obtain ⟨i, hi, hmine⟩ := List.getElem_of_mem (List.mem_rotate.mpr hx : x ∈ members.rotate start)
  have hsome : (members.rotate start)[i]? = some x := by
    rw [List.getElem?_eq_getElem hi, hmine]
  refine ⟨i, ⟨hlength ▸ hi, ?_⟩, ?_⟩
  · show members[(start + i) % members.length]? = some x
    rw [hturns i (hlength ▸ hi), hsome]
  · rintro j ⟨hj, hsame⟩
    rw [hturns j hj] at hsame
    exact ((List.getElem?_inj hi hnodup).mp (hsome.trans hsame.symm)).symm

namespace BftConsensus

/-- `expected_proposer` with the order in which the hash map goes over its keys: they are collected
in that order and sorted. -/
def expectedProposerOver (iteration : SetIteration String) (c : BftConsensus) : Result String := do
  let turn := (c.height.toNat - 1) + c.round.toNat
  ensure (turn < 2 ^ 64) "attempt to add with overflow"
  let ids := (iteration.order c.validators.keys).insertionSort (· ≤ ·)
  okOr ids[turn % ids.length]? "attempt to calculate the remainder with a divisor of zero"

/-- Sorting forgets the order of the hash map. -/
lemma expectedProposerOver_eq (iteration : SetIteration String) (c : BftConsensus) :
    c.expectedProposerOver iteration = c.expectedProposer := by
  have hsorted : (iteration.order c.validators.keys).insertionSort (· ≤ ·)
      = sortedList c.validators.keys := by
    refine List.Perm.eq_of_pairwise' (List.pairwise_insertionSort _ _) ?_ ?_
    · exact (pairwise_sortedList _).imp le_of_lt
    · refine (List.perm_insertionSort _ _).trans ?_
      rw [List.perm_ext_iff_of_nodup (iteration.nodup _) (nodup_sortedList _)]
      intro id
      rw [iteration.mem_order, mem_sortedList]
  rw [expectedProposerOver, expectedProposer, hsorted]

section
variable [Primitives]

/-! ## Runs keep the validators -/

lemma call_validators (c : BftConsensus) (x : Call) : (c.call x).validators = c.validators := by
  cases x with
  | startRound height round =>
    simp only [call]
    cases hc' : c.startRound height round with
    | error e => rfl
    | ok c' => rcases startRound_eq_ok hc' with ⟨_, rfl⟩ | ⟨_, _, rfl⟩ <;> rfl
  | handleProposal p =>
    simp only [call]
    cases hc' : c.handleProposal p with
    | error e => rfl
    | ok c' =>
      obtain ⟨_, _, _, _, _, rfl⟩ := handleProposal_eq_ok hc'
      rfl
  | handle m =>
    simp only [call]
    rcases hhandle : c.handle m with ⟨e | ⟨⟩, c'⟩
    · obtain ⟨s, rfl⟩ := handle_error hhandle
      rfl
    · obtain ⟨_, _, s, haccepts⟩ := handle_ok hhandle
      cases haccepts <;> rfl
  | onTimeout =>
    simp only [call]
    cases hc' : c.onTimeout with
    | error e => rfl
    | ok c' =>
      obtain ⟨round, _, hstart⟩ := onTimeout_eq_ok hc'
      rcases startRound_eq_ok hstart with ⟨_, rfl⟩ | ⟨_, _, rfl⟩ <;> rfl

lemma runCalls_validators (c : BftConsensus) (calls : List Call) :
    (c.runCalls calls).validators = c.validators := by
  unfold runCalls
  induction calls generalizing c with
  | nil => rfl
  | cons x rest ih => rw [List.foldl_cons, ih, call_validators]

/-! ## The proposer of a turn -/

/-- The ids of a validator set in the order of their turns. -/
def turnOrder (validators : List Validator) : List String := sortedList (idsOf validators)

omit [Primitives] in
lemma nodup_turnOrder (validators : List Validator) : (turnOrder validators).Nodup :=
  nodup_sortedList _

omit [Primitives] in
lemma keys_new {validators : List Validator} {c : BftConsensus} (h : new validators = .ok c) :
    c.validators.keys = idsOf validators := by
  ext id
  rw [Finmap.mem_keys, (runsFor_new h).registered.mem]

omit [Primitives] in
lemma length_turnOrder {validators : List Validator} {c : BftConsensus}
    (h : new validators = .ok c) : (turnOrder validators).length = validators.length := by
  have hperm : (turnOrder validators).Perm (validators.map Validator.id) := by
    rw [List.perm_ext_iff_of_nodup (nodup_turnOrder _) (runsFor_new h).registered.nodup]
    intro id
    rw [turnOrder, mem_sortedList, idsOf, List.mem_toFinset]
  rw [hperm.length_eq, List.length_map]

/-- The proposer in every state of a run: the id whose turn it is. -/
lemma expectedProposer_runCalls {validators : List Validator} {c : BftConsensus}
    (h : new validators = .ok c) (calls : List Call) {turn : ℕ} (hturn : turn < 2 ^ 64)
    (hplace : ((c.runCalls calls).height.toNat - 1) + (c.runCalls calls).round.toNat = turn) :
    (c.runCalls calls).expectedProposer =
      okOr (turnOrder validators)[turn % validators.length]?
        "attempt to calculate the remainder with a divisor of zero" := by
  rw [expectedProposer, hplace, runCalls_validators, keys_new h, ← length_turnOrder h, ensure,
    if_pos hturn]
  rfl

/-- Consecutive turns are taken by every validator once. -/
lemma exists_unique_proposer {validators : List Validator} {c : BftConsensus}
    (h : new validators = .ok c) {start : ℕ} (hstart : start + validators.length ≤ 2 ^ 64)
    (runs : ℕ → List Call)
    (hruns : ∀ i < validators.length, ((c.runCalls (runs i)).height.toNat - 1) +
      (c.runCalls (runs i)).round.toNat = start + i) {v : Validator} (hv : v ∈ validators) :
    ∃! i, i < validators.length ∧ (c.runCalls (runs i)).expectedProposer = .ok v.id := by
  have hmem : v.id ∈ turnOrder validators := by
    rw [turnOrder, mem_sortedList, idsOf, List.mem_toFinset]
    exact List.mem_map_of_mem hv
  have hunique := exists_unique_turn (nodup_turnOrder validators) hmem start
  rw [length_turnOrder h] at hunique
  have hexpected : ∀ i < validators.length,
      ((c.runCalls (runs i)).expectedProposer = .ok v.id ↔
        (turnOrder validators)[(start + i) % validators.length]? = some v.id) := by
    intro i hi
    rw [expectedProposer_runCalls h (runs i) (by omega) (hruns i hi), okOr_eq_ok]
  refine (existsUnique_congr fun i => ?_).mpr hunique
  exact and_congr_right fun hi => hexpected i hi

/-- **Proposers take turns.** The proposer of a machine that was made for a validator set depends
on the set, the height and the round alone: not on the order in which the set was listed, on the
order of the hash map, or on the run that led there. Over as many consecutive rounds of a height as
there are validators, and over as many consecutive heights at a round, every validator is expected
exactly once. -/
theorem proposer_rotation (validators : List Validator) (c : BftConsensus)
    (hnew : new validators = .ok c) :
    (∀ validators' c', validators'.Perm validators → new validators' = .ok c' →
      ∀ calls calls' iteration iteration',
        (c.runCalls calls).height = (c'.runCalls calls').height →
        (c.runCalls calls).round = (c'.runCalls calls').round →
        (c.runCalls calls).expectedProposerOver iteration =
          (c'.runCalls calls').expectedProposerOver iteration') ∧
      ∀ height round : ℕ, 1 ≤ height → height + round + validators.length < 2 ^ 64 →
        ∀ v ∈ validators, ∀ (runs : ℕ → List Call) (iteration : SetIteration String),
          ((∀ i < validators.length, (c.runCalls (runs i)).height.toNat = height ∧
              (c.runCalls (runs i)).round.toNat = round + i) →
            ∃! i, i < validators.length ∧
              (c.runCalls (runs i)).expectedProposerOver iteration = .ok v.id) ∧
          ((∀ i < validators.length, (c.runCalls (runs i)).height.toNat = height + i ∧
              (c.runCalls (runs i)).round.toNat = round) →
            ∃! i, i < validators.length ∧
              (c.runCalls (runs i)).expectedProposerOver iteration = .ok v.id) := by
  simp only [expectedProposerOver_eq]
  constructor
  · intro validators' c' hperm hnew' calls calls' _ _ hheight hround
    have hkeys : c'.validators.keys = c.validators.keys := by
      rw [keys_new hnew, keys_new hnew', idsOf, idsOf]
      exact List.toFinset_eq_of_perm _ _ (hperm.map _)
    rw [expectedProposer, expectedProposer, runCalls_validators, runCalls_validators, hkeys,
      hheight, hround]
  · intro height round hheight hbound v hv runs _
    have hstart : height - 1 + round + validators.length ≤ 2 ^ 64 := by omega
    constructor
    · intro hruns
      refine exists_unique_proposer hnew hstart runs ?_ hv
      intro i hi
      obtain ⟨hh, hr⟩ := hruns i hi
      omega
    · intro hruns
      refine exists_unique_proposer hnew hstart runs ?_ hv
      intro i hi
      obtain ⟨hh, hr⟩ := hruns i hi
      omega

end

section
attribute [local instance] Devnet.primitives

lemma runCalls_startRound {validators : List Validator} {c : BftConsensus}
    (h : new validators = .ok c) {height : UInt64} (hheight : 0 < height) (round : UInt32) :
    (c.runCalls [.startRound height round]).height = height ∧
      (c.runCalls [.startRound height round]).round = round := by
  obtain ⟨map, _, _, rfl⟩ := new_eq_ok h
  rw [runCalls, List.foldl_cons, List.foldl_nil, call, startRound, ensure]
  simp [waiting, hheight, getOk]

/-- Two validators, listed in both orders, in two rounds of the first height. -/
theorem proposer_rotation_pair : ∃ c c',
    new [⟨"b", 1⟩, ⟨"a", 2⟩] = .ok c ∧ new [⟨"a", 2⟩, ⟨"b", 1⟩] = .ok c' ∧
      (c.runCalls [.startRound 1 7]).expectedProposerOver .sorted =
        (c'.runCalls [.startRound 1 7]).expectedProposerOver .sorted ∧
      ∃! i, i < 2 ∧ (c.runCalls [.startRound 1 (UInt32.ofNat (7 + i))]).expectedProposerOver
        .sorted = .ok "b" := by
  obtain ⟨c, hc⟩ : ∃ c, new [⟨"b", 1⟩, ⟨"a", 2⟩] = .ok c := ⟨_, rfl⟩
  obtain ⟨c', hc'⟩ : ∃ c, new [⟨"a", 2⟩, ⟨"b", 1⟩] = .ok c := ⟨_, rfl⟩
  obtain ⟨hagreed, hfair⟩ := proposer_rotation [⟨"b", 1⟩, ⟨"a", 2⟩] c hc
  have hone : (0 : UInt64) < 1 := by decide
  refine ⟨c, c', hc, hc', ?_, ?_⟩
  · refine hagreed _ c' (List.Perm.swap _ _ _) hc' _ _ _ _ ?_ ?_
    · rw [(runCalls_startRound hc hone 7).1, (runCalls_startRound hc' hone 7).1]
    · rw [(runCalls_startRound hc hone 7).2, (runCalls_startRound hc' hone 7).2]
  · refine (hfair 1 7 (le_refl 1) (by decide) ⟨"b", 1⟩ List.mem_cons_self
      (fun i => [.startRound 1 (UInt32.ofNat (7 + i))]) .sorted).1 ?_
    intro i hi
    obtain ⟨hheight, hround⟩ := runCalls_startRound hc hone (UInt32.ofNat (7 + i))
    have hfits : 7 + i < 2 ^ 32 := by
      have htwo : i < 2 := hi
      omega
    refine ⟨?_, ?_⟩
    · rw [hheight]
      rfl
    · rw [hround, UInt32.toNat_ofNat_of_lt' hfits]

end

end BftConsensus

end IeumChain
