import IeumChain.AccountabilityTheorems
import IeumChain.LockTheorems
import IeumChain.Lib.Json
import IeumChain.Lib.Text

/-!
# Double votes

`BftConsensus` remembers the first vote of every validator in every step and refuses a different
one, even when the first was not for the proposal. `Trace` follows a machine through any calls and
keeps, next to it, the votes that passed the checks of `handle` and the evidence handed out. What
the machine remembers is a function of those votes (`Recorded`), so two votes that conflict always
leave evidence, and the later one is never counted (`evidence_complete`).
-/

namespace IeumChain

open Lib

/-! ## The id of an evidence -/

namespace DoubleVoteEvidence

/-- The name of a vote type in an id. -/
def typeName : VoteType → String
  | .prevote => "Prevote"
  | .precommit => "Precommit"

lemma typeName_inj : ∀ t t', typeName t = typeName t' → t = t' := by
  intro t t' h
  cases t <;> cases t' <;> first | rfl | exact absurd h (by decide)

lemma textBytes_id (e : DoubleVoteEvidence) :
    textBytes e.id = textBytes e.first.validatorId ++ 0x3a :: (Json.decimal e.first.height.toNat ++
      0x3a :: (Json.decimal e.first.round.toNat ++
        0x3a :: textBytes (typeName e.first.voteType))) := by
  have hcolon : textBytes ":" = [0x3a] := by decide
  have hid : e.id = e.first.validatorId ++ ":" ++ toString e.first.height.toNat ++ ":" ++
      toString e.first.round.toNat ++ ":" ++ typeName e.first.voteType := rfl
  rw [hid]
  simp only [textBytes_append, hcolon, Json.decimal, List.append_assoc, List.cons_append,
    List.nil_append]

variable [Primitives]

/-- A validator that signed has a name without a colon. -/
lemma colon_notMem {m : ConsensusMessage} (h : m.verify = .ok ()) :
    0x3a ∉ textBytes m.validatorId := by
  simp only [ConsensusMessage.verify, verifySignature, bind_eq_ok, okOr_eq_ok] at h
  obtain ⟨key, hkey, _⟩ := h
  intro hmem
  have hhex := List.all_eq_true.mp (all_hex_of_hexDecode hkey) _ hmem
  exact absurd hhex (by decide)

/-- So the id of an evidence determines the place of its votes. -/
lemma historyKey_eq_of_id_eq {e e' : DoubleVoteEvidence} (h : e.first.verify = .ok ())
    (h' : e'.first.verify = .ok ()) (hid : e.id = e'.id) :
    BftConsensus.historyKey e.first = BftConsensus.historyKey e'.first := by
  have hbytes := congrArg textBytes hid
  rw [textBytes_id, textBytes_id] at hbytes
  -- the first colon is at the same place
  have hlength := congrArg (List.idxOf 0x3a) hbytes
  rw [List.idxOf_append_of_notMem (colon_notMem h), List.idxOf_append_of_notMem (colon_notMem h'),
    List.idxOf_cons_self, List.idxOf_cons_self, add_zero, add_zero] at hlength
  obtain ⟨hvalidator, hrest⟩ := append_inj_of_length hlength hbytes
  obtain ⟨hheight, hrest⟩ := Json.decimal_append_inj (by decide) (List.cons.inj hrest).2
  obtain ⟨hround, htype⟩ := Json.decimal_append_inj (by decide) hrest
  simp only [BftConsensus.historyKey, Prod.mk.injEq]
  exact ⟨UInt64.toNat_inj.mp hheight, UInt32.toNat_inj.mp hround,
    typeName_inj _ _ (textBytes_inj.mp htype), textBytes_inj.mp hvalidator⟩

end DoubleVoteEvidence

namespace BftConsensus
variable [Primitives]

/-! ## Runs -/

/-- The public operations that change a machine. -/
inductive Action where
  | call (c : Call)
  | takeEvidence

/-- The vote a call passes to a machine that takes it: for its height and round, of a registered
validator, signed, and of a type its phase admits. -/
def admitted (c : BftConsensus) : Call → List ConsensusMessage
  | .handle m => if isOk (c.checkVote m) then [m] else []
  | _ => []

/-- A machine with its past: the votes `handle` admitted and the evidence returned. -/
structure Trace where
  machine : BftConsensus
  votes : List ConsensusMessage
  taken : List DoubleVoteEvidence

namespace Trace

def act (t : Trace) : Action → Trace
  | .call c => { t with machine := t.machine.call c, votes := t.votes ++ t.machine.admitted c }
  | .takeEvidence =>
    { t with machine := t.machine.takeEvidence.2
             taken := t.taken ++ t.machine.takeEvidence.1 }

/-- The first vote of a place. -/
def firstVote (t : Trace) (key : VoteKey) : Option ConsensusMessage :=
  t.votes.find? fun m => decide (historyKey m = key)

/-- The evidence recorded so far, returned or not. -/
def evidence (t : Trace) : List DoubleVoteEvidence := t.taken ++ t.machine.evidence

end Trace

/-- A run of a machine. -/
def trace (c : BftConsensus) (actions : List Action) : Trace :=
  actions.foldl Trace.act { machine := c, votes := [], taken := [] }

lemma trace_concat (c : BftConsensus) (actions : List Action) (action : Action) :
    c.trace (actions ++ [action]) = (c.trace actions).act action := by
  rw [trace, List.foldl_append, List.foldl_cons, List.foldl_nil, trace]

omit [Primitives] in
lemma firstVote_eq_some {t : Trace} {key : VoteKey} {first : ConsensusMessage}
    (h : t.firstVote key = some first) : first ∈ t.votes ∧ historyKey first = key := by
  refine ⟨List.mem_of_find?_eq_some h, ?_⟩
  have hkey := List.find?_some h
  exact of_decide_eq_true hkey

/-- The first vote of a place stays the first. -/
lemma firstVote_append {c : BftConsensus} {actions : List Action} {key : VoteKey}
    {first : ConsensusMessage} (h : (c.trace actions).firstVote key = some first)
    (rest : List Action) : (c.trace (actions ++ rest)).firstVote key = some first := by
  induction rest using List.reverseRecOn with
  | nil => rwa [List.append_nil]
  | append_singleton rest action ih =>
    rw [← List.append_assoc, trace_concat]
    cases action with
    | takeEvidence => exact ih
    | call c' => exact (List.find?_append).trans (by rw [show List.find? _ _ = _ from ih]; rfl)

/-! ## What a machine remembers -/

/-- The memory of a machine is that of the votes it was given: the first one of each place. Who
counts for a block in the current round remembered that block, and votes that differ from the first
one have left evidence. -/
structure Recorded (validators : List Validator) (t : Trace) : Prop where
  registered : ∀ id, id ∈ t.machine.validators ↔ id ∈ idsOf validators
  signed : ∀ m ∈ t.votes, m.verify = .ok () ∧ m.validatorId ∈ idsOf validators
  history : ∀ key, t.machine.voteHistory.lookup key
    = (t.firstVote key).map ConsensusMessage.blockHash
  messages : ∀ key, t.machine.voteMessages.lookup key = t.firstVote key
  sound : ∀ e ∈ t.evidence, e.verify = .ok () ∧ e.first.validatorId ∈ idsOf validators
  complete : ∀ m ∈ t.votes, ∀ first, t.firstVote (historyKey m) = some first →
    first.blockHash ≠ m.blockHash → ∃ e ∈ t.evidence, historyKey e.first = historyKey m
  counted : ∀ voteType hash id, id ∈ t.machine.voters (voteType, hash) →
    t.machine.voteHistory.lookup (t.machine.height, t.machine.round, voteType, id) = some hash

lemma recorded_new {validators : List Validator} {c : BftConsensus} (h : new validators = .ok c) :
    Recorded validators (c.trace []) := by
  obtain ⟨map, hr, _, rfl⟩ := new_eq_ok h
  exact ⟨hr.mem, List.forall_mem_nil _, fun _ => rfl, fun _ => rfl, List.forall_mem_nil _,
    List.forall_mem_nil _, fun _ _ _ hid => absurd hid (Finset.notMem_empty _)⟩

variable {validators : List Validator} {t : Trace}

/-- A change that leaves the memory alone has to account for the votes counted only. -/
lemma Recorded.of_same (hr : Recorded validators t) {c : BftConsensus}
    (hvalidators : c.validators = t.machine.validators)
    (hhistory : c.voteHistory = t.machine.voteHistory)
    (hmessages : c.voteMessages = t.machine.voteMessages)
    (hevidence : c.evidence = t.machine.evidence)
    (hcounted : ∀ voteType hash id, id ∈ c.voters (voteType, hash) →
      t.machine.voteHistory.lookup (c.height, c.round, voteType, id) = some hash) :
    Recorded validators { t with machine := c } := by
  have heq : ({ t with machine := c } : Trace).evidence = t.evidence := by
    rw [Trace.evidence, Trace.evidence, hevidence]
  refine ⟨?_, hr.signed, ?_, ?_, ?_, ?_, ?_⟩
  · rw [hvalidators]
    exact hr.registered
  · rw [hhistory]
    exact hr.history
  · rw [hmessages]
    exact hr.messages
  · rw [heq]
    exact hr.sound
  · rw [heq]
    exact hr.complete
  · rw [hhistory]
    exact hcounted

lemma Recorded.startRound (hr : Recorded validators t) {c : BftConsensus} {height : UInt64}
    {round : UInt32} (h : t.machine.startRound height round = .ok c) :
    Recorded validators { t with machine := c } := by
  rcases startRound_eq_ok h with ⟨_, rfl⟩ | ⟨_, _, rfl⟩
  · exact hr.of_same rfl rfl rfl rfl fun _ _ _ hid => absurd hid (Finset.notMem_empty _)
  · exact hr.of_same rfl rfl rfl rfl fun _ _ _ hid => absurd hid (Finset.notMem_empty _)

lemma Recorded.handleProposal (hr : Recorded validators t) {c : BftConsensus} {p : SignedProposal}
    (h : t.machine.handleProposal p = .ok c) : Recorded validators { t with machine := c } := by
  obtain ⟨_, _, _, _, _, rfl⟩ := handleProposal_eq_ok h
  exact hr.of_same rfl rfl rfl rfl hr.counted

lemma Recorded.takeEvidence (hr : Recorded validators t) :
    Recorded validators (t.act .takeEvidence) := by
  have heq : (t.act .takeEvidence).evidence = t.evidence := List.append_nil _
  refine ⟨hr.registered, hr.signed, hr.history, hr.messages, ?_, ?_, hr.counted⟩
  · rw [heq]
    exact hr.sound
  · rw [heq]
    exact hr.complete

/-! ## One vote -/

omit [Primitives] in
lemma firstVote_append_votes (t : Trace) (c : BftConsensus) (m : ConsensusMessage) (key : VoteKey) :
    ({ t with machine := c, votes := t.votes ++ [m] } : Trace).firstVote key
      = (t.firstVote key).or (if historyKey m = key then some m else none) := by
  rw [Trace.firstVote, List.find?_append, Trace.firstVote, List.find?_singleton]
  simp only [decide_eq_true_eq]

/-- The first vote of its place is remembered. -/
lemma Recorded.first (hr : Recorded validators t) {m : ConsensusMessage}
    (hsigned : m.verify = .ok () ∧ m.validatorId ∈ idsOf validators)
    (hnone : t.firstVote (historyKey m) = none) :
    Recorded validators { t with
      machine := { t.machine with
        voteHistory := t.machine.voteHistory.insert (historyKey m) m.blockHash
        voteMessages := t.machine.voteMessages.insert (historyKey m) m }
      votes := t.votes ++ [m] } := by
  have hvote := firstVote_append_votes t { t.machine with
    voteHistory := t.machine.voteHistory.insert (historyKey m) m.blockHash
    voteMessages := t.machine.voteMessages.insert (historyKey m) m } m
  -- the history changes at one place only
  have hother : ∀ key, key ≠ historyKey m →
      (t.firstVote key).or (if historyKey m = key then some m else none) = t.firstVote key := by
    intro key hne
    rw [if_neg (Ne.symm hne), Option.or_none]
  refine ⟨hr.registered, ?_, ?_, ?_, hr.sound, ?_, ?_⟩
  · exact List.forall_mem_append.mpr ⟨hr.signed, List.forall_mem_singleton.mpr hsigned⟩
  · intro key
    rw [hvote, HashMap.lookup_insert]
    by_cases hkey : key = historyKey m
    · rw [if_pos hkey, hkey, hnone, if_pos rfl]
      rfl
    · rw [if_neg hkey, hother key hkey]
      exact hr.history key
  · intro key
    rw [hvote, HashMap.lookup_insert]
    by_cases hkey : key = historyKey m
    · rw [if_pos hkey, hkey, hnone, if_pos rfl]
      rfl
    · rw [if_neg hkey, hother key hkey]
      exact hr.messages key
  · intro m' hm' first hfirst hhash
    rw [hvote] at hfirst
    by_cases hkey : historyKey m' = historyKey m
    · -- the only vote of the place is the new one
      rw [hkey, hnone, if_pos rfl] at hfirst
      obtain rfl := Option.some.inj hfirst
      rcases List.mem_append.mp hm' with hmem | hmem
      · have hfind := List.find?_eq_none.mp hnone m' hmem
        exact absurd (decide_eq_true hkey) hfind
      · exact absurd (congrArg ConsensusMessage.blockHash (List.mem_singleton.mp hmem).symm) hhash
    · rw [hother _ hkey] at hfirst
      rcases List.mem_append.mp hm' with hmem | hmem
      · exact hr.complete m' hmem first hfirst hhash
      · exact absurd (congrArg historyKey (List.mem_singleton.mp hmem)) hkey
  · intro voteType hash id hid
    have hheld := hr.counted voteType hash id hid
    have hempty := hr.history (historyKey m)
    rw [hnone] at hempty
    -- a vote that was counted has its place in the history, and the new one's is still free
    have hne : (t.machine.height, t.machine.round, voteType, id) ≠ historyKey m := by
      intro heq
      rw [heq, hempty] at hheld
      cases hheld
    exact (HashMap.lookup_insert _ _ _ _).trans ((if_neg hne).trans hheld)

/-- A later vote of a place adds evidence at most. -/
lemma Recorded.again (hr : Recorded validators t) {m first : ConsensusMessage}
    (hsigned : m.verify = .ok () ∧ m.validatorId ∈ idsOf validators)
    (hfirst : t.firstVote (historyKey m) = some first) {evidence : List DoubleVoteEvidence}
    (hsub : t.machine.evidence ⊆ evidence)
    (hsound : ∀ e ∈ evidence, e.verify = .ok () ∧ e.first.validatorId ∈ idsOf validators)
    (hcomplete : first.blockHash ≠ m.blockHash →
      ∃ e ∈ evidence, historyKey e.first = historyKey m) :
    Recorded validators { t with machine := { t.machine with evidence }
                                 votes := t.votes ++ [m] } := by
  -- a later vote of a place does not change the first one
  have hvote : ∀ key, ({ t with machine := { t.machine with evidence }
                                votes := t.votes ++ [m] } : Trace).firstVote key
      = t.firstVote key := by
    intro key
    rw [firstVote_append_votes]
    by_cases hkey : historyKey m = key
    · rw [← hkey, hfirst]
      rfl
    · rw [if_neg hkey, Option.or_none]
  refine ⟨hr.registered, ?_, ?_, ?_, ?_, ?_, hr.counted⟩
  · exact List.forall_mem_append.mpr ⟨hr.signed, List.forall_mem_singleton.mpr hsigned⟩
  · exact fun key => by rw [hvote]; exact hr.history key
  · exact fun key => by rw [hvote]; exact hr.messages key
  · intro e he
    rcases List.mem_append.mp he with hmem | hmem
    · exact hr.sound e (List.mem_append_left _ hmem)
    · exact hsound e hmem
  · intro m' hm' first' hfirst' hhash
    rw [hvote] at hfirst'
    rcases List.mem_append.mp hm' with hmem | hmem
    · obtain ⟨e, he, hkey⟩ := hr.complete m' hmem first' hfirst' hhash
      refine ⟨e, ?_, hkey⟩
      rcases List.mem_append.mp he with hmem' | hmem'
      · exact List.mem_append_left _ hmem'
      · exact List.mem_append_right _ (hsub hmem')
    · rw [List.mem_singleton.mp hmem] at hfirst' hhash ⊢
      rw [hfirst] at hfirst'
      obtain rfl := Option.some.inj hfirst'
      obtain ⟨e, he, hkey⟩ := hcomplete hhash
      exact ⟨e, List.mem_append_right _ he, hkey⟩

/-- Two votes that conflict make evidence, unless evidence with its id is there. -/
lemma addEvidence_of_conflict {c : BftConsensus} {first m : ConsensusMessage}
    (hmessage : c.voteMessages.lookup (historyKey m) = some first)
    (hnew : isOk (DoubleVoteEvidence.new first m) = true) :
    DoubleVoteEvidence.verify ⟨first, m⟩ = .ok () ∧
    c.addEvidence m = { c with evidence :=
      if (⟨first, m⟩ : DoubleVoteEvidence).id ∈ c.evidence.map DoubleVoteEvidence.id then c.evidence
      else c.evidence ++ [⟨first, m⟩] } := by
  obtain ⟨e, he⟩ := isOk_iff.mp hnew
  have hok := he
  simp only [DoubleVoteEvidence.new, bind_eq_ok, pure_eq_ok] at hok
  obtain ⟨_, hverify, rfl⟩ := hok
  refine ⟨hverify, ?_⟩
  rw [addEvidence, hmessage]
  simp only [he]
  split
  · rfl
  · rfl

/-- What `handle` remembers of a vote that passed its checks. A vote that is not refused here is
for the remembered block. -/
lemma Recorded.recordVote (hr : Recorded validators t) {m : ConsensusMessage}
    (h : t.machine.checkVote m = .ok ()) :
    Recorded validators { t with machine := (t.machine.recordVote m).2, votes := t.votes ++ [m] } ∧
    ((t.machine.recordVote m).1 = .ok () →
      (t.machine.recordVote m).2.voteHistory.lookup (historyKey m) = some m.blockHash) := by
  obtain ⟨_, hmem, hverify, _⟩ := checkVote_eq_ok.mp h
  have hsigned := And.intro hverify ((hr.registered _).mp hmem)
  have hhistory := hr.history (historyKey m)
  cases hfirst : t.firstVote (historyKey m) with
  | none =>
    rw [hfirst, Option.map_none] at hhistory
    simp only [BftConsensus.recordVote, hhistory]
    exact ⟨hr.first hsigned hfirst, fun _ => HashMap.lookup_insert_self _ _ _⟩
  | some first =>
    rw [hfirst, Option.map_some] at hhistory
    have hold : ∀ e ∈ t.machine.evidence,
        e.verify = .ok () ∧ e.first.validatorId ∈ idsOf validators :=
      fun e he => hr.sound e (List.mem_append_right _ he)
    simp only [BftConsensus.recordVote, hhistory]
    by_cases hhash : first.blockHash = m.blockHash
    · rw [if_pos hhash]
      refine ⟨hr.again hsigned hfirst (List.Subset.refl _) hold (absurd hhash), fun _ => ?_⟩
      rw [hhistory, hhash]
    · rw [if_neg hhash]
      obtain ⟨hmemFirst, hkey⟩ := firstVote_eq_some hfirst
      obtain ⟨hfirstVerify, hfirstMem⟩ := hr.signed first hmemFirst
      have hplace := hkey
      simp only [historyKey, Prod.mk.injEq] at hplace
      obtain ⟨hheight, hround, htype, hid⟩ := hplace
      obtain ⟨hok, heq⟩ := addEvidence_of_conflict ((hr.messages _).trans hfirst)
        (DoubleVoteEvidence.new_isOk hfirstVerify hverify hheight hround htype hid hhash)
      refine ⟨?_, fun hfalse => by cases hfalse⟩
      simp only [heq]
      split
      next hknown =>
        -- the known evidence with the id is about the same place
        obtain ⟨known, hknown, hidEq⟩ := List.mem_map.mp hknown
        refine hr.again hsigned hfirst (List.Subset.refl _) hold fun _ => ⟨known, hknown, ?_⟩
        have hknownVerify := (hold known hknown).1
        simp only [DoubleVoteEvidence.verify, bind_eq_ok] at hknownVerify
        obtain ⟨_, hknownFirst, _⟩ := hknownVerify
        have hconflict : (DoubleVoteEvidence.mk first m).first.verify = .ok () := hfirstVerify
        have hsame := DoubleVoteEvidence.historyKey_eq_of_id_eq hknownFirst hconflict hidEq
        exact hsame.trans hkey
      next =>
        refine hr.again hsigned hfirst (List.subset_append_left _ _) ?_ fun _ =>
          ⟨⟨first, m⟩, List.mem_append_right _ (List.mem_singleton_self _), hkey⟩
        exact List.forall_mem_append.mpr
          ⟨hold, List.forall_mem_singleton.mpr ⟨hok, hfirstMem⟩⟩

/-- A vote that is accepted counts for the block it is remembered for. -/
lemma Recorded.accepts (hr : Recorded validators t) {m : ConsensusMessage} {c : BftConsensus}
    (hplace : m.height = t.machine.height ∧ m.round = t.machine.round)
    (hheld : t.machine.voteHistory.lookup (historyKey m) = some m.blockHash)
    (h : Accepts t.machine m c) : Recorded validators { t with machine := c } := by
  have hcounted : ∀ voteType hash id, id ∈ (t.machine.addVoter m).voters (voteType, hash) →
      t.machine.voteHistory.lookup (t.machine.height, t.machine.round, voteType, id)
        = some hash := by
    intro voteType hash id hid
    rw [voters_addVoter] at hid
    split at hid
    next hkey =>
      obtain ⟨rfl, rfl⟩ := Prod.mk.inj hkey
      rcases Finset.mem_insert.mp hid with rfl | hid
      · rwa [← hplace.1, ← hplace.2]
      · exact hr.counted _ _ _ hid
    next => exact hr.counted _ _ _ hid
  cases h with
  | counted => exact hr.of_same rfl rfl rfl rfl hcounted
  | locked => exact hr.of_same rfl rfl rfl rfl hcounted
  | finalized => exact hr.of_same rfl rfl rfl rfl hcounted

lemma Recorded.handle (hr : Recorded validators t) (m : ConsensusMessage) :
    Recorded validators (t.act (.call (.handle m))) := by
  rw [Trace.act, BftConsensus.call, admitted]
  cases hcheck : t.machine.checkVote m with
  | error e =>
    have heq : t.machine.handle m = (.error e, t.machine) := by rw [BftConsensus.handle, hcheck]
    rw [heq, isOk, if_neg Bool.false_ne_true, List.append_nil]
    exact hr
  | ok u =>
    obtain ⟨hrecord, hheld⟩ := hr.recordVote hcheck
    obtain ⟨hplace, _⟩ := checkVote_eq_ok.mp hcheck
    obtain ⟨s, hs⟩ := recordVote_records t.machine m
    rw [isOk, if_pos rfl]
    rcases hvote : t.machine.recordVote m with ⟨e | u, c⟩
    · have heq : t.machine.handle m = (.error e, c) := by
        simp only [BftConsensus.handle, hcheck, hvote]
      rw [heq]
      rw [hvote] at hrecord
      exact hrecord
    · rw [hvote] at hrecord hheld hs
      have heq : (t.machine.handle m).2
          = if c.proposal = some m.blockHash then c.acceptVote m else c := by
        simp only [BftConsensus.handle, hcheck, hvote]
        split <;> rfl
      rw [heq]
      split
      · refine hrecord.accepts ?_ (hheld rfl) (acceptVote_accepts c m)
        simp only at hs ⊢
        rw [hs]
        exact hplace
      · exact hrecord

/-- What a machine remembers after any run. -/
lemma recorded_trace {c : BftConsensus} (h : new validators = .ok c) (actions : List Action) :
    Recorded validators (c.trace actions) := by
  induction actions using List.reverseRecOn with
  | nil => exact recorded_new h
  | append_singleton actions action ih =>
    rw [trace_concat]
    have hgetOk : ∀ {x : Result BftConsensus}, (∀ c', x = .ok c' →
        Recorded validators { c.trace actions with machine := c' }) →
        Recorded validators { c.trace actions with
          machine := getOk x (c.trace actions).machine, votes := (c.trace actions).votes ++ [] } := by
      intro x hx
      rw [List.append_nil]
      cases x with
      | error e => exact ih
      | ok c' => exact hx c' rfl
    cases action with
    | takeEvidence => exact ih.takeEvidence
    | call c' =>
      cases c' with
      | startRound height round => exact hgetOk fun _ hok => ih.startRound hok
      | handleProposal p => exact hgetOk fun _ hok => ih.handleProposal hok
      | handle m => exact ih.handle m
      | onTimeout =>
        refine hgetOk fun _ hok => ?_
        obtain ⟨_, _, hstart⟩ := onTimeout_eq_ok hok
        exact ih.startRound hstart

/-! ## Completeness -/

/-- **Double votes leave evidence and are never counted.** In every run of a new machine: the
evidence returned verifies and names a registered validator; of two votes of one place for different
blocks that both passed the checks of `handle`, evidence of that place is recorded; and a vote that
passes the checks but differs from the first one of its place is answered with an error, changes
the records only, and its validator counts for its block in no state at that height and round. -/
theorem evidence_complete (validators : List Validator) (c : BftConsensus)
    (h : new validators = .ok c) (actions : List Action) :
    (∀ e ∈ (c.trace actions).taken, e.verify = .ok () ∧ e.first.validatorId ∈ idsOf validators) ∧
    (∀ m ∈ (c.trace actions).votes, ∀ m' ∈ (c.trace actions).votes, historyKey m = historyKey m' →
      m.blockHash ≠ m'.blockHash →
        ∃ e ∈ (c.trace actions).evidence, e.verify = .ok () ∧ historyKey e.first = historyKey m) ∧
    ∀ before m rest, actions = before ++ .call (.handle m) :: rest →
      (c.trace before).machine.checkVote m = .ok () →
        ∀ first, (c.trace before).firstVote (historyKey m) = some first →
          first.blockHash ≠ m.blockHash →
            (∃ e s, (c.trace before).machine.handle m
              = (.error e, (c.trace before).machine.withRecords s)) ∧
            ∀ done rest, actions = done ++ rest → (c.trace done).machine.height = m.height →
              (c.trace done).machine.round = m.round →
                m.validatorId ∉ (c.trace done).machine.voters (m.voteType, m.blockHash) := by
  have hr := recorded_trace h
  refine ⟨fun e he => (hr actions).sound e (List.mem_append_left _ he), ?_, ?_⟩
  · intro m hm m' hm' hkey hhash
    have hsome : ∃ first, (c.trace actions).firstVote (historyKey m) = some first := by
      apply Option.isSome_iff_exists.mp
      exact List.find?_isSome.mpr ⟨m, hm, decide_eq_true rfl⟩
    obtain ⟨first, hfirst⟩ := hsome
    -- one of the two differs from the first vote of the place
    have hleft : ∃ e ∈ (c.trace actions).evidence, historyKey e.first = historyKey m := by
      by_cases hdiffers : first.blockHash = m.blockHash
      · rw [hkey] at hfirst ⊢
        exact (hr actions).complete m' hm' first hfirst (hdiffers ▸ hhash)
      · exact (hr actions).complete m hm first hfirst hdiffers
    obtain ⟨e, he, heq⟩ := hleft
    exact ⟨e, he, ((hr actions).sound e he).1, heq⟩
  · intro before m rest hsplit hcheck first hfirst hhash
    constructor
    · have hhistory := (hr before).history (historyKey m)
      rw [hfirst, Option.map_some] at hhistory
      have hrefused : ∃ e, ((c.trace before).machine.handle m).1 = .error e := by
        simp only [BftConsensus.handle, hcheck, BftConsensus.recordVote, hhistory, if_neg hhash]
        exact ⟨_, rfl⟩
      obtain ⟨e, he⟩ := hrefused
      obtain ⟨s, hs⟩ := handle_error (Prod.ext he rfl)
      exact ⟨e, s, Prod.ext he hs⟩
    · intro done rest' hsplit' hheight hround hmem
      have hheld := (hr done).counted _ _ _ hmem
      rw [hheight, hround, (hr done).history] at hheld
      obtain ⟨other, hother, hblock⟩ := Option.map_eq_some_iff.mp hheld
      -- both are the first vote of the place in the whole run
      have hlast := firstVote_append hfirst (.call (.handle m) :: rest)
      have hlast' := firstVote_append hother rest'
      rw [← hsplit] at hlast
      rw [← hsplit'] at hlast'
      obtain rfl := Option.some.inj (hlast.symm.trans hlast')
      exact hhash hblock

end BftConsensus

/-! ### A validator that prevotes twice -/

namespace Devnet
attribute [local instance] primitives

/-- The validator's machine before its first round. -/
def machine : BftConsensus := BftConsensus.waiting (HashMap.ofList [(validator, 100)]) 100

lemma new_machine : BftConsensus.new [self] = .ok machine := rfl

/-- A proposal comes, then the prevote for another block and the one for the proposal. -/
def twoPrevotes : List BftConsensus.Action :=
  [.call (.startRound 1 0), .call (.handleProposal firstProposal), .call (.handle rivalPrevote),
    .call (.handle firstPrevote)]

/-- The machine with the proposal. -/
def proposed : BftConsensus :=
  { node.consensus with proposal := some first.hash, phase := .prevote }

lemma trace_proposed :
    machine.trace [.call (.startRound 1 0), .call (.handleProposal firstProposal)]
      = ⟨proposed, [], []⟩ := by
  have hproposal := node_fresh.handleProposal (p := firstProposal) rfl rfl rfl
    (verify_proposal (by simp [proposals]) first_hash)
  have hopen : machine.trace [.call (.startRound 1 0)] = ⟨node.consensus, [], []⟩ := rfl
  have hconcat := machine.trace_concat [.call (.startRound 1 0)]
    (.call (.handleProposal firstProposal))
  rw [hopen] at hconcat
  refine hconcat.trans ?_
  simp only [BftConsensus.Trace.act, BftConsensus.call, hproposal, getOk_ok]
  rfl

/-- Both prevotes are admitted in the round, whatever the machine remembers. -/
lemma admitted_twice {m : ConsensusMessage} (hm : m = rivalPrevote ∨ m = firstPrevote)
    (s : BftConsensus.Records) : (proposed.withRecords s).admitted (.handle m) = [m] := by
  have hvote : m ∈ votes := by rcases hm with rfl | rfl <;> simp [votes]
  have hcheck : (proposed.withRecords s).checkVote m = .ok () := by
    refine BftConsensus.checkVote_eq_ok.mpr ⟨?_, ?_, verify_vote m hvote, ?_⟩
    · rcases hm with rfl | rfl <;> exact ⟨rfl, rfl⟩
    · have hid : m.validatorId = self.id := by rcases hm with rfl | rfl <;> rfl
      exact (node_fresh.solo.mem_iff _).mpr hid
    · rcases hm with rfl | rfl <;> rfl
  rw [BftConsensus.admitted, hcheck]
  rfl

lemma twoPrevotes_votes : (machine.trace twoPrevotes).votes = [rivalPrevote, firstPrevote] := by
  have hother : proposed.proposal ≠ some rivalPrevote.blockHash := by
    intro h
    exact absurd (hexEncode_inj (Option.some.inj h)) (by decide)
  have hrefused : ∃ s, (proposed.handle rivalPrevote).2 = proposed.withRecords s := by
    rcases hvote : proposed.handle rivalPrevote with ⟨e | u, c⟩
    · exact BftConsensus.handle_error hvote
    · obtain ⟨_, hproposal, _⟩ := BftConsensus.handle_ok hvote
      exact absurd hproposal hother
  obtain ⟨s, hs⟩ := hrefused
  have hrival : machine.trace [.call (.startRound 1 0), .call (.handleProposal firstProposal),
      .call (.handle rivalPrevote)] = ⟨proposed.withRecords s, [rivalPrevote], []⟩ := by
    have hconcat := machine.trace_concat
      [.call (.startRound 1 0), .call (.handleProposal firstProposal)]
      (.call (.handle rivalPrevote))
    have hadmitted := admitted_twice (m := rivalPrevote) (.inl rfl)
      ⟨proposed.voteHistory, proposed.voteMessages, proposed.evidence⟩
    rw [BftConsensus.withRecords_self] at hadmitted
    rw [trace_proposed] at hconcat
    refine hconcat.trans ?_
    simp only [BftConsensus.Trace.act, BftConsensus.call, hs, hadmitted, List.nil_append]
  have hconcat := machine.trace_concat [.call (.startRound 1 0),
    .call (.handleProposal firstProposal), .call (.handle rivalPrevote)]
    (.call (.handle firstPrevote))
  rw [hrival] at hconcat
  have hvotes := congrArg BftConsensus.Trace.votes hconcat
  refine hvotes.trans ?_
  simp only [BftConsensus.Trace.act, admitted_twice (.inr rfl), List.singleton_append]

/-- The validator is convicted although the first of the two votes was refused. -/
theorem evidence_complete_twoPrevotes :
    ∃ e ∈ (machine.trace twoPrevotes).evidence, e.verify = .ok () ∧
      BftConsensus.historyKey e.first = (1, 0, .prevote, validator) := by
  obtain ⟨_, hcomplete, _⟩ := BftConsensus.evidence_complete [self] machine new_machine twoPrevotes
  rw [twoPrevotes_votes] at hcomplete
  refine hcomplete rivalPrevote List.mem_cons_self firstPrevote (by simp) rfl ?_
  intro h
  exact absurd (hexEncode_inj h) (by decide)

end Devnet

end IeumChain
