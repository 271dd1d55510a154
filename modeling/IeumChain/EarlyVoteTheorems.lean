import IeumChain.Lib.Window
import IeumChain.NodeLoop
import IeumChain.Devnet

/-!
# Votes that come before the proposal

A node that waits for a proposal keeps the votes of the round for later, 1024 at most, and drops
the oldest for a new one. Two votes of one validator are both kept when their block hashes differ,
so a single validator fills the queue. An honest vote stays as long as no new one finds the queue
full with the honest vote in front (`early_vote_stays_iff`).
-/

namespace IeumChain

open Lib

/-- What a deferred vote is recognised by. -/
def ConsensusMessage.place (m : ConsensusMessage) :
    UInt64 × UInt32 × VoteType × String × String :=
  (m.height, m.round, m.voteType, m.validatorId, m.blockHash)

namespace ConsensusRuntime

/-! ## The queue -/

/-- The queue with a vote deferred. -/
def deferIn (l : List ConsensusMessage) (m : ConsensusMessage) : List ConsensusMessage :=
  if m.place ∈ l.map ConsensusMessage.place then l else pushWithin maxDeferredVotes l m

/-- New votes are pushed into the queue one after the other. -/
lemma foldl_deferIn (ms : List ConsensusMessage) : ∀ {l : List ConsensusMessage},
    ((l ++ ms).map ConsensusMessage.place).Nodup →
      ms.foldl deferIn l = ms.foldl (pushWithin maxDeferredVotes) l := by
  induction ms with
  | nil => exact fun _ => rfl
  | cons m ms ih =>
    intro l h
    have hfresh : m.place ∉ l.map ConsensusMessage.place := by
      rw [List.map_append, List.nodup_append] at h
      exact fun hmem => h.2.2 _ hmem _ List.mem_cons_self rfl
    have hpushed : deferIn l m = pushWithin maxDeferredVotes l m := if_neg hfresh
    rw [List.foldl_cons, List.foldl_cons, hpushed]
    apply ih
    have hsub : (pushWithin maxDeferredVotes l m ++ ms).Sublist (l ++ m :: ms) := by
      rw [pushWithin, List.append_assoc, List.singleton_append]
      refine List.Sublist.append ?_ (List.Sublist.refl _)
      split
      · exact List.tail_sublist l
      · exact List.Sublist.refl l
    exact (hsub.map _).nodup h

/-- The vote stands in the queue. Behind it are votes that stood there at the start, `younger` at
most, and then early votes that have come since, each once. -/
def Behind (younger : ℕ) (seen : Finset (UInt64 × UInt32 × VoteType × String × String))
    (v : ConsensusMessage) (l : List ConsensusMessage) : Prop :=
  ∃ older kept new, l = older ++ v :: (kept ++ new) ∧ kept.length ≤ younger ∧
    (new.map ConsensusMessage.place).Nodup ∧ ∀ m ∈ new, m.place ∈ seen.erase v.place

section Behind
variable {younger : ℕ} {seen : Finset (UInt64 × UInt32 × VoteType × String × String)}
  {v : ConsensusMessage} {l : List ConsensusMessage}

lemma Behind.filter (h : Behind younger seen v l) {p : ConsensusMessage → Bool} (hv : p v = true) :
    Behind younger seen v (l.filter p) := by
  obtain ⟨older, kept, new, rfl, hkept, hnodup, hseen⟩ := h
  refine ⟨older.filter p, kept.filter p, new.filter p, ?_, ?_, ?_, ?_⟩
  · rw [List.filter_append, List.filter_cons_of_pos hv, List.filter_append]
  · exact (List.length_filter_le p kept).trans hkept
  · exact (List.filter_sublist.map _).nodup hnodup
  · exact fun m hm => hseen m (List.mem_of_mem_filter hm)

/-- Another early vote goes behind it, while there are not too many. -/
lemma Behind.deferIn (h : Behind younger seen v l)
    (hroom : younger + (seen.erase v.place).card < maxDeferredVotes) {m : ConsensusMessage}
    (hm : m.place ∈ seen) : Behind younger seen v (deferIn l m) := by
  unfold ConsensusRuntime.deferIn
  split
  next => exact h
  next hfresh =>
    obtain ⟨older, kept, new, rfl, hkept, hnodup, hseen⟩ := h
    simp only [List.map_append, List.map_cons, List.mem_append, List.mem_cons, not_or] at hfresh
    obtain ⟨_, hself, _, hother⟩ := hfresh
    have hnodup' : ((new ++ [m]).map ConsensusMessage.place).Nodup := by
      rw [List.map_append, List.nodup_append]
      exact ⟨hnodup, List.nodup_singleton _, fun a ha b hb heq =>
        hother (by rwa [← List.mem_singleton.mp hb, ← heq])⟩
    have hseen' : ∀ m' ∈ new ++ [m], m'.place ∈ seen.erase v.place := by
      intro m' hm'
      rcases List.mem_append.mp hm' with hmem | hmem
      · exact hseen m' hmem
      · rw [List.mem_singleton.mp hmem]
        exact Finset.mem_erase.mpr ⟨hself, hm⟩
    -- there are no more new votes than places they can have
    have hcount : new.length + 1 ≤ (seen.erase v.place).card := by
      have hcard := List.toFinset_card_of_nodup hnodup'
      rw [List.length_map, List.length_append, List.length_singleton] at hcard
      rw [← hcard]
      apply Finset.card_le_card
      intro place hplace
      obtain ⟨m', hm', rfl⟩ := List.mem_map.mp (List.mem_toFinset.mp hplace)
      exact hseen' m' hm'
    unfold pushWithin
    split
    next hfull =>
      cases older with
      | nil =>
        simp only [List.nil_append, List.length_cons, List.length_append] at hfull
        omega
      | cons oldest older =>
        refine ⟨older, kept, new ++ [m], ?_, hkept, hnodup', hseen'⟩
        simp only [List.cons_append, List.tail_cons, List.append_assoc]
    next =>
      refine ⟨older, kept, new ++ [m], ?_, hkept, hnodup', hseen'⟩
      simp only [List.cons_append, List.append_assoc]

end Behind

section
variable [Primitives]

/-! ## The phase `Propose` -/

/-- The vote passes all checks but for the phase. -/
def isEarly (r : ConsensusRuntime) (m : ConsensusMessage) : Bool :=
  match r.consensus.checkVote m with
  | .error e => isDeferableVoteError e
  | .ok () => false

/-- Before the proposal no vote is taken, and the runtime does not change. -/
lemma receiveVote_of_propose {r : ConsensusRuntime} (h : r.consensus.phase = .propose)
    (env : Reading) (m : ConsensusMessage) :
    ∃ e, r.receiveVote env m = (.error e, r) ∧ isDeferableVoteError e = r.isEarly m := by
  cases hcheck : r.consensus.checkVote m with
  | ok u =>
    have htakes := (BftConsensus.checkVote_eq_ok.mp hcheck).2.2.2
    rw [h] at htakes
    cases m.voteType <;> cases htakes
  | error e =>
    refine ⟨e, ?_, ?_⟩
    · simp only [receiveVote, BftConsensus.handle, hcheck]
    · rw [isEarly, hcheck]

/-- A signed vote of a registered validator for the round is early before the proposal. -/
lemma isEarly_of_propose {r : ConsensusRuntime} (h : r.consensus.phase = .propose)
    {m : ConsensusMessage} (hplace : m.height = r.consensus.height ∧ m.round = r.consensus.round)
    (hmem : m.validatorId ∈ r.consensus.validators) (hverify : m.verify = .ok ()) :
    r.isEarly m = true := by
  have htakes : ¬ BftConsensus.takesVote r.consensus.phase m.voteType = true := by
    rw [h]
    cases m.voteType <;> exact Bool.false_ne_true
  have hcheck : r.consensus.checkVote m
      = .error "현재 합의 단계와 투표 종류가 일치하지 않습니다." := by
    rw [BftConsensus.checkVote, ensure, if_pos hplace, ensure, if_pos hmem, hverify, ensure,
      if_neg htakes]
    rfl
  rw [isEarly, hcheck]
  decide

/-- What the node loop does with a vote: receive it, and defer it if it is early. -/
def receiveOrDefer (r : ConsensusRuntime) (env : Reading) (m : ConsensusMessage) :
    ConsensusRuntime :=
  match r.receiveVote env m with
  | (.ok _, r) => r
  | (.error e, r) => if isDeferableVoteError e then r.deferVote m else r

lemma deferVote_eq (r : ConsensusRuntime) (m : ConsensusMessage) :
    r.deferVote m = { r with deferredVotes := deferIn r.deferredVotes m } := by
  have hplace : (∃ known ∈ r.deferredVotes, known.height = m.height ∧ known.round = m.round ∧
      known.voteType = m.voteType ∧ known.validatorId = m.validatorId ∧
      known.blockHash = m.blockHash) ↔ m.place ∈ r.deferredVotes.map ConsensusMessage.place := by
    simp only [List.mem_map, ConsensusMessage.place, Prod.mk.injEq]
  unfold deferVote deferIn
  simp only [hplace]
  split <;> rfl

lemma receiveOrDefer_eq {r : ConsensusRuntime} (h : r.consensus.phase = .propose) (env : Reading)
    (m : ConsensusMessage) :
    r.receiveOrDefer env m = { r with
      deferredVotes := (if r.isEarly m then deferIn r.deferredVotes m else r.deferredVotes) } := by
  obtain ⟨e, hreceive, hearly⟩ := receiveVote_of_propose h env m
  rw [receiveOrDefer, hreceive]
  dsimp only
  rw [hearly, deferVote_eq]
  split <;> rfl

/-- The loop of the replay leaves the early votes. -/
lemma replayVotes_of_propose (env : ℕ → Reading) (l : List ConsensusMessage) :
    ∀ {s : Replay}, s.runtime.consensus.phase = .propose →
      Replay.votes env l s = (.ok (), { s with
        remaining := s.remaining ++ l.filter s.runtime.isEarly
        readings := s.readings + l.length }) := by
  induction l with
  | nil =>
    intro s _
    rw [Replay.votes, List.filter_nil, List.append_nil]
    rfl
  | cons v l ih =>
    intro s h
    obtain ⟨e, hreceive, hearly⟩ := receiveVote_of_propose h (env s.readings) v
    have hstep : s.vote env v = (.ok (), { s with
        remaining := s.remaining ++ [v].filter s.runtime.isEarly
        readings := s.readings + 1 }) := by
      simp only [Replay.vote, Replay.receive, hreceive, hearly]
      cases hv : s.runtime.isEarly v with
      | true => rw [if_pos rfl, List.filter_cons_of_pos hv, List.filter_nil]
      | false =>
        rw [if_neg Bool.false_ne_true, List.filter_cons_of_neg (by simp [hv]), List.filter_nil,
          List.append_nil]
    rw [Replay.votes, hstep]
    dsimp only
    rw [ih (s := { s with remaining := s.remaining ++ [v].filter s.runtime.isEarly
                          readings := s.readings + 1 }) h]
    simp only [List.append_assoc, ← List.filter_append, List.singleton_append, List.length_cons,
      Nat.add_assoc, Nat.add_comm 1]

/-- Before the proposal the replay drops what is not early. -/
lemma replayDeferredVotes_of_propose {r : ConsensusRuntime} (h : r.consensus.phase = .propose)
    (env : ℕ → Reading) :
    r.replayDeferredVotes env
      = (.ok [], { r with deferredVotes := r.deferredVotes.filter r.isEarly }) := by
  have hvotes := replayVotes_of_propose env r.deferredVotes
    (s := ⟨{ r with deferredVotes := [] }, [], [], false, 0⟩) h
  simp only [replayDeferredVotes, Replay.rounds, hvotes]
  rfl

/-! ## Runs -/

/-- What the node loop calls while votes come in. -/
inductive EarlyCall where
  | receive (env : Reading) (m : ConsensusMessage)
  | replay (env : ℕ → Reading)

/-- The runtime after a call. -/
def earlyCall (r : ConsensusRuntime) : EarlyCall → ConsensusRuntime
  | .receive env m => r.receiveOrDefer env m
  | .replay env => (r.replayDeferredVotes env).2

/-- The runtime after a list of calls. -/
def earlyRun (r : ConsensusRuntime) (calls : List EarlyCall) : ConsensusRuntime :=
  calls.foldl earlyCall r

/-- The queue after a call. -/
def queueAfter (r : ConsensusRuntime) : EarlyCall → List ConsensusMessage
  | .receive _ m => if r.isEarly m then deferIn r.deferredVotes m else r.deferredVotes
  | .replay _ => r.deferredVotes.filter r.isEarly

/-- Before the proposal a call changes the queue and nothing else. -/
lemma earlyCall_eq {r : ConsensusRuntime} (h : r.consensus.phase = .propose) (c : EarlyCall) :
    r.earlyCall c = { r with deferredVotes := r.queueAfter c } := by
  cases c with
  | receive env m => exact receiveOrDefer_eq h env m
  | replay env => rw [earlyCall, replayDeferredVotes_of_propose h]; rfl

lemma earlyRun_concat (r : ConsensusRuntime) (calls : List EarlyCall) (c : EarlyCall) :
    r.earlyRun (calls ++ [c]) = (r.earlyRun calls).earlyCall c := by
  rw [earlyRun, List.foldl_append, List.foldl_cons, List.foldl_nil, earlyRun]

/-- No run of such calls leaves the phase, nor changes which votes are early. -/
lemma earlyRun_consensus {r : ConsensusRuntime} (h : r.consensus.phase = .propose)
    (calls : List EarlyCall) :
    (r.earlyRun calls).consensus = r.consensus ∧ (r.earlyRun calls).isEarly = r.isEarly := by
  induction calls using List.reverseRecOn with
  | nil => exact ⟨rfl, rfl⟩
  | append_singleton calls c ih =>
    have hphase : (r.earlyRun calls).consensus.phase = .propose := by rw [ih.1, h]
    rw [earlyRun_concat, earlyCall_eq hphase]
    exact ih

lemma deferredVotes_concat {r : ConsensusRuntime} (h : r.consensus.phase = .propose)
    (calls : List EarlyCall) (c : EarlyCall) :
    (r.earlyRun (calls ++ [c])).deferredVotes = (r.earlyRun calls).queueAfter c := by
  have hphase : (r.earlyRun calls).consensus.phase = .propose := by
    rw [(earlyRun_consensus h calls).1, h]
  rw [earlyRun_concat, earlyCall_eq hphase]

/-- Early votes that come one after the other are deferred one after the other. -/
lemma earlyRun_receive {r : ConsensusRuntime} (h : r.consensus.phase = .propose) (env : Reading)
    {ms : List ConsensusMessage} (hms : ∀ m ∈ ms, r.isEarly m = true) :
    (r.earlyRun (ms.map (.receive env))).deferredVotes = ms.foldl deferIn r.deferredVotes := by
  induction ms using List.reverseRecOn with
  | nil => rfl
  | append_singleton ms m ih =>
    obtain ⟨hms, hm⟩ := List.forall_mem_append.mp hms
    rw [List.map_append, List.map_cons, List.map_nil, deferredVotes_concat h, queueAfter,
      (earlyRun_consensus h _).2, if_pos (hm m (List.mem_singleton_self m)), ih hms,
      List.foldl_append, List.foldl_cons, List.foldl_nil]

/-! ## The honest vote -/

/-- The call defers a vote that the queue does not hold, and the queue is full with no other vote
in front of `v`. -/
def PushesOut (r : ConsensusRuntime) (v : ConsensusMessage) : EarlyCall → Prop
  | .receive _ m => r.isEarly m = true ∧ m.place ∉ r.deferredVotes.map ConsensusMessage.place ∧
      maxDeferredVotes ≤ r.deferredVotes.length ∧ v ∉ r.deferredVotes.tail
  | .replay _ => False

/-- The vote is in the queue in every state reached. -/
def Stays (r : ConsensusRuntime) (v : ConsensusMessage) (calls : List EarlyCall) : Prop :=
  ∀ done rest, calls = done ++ rest → v ∈ (r.earlyRun done).deferredVotes

/-- One call keeps an early vote, unless it pushes it out. -/
lemma mem_queueAfter_iff {r : ConsensusRuntime} {v : ConsensusMessage} (hearly : r.isEarly v = true)
    (hheld : v ∈ r.deferredVotes) (c : EarlyCall) :
    v ∈ r.queueAfter c ↔ ¬ r.PushesOut v c := by
  cases c with
  | replay env =>
    exact iff_of_true (List.mem_filter.mpr ⟨hheld, hearly⟩) not_false
  | receive env m =>
    rw [queueAfter, PushesOut]
    by_cases hm : r.isEarly m = true
    · rw [if_pos hm, deferIn]
      by_cases hknown : m.place ∈ r.deferredVotes.map ConsensusMessage.place
      · rw [if_pos hknown]
        exact iff_of_true hheld fun hout => hout.2.1 hknown
      · have hne : v ≠ m := by
          rintro rfl
          exact hknown (List.mem_map_of_mem hheld)
        rw [if_neg hknown, mem_pushWithin]
        simp only [hm, hknown, hne, or_false, true_and, not_false_iff]
        by_cases hfull : maxDeferredVotes ≤ r.deferredVotes.length
        · rw [if_pos hfull]
          simp only [hfull, true_and, not_not]
        · rw [if_neg hfull]
          simp only [hfull, false_and, not_false_iff, hheld]
    · rw [if_neg hm]
      exact iff_of_true hheld fun hout => hm hout.1

/-- The early votes of a list of calls, by what they are recognised by. -/
def arrivals (r : ConsensusRuntime) (calls : List EarlyCall) :
    Finset (UInt64 × UInt32 × VoteType × String × String) :=
  (calls.filterMap fun
    | .receive _ m => if r.isEarly m then some m.place else none
    | .replay _ => none).toFinset

lemma mem_arrivals {r : ConsensusRuntime} {calls : List EarlyCall} {env : Reading}
    {m : ConsensusMessage} (hcall : .receive env m ∈ calls) (hm : r.isEarly m = true) :
    m.place ∈ r.arrivals calls := by
  rw [arrivals, List.mem_toFinset, List.mem_filterMap]
  exact ⟨_, hcall, if_pos hm⟩

/-- **An honest early vote stays exactly while it is not pushed out.** In the phase `Propose`, for
every list of calls that receive and defer votes and replay the deferred ones: a deferred vote of
the round is in the queue in every state reached exactly when no call defers a vote that the queue
does not hold while it holds 1024 with the vote in front. So it is enough that, with those behind
it, fewer than 1024 different early votes come. -/
theorem early_vote_stays_iff (r : ConsensusRuntime) (hphase : r.consensus.phase = .propose)
    (v : ConsensusMessage) (hearly : r.isEarly v = true) (hheld : v ∈ r.deferredVotes)
    (calls : List EarlyCall) :
    (r.Stays v calls ↔
      ∀ done c rest, calls = done ++ c :: rest → ¬ (r.earlyRun done).PushesOut v c) ∧
    ∀ older younger, r.deferredVotes = older ++ v :: younger →
      younger.length + ((r.arrivals calls).erase v.place).card < maxDeferredVotes →
        r.Stays v calls := by
  -- one call: the vote goes exactly if the call pushes it out
  have hstep : ∀ done c, v ∈ (r.earlyRun done).deferredVotes →
      (v ∈ (r.earlyRun (done ++ [c])).deferredVotes ↔ ¬ (r.earlyRun done).PushesOut v c) := by
    intro done c hstill
    rw [deferredVotes_concat hphase]
    refine mem_queueAfter_iff ?_ hstill c
    rw [(earlyRun_consensus hphase done).2, hearly]
  refine ⟨⟨fun hstays done c rest hsplit => ?_, fun hnone => ?_⟩, ?_⟩
  · apply (hstep done c (hstays done _ hsplit)).mp
    apply hstays (done ++ [c]) rest
    rw [hsplit, List.append_assoc, List.singleton_append]
  · intro done
    induction done using List.reverseRecOn with
    | nil => exact fun _ _ => hheld
    | append_singleton done c ih =>
      intro rest hsplit
      rw [List.append_assoc, List.singleton_append] at hsplit
      exact (hstep done c (ih _ hsplit)).mpr (hnone done c rest hsplit)
  · intro older younger hqueue hroom
    -- behind the vote stand the younger ones and the arrivals, each place once
    have hbehind : ∀ done rest, calls = done ++ rest →
        Behind younger.length (r.arrivals calls) v (r.earlyRun done).deferredVotes := by
      intro done
      induction done using List.reverseRecOn with
      | nil =>
        exact fun _ _ => ⟨older, younger, [], by rw [List.append_nil]; exact hqueue, le_rfl,
          List.nodup_nil, List.forall_mem_nil _⟩
      | append_singleton done c ih =>
        intro rest hsplit
        rw [List.append_assoc, List.singleton_append] at hsplit
        have hbefore := ih _ hsplit
        rw [deferredVotes_concat hphase]
        have hsame := (earlyRun_consensus hphase done).2
        cases c with
        | replay env =>
          rw [queueAfter, hsame]
          exact hbefore.filter hearly
        | receive env m =>
          rw [queueAfter, hsame]
          split
          next hm =>
            have hcall : EarlyCall.receive env m ∈ calls := by
              rw [hsplit]
              exact List.mem_append_right _ List.mem_cons_self
            exact hbefore.deferIn hroom (mem_arrivals hcall hm)
          next => exact hbefore
    intro done rest hsplit
    obtain ⟨_, _, _, hqueue', _⟩ := hbehind done rest hsplit
    rw [hqueue']
    exact List.mem_append_right _ List.mem_cons_self

end

end ConsensusRuntime

/-! ### A thousand prevotes of one validator -/

namespace Flood

/-- The signature of a key: the digests of key and message in both orders. -/
def stamp (key message : Bytes) : Bytes :=
  Sha256.hash (key ++ message) ++ Sha256.hash (message ++ key)

/-- SHA-256 and deterministic signatures. Ethereum accounts and node keys do not occur. -/
@[reducible] def primitives : Primitives :=
  { Devnet.primitives with
    ed25519Verify := fun key message signature => decide (signature = stamp key message) }

attribute [local instance] primitives

/-- Two validators of equal power. -/
def validators : List Validator := [⟨Devnet.validator, 100⟩, ⟨Devnet.user, 100⟩]

/-- The honest validator's node, which waits for a proposal at height 1. -/
def node : ConsensusRuntime :=
  { chain := Blockchain.withChainId 1 []
    consensus := BftConsensus.opened
      (HashMap.ofList [(Devnet.validator, 100), (Devnet.user, 100)]) 200 1
    validator := Devnet.validator
    pending := none
    validBlock := none
    deadline := 3000
    timeouts := ⟨3000, 2000, 2000⟩
    validators := validators
    precommits := []
    deferredVotes := []
    finalized := []
    pendingFinalized := []
    eventSchedule := EventSchedule.empty
    scheduleValid := EventSchedule.validate_empty }

lemma node_withSigner : ConsensusRuntime.withSigner (Blockchain.withChainId 1 []) validators
    Devnet.validator ⟨3000, 2000, 2000⟩ 0 = .ok node := rfl

def reading : Reading := ⟨some 1000, 0, fun _ => .error ""⟩

/-- The block hashes of the prevotes. -/
def blockHash (n : ℕ) : String := hexEncode (beBytes 32 n)

/-- The prevote of a key for a block at height 1. -/
def prevote (key : Bytes) (n : ℕ) : ConsensusMessage where
  height := 1
  round := 0
  validatorId := hexEncode key
  voteType := .prevote
  blockHash := blockHash n
  signature := hexEncode (stamp key
    (ConsensusMessage.unsignedBytes 1 0 (hexEncode key) .prevote (blockHash n)))

lemma isEarly_prevote {key : Bytes} (hkey : key = Devnet.validatorKey ∨ key = Devnet.userKey)
    (n : ℕ) : node.isEarly (prevote key n) = true := by
  have hlength : key.length = 32 := by
    rcases hkey with rfl | rfl <;> exact length_beBytes 32 _
  have hmem : hexEncode key ∈ node.consensus.validators := by
    rcases hkey with rfl | rfl <;> decide
  apply ConsensusRuntime.isEarly_of_propose rfl ⟨rfl, rfl⟩ hmem
  refine verifySignature_hexEncode.mpr ⟨hlength, ?_, decide_eq_true hkey, decide_eq_true rfl⟩
  rw [stamp, List.length_append, Sha256.length_hash, Sha256.length_hash]

/-- The honest prevote, which the node has deferred. -/
def honest : ConsensusMessage := prevote Devnet.validatorKey 0

def waiting : ConsensusRuntime := node.earlyRun [.receive reading honest]

lemma isEarly_honest : node.isEarly honest = true := isEarly_prevote (.inl rfl) 0

lemma waiting_same : waiting.consensus = node.consensus ∧ waiting.isEarly = node.isEarly :=
  ConsensusRuntime.earlyRun_consensus rfl _

lemma waiting_queue : waiting.deferredVotes = [honest] := by
  rw [waiting, ConsensusRuntime.earlyRun, List.foldl_cons, List.foldl_nil,
    ConsensusRuntime.earlyCall, ConsensusRuntime.receiveOrDefer_eq rfl, if_pos isEarly_honest]
  rfl

/-- One more vote does not push it out. -/
theorem early_vote_stays_iff_one :
    waiting.Stays honest [.receive reading (prevote Devnet.userKey 1)] := by
  have hfew : ((waiting.arrivals [.receive reading (prevote Devnet.userKey 1)]).erase
      honest.place).card ≤ 1 := by
    refine (Finset.card_le_card (Finset.erase_subset _ _)).trans ?_
    refine (List.toFinset_card_le _).trans ?_
    exact List.length_filterMap_le _ _
  have hphase : waiting.consensus.phase = .propose := by
    rw [waiting_same.1]
    rfl
  have hearly : waiting.isEarly honest = true := by
    rw [waiting_same.2]
    exact isEarly_honest
  apply (waiting.early_vote_stays_iff hphase honest hearly (by simp [waiting_queue]) _).2 [] []
    waiting_queue
  rw [maxDeferredVotes, List.length_nil]
  omega

/-- The prevotes of the other validator for 1024 blocks. -/
def flood : List ConsensusMessage := (List.range 1024).map fun n => prevote Devnet.userKey n

lemma flood_places : (([honest] ++ flood).map ConsensusMessage.place).Nodup := by
  have hkeys : hexEncode Devnet.userKey ≠ hexEncode Devnet.validatorKey := by decide
  have hplaces : flood.map ConsensusMessage.place
      = (List.range 1024).map fun n => (prevote Devnet.userKey n).place := List.map_map
  rw [List.singleton_append, List.map_cons, List.nodup_cons, hplaces]
  constructor
  · intro hmem
    obtain ⟨n, _, hplace⟩ := List.mem_map.mp hmem
    simp only [ConsensusMessage.place, prevote, honest, Prod.mk.injEq] at hplace
    exact hkeys hplace.2.2.2.1
  · apply List.Nodup.map_on ?_ List.nodup_range
    intro m hm n hn hplace
    simp only [ConsensusMessage.place, prevote, Prod.mk.injEq, true_and] at hplace
    rw [List.mem_range] at hm hn
    exact beBytes_inj (hm.trans (by decide)) (hn.trans (by decide)) (hexEncode_inj hplace)

lemma flood_early : ∀ m ∈ flood, waiting.isEarly m = true := by
  intro m hm
  obtain ⟨n, _, rfl⟩ := List.mem_map.mp hm
  rw [waiting_same.2]
  exact isEarly_prevote (.inr rfl) n

/-- All of them are validly signed votes of the round by one registered validator, and after them
the honest vote is gone, although the node still waits for the proposal. -/
theorem honest_vote_crowded_out :
    honest ∈ waiting.deferredVotes ∧ waiting.isEarly honest = true ∧
      (flood.all fun m => waiting.isEarly m && m.validatorId == Devnet.user) = true ∧
      (waiting.earlyRun (flood.map (.receive reading))).consensus = waiting.consensus ∧
      honest ∉ (waiting.earlyRun (flood.map (.receive reading))).deferredVotes := by
  have hphase : waiting.consensus.phase = .propose := by
    rw [waiting_same.1]
    rfl
  have hplaces := flood_places
  have hlength : flood.length = 1024 := by rw [flood, List.length_map, List.length_range]
  refine ⟨by simp [waiting_queue], ?_, ?_, (ConsensusRuntime.earlyRun_consensus hphase _).1, ?_⟩
  · rw [waiting_same.2]
    exact isEarly_honest
  · rw [List.all_eq_true]
    intro m hm
    obtain ⟨n, _, rfl⟩ := List.mem_map.mp hm
    rw [flood_early _ hm, Bool.true_and]
    exact beq_self_eq_true _
  · rw [ConsensusRuntime.earlyRun_receive hphase reading flood_early, waiting_queue,
      ConsensusRuntime.foldl_deferIn flood hplaces,
      foldl_pushWithin_of_le (by decide) (by decide) (by rw [hlength]; exact le_rfl)]
    intro hmem
    rw [List.singleton_append, List.map_cons, List.nodup_cons] at hplaces
    exact hplaces.1 (List.mem_map_of_mem (List.mem_of_mem_drop hmem))

end Flood

end IeumChain
