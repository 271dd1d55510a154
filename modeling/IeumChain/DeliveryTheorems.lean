import IeumChain.BallotTheorems

/-!
# The order of votes does not matter

A node that waits for a proposal defers the votes it is given, and takes them again once it can.
Whatever the order in which a proposal and the votes for its block come in, the node counts the
same votes in the end.

* The loop over the deferred votes keeps what every vote keeps, and ends without progress
  (`Kept.replayRounds`).
* After each message, every vote given so far is counted or deferred, and a deferred vote is one
  the phase does not take (`Progress`).
-/

namespace IeumChain

open Lib

namespace Ballot

section
variable [Primitives]

/-! ## The replay -/

namespace Kept
variable {b : Ballot} {P : ConsensusRuntime → Prop} {env : ℕ → Reading}

/-- One vote of the replay: it is counted, or dropped, or left for later. -/
lemma replayVote (h : b.Kept P) (henv : ∀ n, b.Signs (env n)) {s : ConsensusRuntime.Replay}
    (hs : P s.runtime) {v : ConsensusMessage} (hv : b.AtPlace v → b.Counts v) :
    ∃ s', s.vote env v = (.ok (), s') ∧ P s'.runtime ∧
      (∀ t, b.counted s.runtime t ⊆ b.counted s'.runtime t) ∧
      ((s'.remaining = s.remaining ∧ s'.progressed = true ∧
          v.validatorId ∈ b.counted s'.runtime v.voteType) ∨
        (s'.runtime = s.runtime ∧ s'.progressed = s.progressed ∧
          ((¬ b.AtPlace v ∧ s'.remaining = s.remaining) ∨
            (b.AtPlace v ∧ s'.remaining = s.remaining ++ [v] ∧
              ¬ BftConsensus.takesVote s.runtime.consensus.phase v.voteType = true)))) := by
  unfold ConsensusRuntime.Replay.vote ConsensusRuntime.Replay.receive
  by_cases hplace : b.AtPlace v
  · by_cases htakes : BftConsensus.takesVote s.runtime.consensus.phase v.voteType = true
    · obtain ⟨own, r₁, r₂, hfed⟩ := h.feed hs (hv hplace) htakes (henv s.readings)
        (henv (s.readings + 1))
      rw [hfed.first]
      rcases hfed.second with ⟨rfl, rfl⟩ | ⟨precommit, answer, rfl, hsecond⟩
      · exact ⟨_, rfl, hfed.keeps, hfed.mono, .inl ⟨rfl, rfl, hfed.counted⟩⟩
      · simp only [hsecond]
        exact ⟨_, rfl, hfed.keeps, hfed.mono, .inl ⟨rfl, rfl, hfed.counted⟩⟩
    · rw [h.early hs (hv hplace) htakes]
      exact ⟨_, rfl, hs, fun _ => subset_rfl, .inr ⟨rfl, rfl, .inr ⟨hplace, rfl, htakes⟩⟩⟩
  · rw [h.foreign hs hplace]
    exact ⟨_, rfl, hs, fun _ => subset_rfl, .inr ⟨rfl, rfl, .inl ⟨hplace, rfl⟩⟩⟩

/-- The inner loop of the replay: every vote of the round is counted or left for later. Either one
was counted and fewer are left, or none was taken. -/
lemma replayVotes (h : b.Kept P) (henv : ∀ n, b.Signs (env n)) (l : List ConsensusMessage) :
    ∀ {s : ConsensusRuntime.Replay}, P s.runtime → (∀ v ∈ l, b.AtPlace v → b.Counts v) →
    ∃ s' left, ConsensusRuntime.Replay.votes env l s = (.ok (), s') ∧ P s'.runtime ∧
      (∀ t, b.counted s.runtime t ⊆ b.counted s'.runtime t) ∧
      s'.remaining = s.remaining ++ left ∧ left.Sublist (l.filter b.AtPlace) ∧
      (∀ v ∈ l, b.AtPlace v → v ∈ left ∨ v.validatorId ∈ b.counted s'.runtime v.voteType) ∧
      ((s'.progressed = true ∧ left.length < l.length) ∨
        (s'.progressed = s.progressed ∧ s'.runtime = s.runtime ∧ ∀ v ∈ l, b.AtPlace v →
          ¬ BftConsensus.takesVote s.runtime.consensus.phase v.voteType = true)) := by
  induction l with
  | nil =>
    intro s hs _
    exact ⟨s, [], rfl, hs, fun _ => subset_rfl, (List.append_nil _).symm, List.Sublist.refl _,
      fun v hv => absurd hv List.not_mem_nil, .inr ⟨rfl, rfl, fun v hv => absurd hv
        List.not_mem_nil⟩⟩
  | cons v l ih =>
    intro s hs hl
    obtain ⟨s₁, hvote, hs₁, hmono, hcase⟩ :=
      h.replayVote henv hs (hl v List.mem_cons_self)
    obtain ⟨s', left, hvotes, hs', hmono', hleft, hsub, hcovered, hprogress⟩ :=
      ih hs₁ fun w hw => hl w (List.mem_cons_of_mem _ hw)
    have hrun : ConsensusRuntime.Replay.votes env (v :: l) s = (.ok (), s') := by
      rw [ConsensusRuntime.Replay.votes, hvote]
      exact hvotes
    have hlength : left.length ≤ l.length := hsub.length_le.trans (List.length_filter_le _ _)
    have hmono₂ : ∀ t, b.counted s.runtime t ⊆ b.counted s'.runtime t :=
      fun t => (hmono t).trans (hmono' t)
    rcases hcase with ⟨hsame, hyes, hcounted⟩ | ⟨hruntime, hflag, ⟨hother, hsame⟩ | ⟨hplace, hlater,
      htakes⟩⟩
    · -- the vote is counted
      refine ⟨s', left, hrun, hs', hmono₂, hsame ▸ hleft, ?_, ?_, .inl ⟨?_, ?_⟩⟩
      · exact hsub.trans ((List.sublist_cons_self v l).filter _)
      · intro w hw hplace
        rcases List.mem_cons.mp hw with rfl | hw
        · exact .inr (hmono' _ hcounted)
        · exact hcovered w hw hplace
      · rcases hprogress with ⟨hyes', _⟩ | ⟨hflag, _⟩
        · exact hyes'
        · exact hflag.trans hyes
      · exact Nat.lt_succ_of_le hlength
    · -- the vote is for another place and is dropped
      refine ⟨s', left, hrun, hs', hmono₂, hsame ▸ hleft, ?_, ?_, ?_⟩
      · rw [List.filter_cons_of_neg (by simpa using hother)]
        exact hsub
      · intro w hw hplace
        rcases List.mem_cons.mp hw with rfl | hw
        · exact absurd hplace hother
        · exact hcovered w hw hplace
      · rcases hprogress with ⟨hyes, _⟩ | ⟨hflag', hruntime', hnone⟩
        · exact .inl ⟨hyes, Nat.lt_succ_of_le hlength⟩
        · refine .inr ⟨hflag'.trans hflag, hruntime'.trans hruntime, fun w hw hplace => ?_⟩
          rcases List.mem_cons.mp hw with rfl | hw
          · exact absurd hplace hother
          · exact hruntime ▸ hnone w hw hplace
    · -- the vote is left for later
      refine ⟨s', v :: left, hrun, hs', hmono₂, ?_, ?_, ?_, ?_⟩
      · rw [hleft, hlater, List.append_assoc, List.singleton_append]
      · rw [List.filter_cons_of_pos (by simpa using hplace)]
        exact hsub.cons_cons v
      · intro w hw hplace
        rcases List.mem_cons.mp hw with rfl | hw
        · exact .inl List.mem_cons_self
        · exact (hcovered w hw hplace).imp_left (List.mem_cons_of_mem _)
      · rcases hprogress with ⟨hyes, hless⟩ | ⟨hflag', hruntime', hnone⟩
        · exact .inl ⟨hyes, Nat.succ_lt_succ hless⟩
        · refine .inr ⟨hflag'.trans hflag, hruntime'.trans hruntime, fun w hw hplace => ?_⟩
          rcases List.mem_cons.mp hw with rfl | hw
          · exact htakes
          · exact hruntime ▸ hnone w hw hplace

/-- The outer loop of the replay: it ends, and what is left then is not taken by the phase. -/
lemma replayRounds (h : b.Kept P) (henv : ∀ n, b.Signs (env n)) (fuel : ℕ) :
    ∀ {s : ConsensusRuntime.Replay}, P s.runtime → s.runtime.deferredVotes.length < fuel →
    (∀ v ∈ s.runtime.deferredVotes, b.AtPlace v → b.Counts v) →
    ∃ s', ConsensusRuntime.Replay.rounds env fuel s = (.ok (), s') ∧ P s'.runtime ∧
      (∀ t, b.counted s.runtime t ⊆ b.counted s'.runtime t) ∧
      s'.runtime.deferredVotes.Sublist (s.runtime.deferredVotes.filter b.AtPlace) ∧
      (∀ v ∈ s.runtime.deferredVotes, b.AtPlace v →
        v ∈ s'.runtime.deferredVotes ∨ v.validatorId ∈ b.counted s'.runtime v.voteType) ∧
      ∀ v ∈ s'.runtime.deferredVotes,
        ¬ BftConsensus.takesVote s'.runtime.consensus.phase v.voteType = true := by
  induction fuel with
  | zero => exact fun _ hfuel => absurd hfuel (Nat.not_lt_zero _)
  | succ fuel ih =>
    intro s hs hfuel hl
    obtain ⟨s₁, left, hvotes, hs₁, hmono, hleft, hsub, hcovered, hprogress⟩ :=
      h.replayVotes henv s.runtime.deferredVotes
        (s := { s with runtime := { s.runtime with deferredVotes := [] }
                       remaining := [], progressed := false })
        (h.queue hs []) hl
    rw [List.nil_append] at hleft
    unfold ConsensusRuntime.Replay.rounds
    simp only [hvotes, hleft]
    rcases hprogress with ⟨hyes, hless⟩ | ⟨hno, hruntime, hnone⟩
    · -- a vote was counted, so the queue is shorter, and goes through once more
      rw [if_pos hyes]
      obtain ⟨s', hrounds, hs', hmono', hsub', hcovered', hsettled⟩ :=
        ih (s := { s₁ with
          runtime := { s₁.runtime with deferredVotes := left }, remaining := left })
          (h.queue hs₁ left) (by show left.length < fuel; omega)
          fun v hv => hl v (List.mem_of_mem_filter (hsub.subset hv))
      refine ⟨s', hrounds, hs', fun t => (hmono t).trans (hmono' t), ?_, ?_, hsettled⟩
      · exact hsub'.trans (List.filter_sublist.trans hsub)
      · intro v hv hplace
        rcases hcovered v hv hplace with hv | hv
        · exact hcovered' v hv hplace
        · exact .inr (hmono' _ hv)
    · -- nothing was counted: the rest waits for another phase
      have hno : ¬ s₁.progressed = true := by
        rw [hno]
        exact Bool.false_ne_true
      rw [if_neg hno]
      refine ⟨_, rfl, h.queue hs₁ left, hmono, hsub, hcovered, fun v hv => ?_⟩
      obtain ⟨hmem, hplace⟩ := List.mem_filter.mp (hsub.subset hv)
      show ¬ BftConsensus.takesVote s₁.runtime.consensus.phase v.voteType = true
      rw [hruntime]
      exact hnone v hmem (by simpa using hplace)

/-- The replay of the node loop. -/
lemma publishReplayedVotes (h : b.Kept P) (henv : ∀ n, b.Signs (env n)) {r : ConsensusRuntime}
    (hr : P r) (hl : ∀ v ∈ r.deferredVotes, b.AtPlace v → b.Counts v) :
    ∃ r', r.publishReplayedVotes env = (.ok (), r') ∧ P r' ∧
      (∀ t, b.counted r t ⊆ b.counted r' t) ∧
      r'.deferredVotes.Sublist (r.deferredVotes.filter b.AtPlace) ∧
      (∀ v ∈ r.deferredVotes, b.AtPlace v →
        v ∈ r'.deferredVotes ∨ v.validatorId ∈ b.counted r' v.voteType) ∧
      ∀ v ∈ r'.deferredVotes,
        ¬ BftConsensus.takesVote r'.consensus.phase v.voteType = true := by
  obtain ⟨s', hrounds, hrest⟩ := h.replayRounds henv (r.deferredVotes.length + 1)
    (s := ⟨r, [], [], false, 0⟩) hr (Nat.lt_succ_self _) hl
  refine ⟨s'.runtime, ?_, hrest⟩
  simp only [ConsensusRuntime.publishReplayedVotes, ConsensusRuntime.replayDeferredVotes, hrounds]

end Kept

/-! ## Messages -/

/-- Whether a vote is counted, or an equal one deferred. -/
def Covered (b : Ballot) (r : ConsensusRuntime) (m : ConsensusMessage) : Prop :=
  m.validatorId ∈ b.counted r m.voteType ∨
    ∃ v ∈ r.deferredVotes, b.AtPlace v ∧ v.voteType = m.voteType ∧ v.validatorId = m.validatorId

/-- The runtime between two messages, when the votes `given` have come in: all of them are
counted or deferred, and the deferred ones are ones the phase does not take. Votes for other
places may be deferred at the start only, and with votes of the round only if there is room. -/
structure Progress (b : Ballot) (P : ConsensusRuntime → Prop) (given : List ConsensusMessage)
    (r : ConsensusRuntime) : Prop where
  keeps : P r
  covered : ∀ m ∈ given, b.Covered r m
  counts : ∀ v ∈ r.deferredVotes, b.AtPlace v → b.Counts v
  early : ∀ v ∈ r.deferredVotes, b.AtPlace v →
    ¬ BftConsensus.takesVote r.consensus.phase v.voteType = true
  few : (r.deferredVotes.filter b.AtPlace).length ≤ given.length
  room : given = [] ∨ r.deferredVotes.length < maxDeferredVotes ∨
    ∀ v ∈ r.deferredVotes, b.AtPlace v

namespace Kept
variable {b : Ballot} {P : ConsensusRuntime → Prop} {env : ℕ → Reading} {r : ConsensusRuntime}
  {given : List ConsensusMessage} {m : ConsensusMessage}

/-- A replay settles what is deferred. -/
lemma progress_of_replay (h : b.Kept P) (henv : ∀ n, b.Signs (env n)) (hr : P r)
    (hcovered : ∀ m ∈ given, b.Covered r m)
    (hcounts : ∀ v ∈ r.deferredVotes, b.AtPlace v → b.Counts v)
    (hfew : (r.deferredVotes.filter b.AtPlace).length ≤ given.length) :
    ∃ r', r.publishReplayedVotes env = (.ok (), r') ∧ b.Progress P given r' := by
  obtain ⟨r', hreplay, hr', hmono, hsub, hleft, hearly⟩ := h.publishReplayedVotes henv hr hcounts
  have hplace : ∀ v ∈ r'.deferredVotes, v ∈ r.deferredVotes ∧ b.AtPlace v := by
    intro v hv
    simpa using List.mem_filter.mp (hsub.subset hv)
  refine ⟨r', hreplay, hr', fun m hm => ?_, fun v hv => hcounts v (hplace v hv).1,
    fun v hv _ => hearly v hv, ?_, .inr (.inr fun v hv => (hplace v hv).2)⟩
  · rcases hcovered m hm with hm | ⟨v, hv, hatPlace, htype, hid⟩
    · exact .inl (hmono _ hm)
    · rcases hleft v hv hatPlace with hv | hv
      · exact .inr ⟨v, hv, hatPlace, htype, hid⟩
      · rw [htype, hid] at hv
        exact .inl hv
  · exact (List.length_filter_le _ _).trans (hsub.length_le.trans hfew)

/-- A vote that is deferred is covered, and covers what was before: the oldest is dropped only when
none of the round is deferred yet. -/
lemma deferVote (h : b.Kept P) (hr : b.Progress P given r) (hm : b.Counts m)
    (hroom : given.length < maxDeferredVotes) :
    P (r.deferVote m) ∧ (∀ v ∈ given ++ [m], b.Covered (r.deferVote m) v) ∧
      (∀ v ∈ (r.deferVote m).deferredVotes, b.AtPlace v → b.Counts v) ∧
      ((r.deferVote m).deferredVotes.filter b.AtPlace).length ≤ (given ++ [m]).length := by
  have hplace : b.AtPlace m := ⟨hm.height, hm.round⟩
  have hfew := hr.few
  unfold ConsensusRuntime.deferVote
  split
  · -- an equal vote is deferred already
    rename_i hknown
    obtain ⟨known, hmem, hheight, hround, htype, hid, _⟩ := hknown
    refine ⟨hr.keeps, fun v hv => ?_, hr.counts, by rw [List.length_append]; omega⟩
    rcases List.mem_append.mp hv with hv | hv
    · exact hr.covered v hv
    · rw [List.mem_singleton.mp hv]
      exact .inr ⟨known, hmem, ⟨hheight.trans hplace.1, hround.trans hplace.2⟩, htype, hid⟩
  · -- what is kept of the queue has all votes of the round
    set kept := if maxDeferredVotes ≤ r.deferredVotes.length then r.deferredVotes.tail
      else r.deferredVotes with hkept
    have hsub : kept.Sublist r.deferredVotes := by
      rw [hkept]
      split
      · exact List.tail_sublist _
      · exact List.Sublist.refl _
    have hall : ∀ v ∈ given, b.Covered { r with deferredVotes := kept ++ [m] } v := by
      intro v hv
      have hlength : r.deferredVotes.length < maxDeferredVotes := by
        rcases hr.room with rfl | hlength | hpure
        · exact absurd hv List.not_mem_nil
        · exact hlength
        · rw [List.filter_eq_self.mpr fun w hw => by simpa using hpure w hw] at hfew
          omega
      have hsame : kept = r.deferredVotes := by rw [hkept, if_neg (by omega)]
      rcases hr.covered v hv with hv | ⟨w, hw, hrest⟩
      · exact .inl hv
      · exact .inr ⟨w, List.mem_append_left _ (hsame ▸ hw), hrest⟩
    refine ⟨h.queue hr.keeps _, fun v hv => ?_, fun v hv hatPlace => ?_, ?_⟩
    · rcases List.mem_append.mp hv with hv | hv
      · exact hall v hv
      · rw [List.mem_singleton.mp hv]
        exact .inr ⟨m, List.mem_append_right _ (List.mem_singleton_self _), hplace, rfl, rfl⟩
    · rcases List.mem_append.mp hv with hv | hv
      · exact hr.counts v (hsub.subset hv) hatPlace
      · rw [List.mem_singleton.mp hv]
        exact hm
    · have hle := (hsub.filter b.AtPlace).length_le
      rw [List.filter_append, List.length_append, List.length_append]
      exact Nat.add_le_add (hle.trans hfew) (List.length_filter_le _ _)

/-- The node receives its own answer to a vote and replays. -/
lemma receiveOwn (env : ℕ → Reading) {own : Option ConsensusMessage} {env₀ : Reading}
    {r₁ r₂ : ConsensusRuntime} (hfed : b.Fed P env₀ (env 0) r m own r₁ r₂)
    (henv : ∀ n, b.Signs (env n)) :
    ∃ env', (∀ n, b.Signs (env' n)) ∧ r₁.receiveOwn env own = r₂.publishReplayedVotes env' := by
  rcases hfed.second with ⟨rfl, rfl⟩ | ⟨precommit, answer, rfl, hsecond⟩
  · exact ⟨env, henv, rfl⟩
  · refine ⟨fun n => env (n + 1), fun n => henv (n + 1), ?_⟩
    rw [ConsensusRuntime.receiveOwn]
    simp only [hsecond]

/-- **One vote from the network.** -/
lemma onConsensusReceived (h : b.Kept P) (henv : ∀ n, b.Signs (env n))
    (hr : b.Progress P given r) (hm : b.Counts m) (hroom : given.length < maxDeferredVotes) :
    ∃ r', r.onConsensusReceived env m = (.ok (), r') ∧ b.Progress P (given ++ [m]) r' := by
  by_cases htakes : BftConsensus.takesVote r.consensus.phase m.voteType = true
  · obtain ⟨own, r₁, r₂, hfed⟩ := h.feed hr.keeps hm htakes (henv 0) (henv 1)
    obtain ⟨env', henv', hown⟩ := receiveOwn (fun n => env (n + 1)) hfed
      fun n => henv (n + 1)
    have hcovered : ∀ v ∈ given ++ [m], b.Covered r₂ v := by
      intro v hv
      rcases List.mem_append.mp hv with hv | hv
      · rcases hr.covered v hv with hv | ⟨w, hw, hrest⟩
        · exact .inl (hfed.mono _ hv)
        · exact .inr ⟨w, hfed.deferred.symm ▸ hw, hrest⟩
      · rw [List.mem_singleton.mp hv]
        exact .inl hfed.counted
    obtain ⟨r', hreplay, hprogress⟩ := h.progress_of_replay henv' hfed.keeps hcovered
      (by rw [hfed.deferred]; exact hr.counts)
      (by rw [hfed.deferred, List.length_append]; exact hr.few.trans (Nat.le_add_right _ _))
    refine ⟨r', ?_, hprogress⟩
    rw [ConsensusRuntime.onConsensusReceived, hfed.first]
    exact hown.trans hreplay
  · obtain ⟨hkeeps, hcovered, hcounts, hfew⟩ := h.deferVote hr hm hroom
    obtain ⟨r', hreplay, hprogress⟩ :=
      h.progress_of_replay (fun n => henv (n + 1)) hkeeps hcovered hcounts hfew
    refine ⟨r', ?_, hprogress⟩
    rw [ConsensusRuntime.onConsensusReceived, h.early hr.keeps hm htakes]
    exact hreplay

/-- Votes from the network, one after the other. -/
lemma onVotes (h : b.Kept P) {env : ℕ → ℕ → Reading} (henv : ∀ i n, b.Signs (env i n))
    (votes : List ConsensusMessage) :
    ∀ {n : ℕ} {given : List ConsensusMessage} {r : ConsensusRuntime}, b.Progress P given r →
      (∀ m ∈ votes, b.Counts m) → given.length + votes.length ≤ maxDeferredVotes →
      ∃ r', ConsensusRuntime.onNetworkEvents env n (votes.map .consensusReceived) r = (.ok (), r') ∧
        b.Progress P (given ++ votes) r' := by
  induction votes with
  | nil =>
    intro n given r hr _ _
    exact ⟨r, rfl, by rwa [List.append_nil]⟩
  | cons m rest ih =>
    intro n given r hr hvotes hroom
    rw [List.length_cons] at hroom
    obtain ⟨r₁, hfirst, hprogress⟩ :=
      h.onConsensusReceived (henv n) hr (hvotes m List.mem_cons_self) (by omega)
    obtain ⟨r', hrest, hprogress'⟩ := ih (n := n + 1) hprogress
      (fun v hv => hvotes v (List.mem_cons_of_mem _ hv))
      (by rw [List.length_append, List.length_singleton]; omega)
    refine ⟨r', ?_, by rwa [List.append_assoc, List.singleton_append] at hprogress'⟩
    rw [List.map_cons, ConsensusRuntime.onNetworkEvents, ConsensusRuntime.onNetworkEvent, hfirst]
    exact hrest

end Kept

section
variable {b : Ballot} {p : SignedProposal} {times : Option UInt64 → Prop} {r : ConsensusRuntime}

/-- The proposal opens the round: the block is the candidate, and nothing is counted. -/
lemma Waiting.receiveProposal (h : b.Waiting p times r) (hb : b.Valid) {env : Reading}
    (hsign : b.Signs env) (hnow : times env.now) (hblock : p.block = b.block)
    (hround : p.round = b.round) :
    ∃ m r', r.receiveProposal env p = (.ok m, r') ∧ b.Active r' ∧
      r'.consensus.phase = .prevote ∧ r'.deferredVotes = r.deferredVotes ∧ b.Counts m ∧
      m.voteType = .prevote ∧ m.validatorId = b.self := by
  obtain ⟨consensus, hhandle⟩ := h.handles
  obtain ⟨hheight, _, _, _, _, rfl⟩ := BftConsensus.handleProposal_eq_ok hhandle
  obtain ⟨m, hm, hsigned⟩ := hsign .prevote
  have haccept := ConsensusRuntime.acceptProposal_of_fits (h.fits env.now hnow) hhandle
  set r' := ConsensusRuntime.resetDeadline { r with
    consensus := { r.consensus with proposal := some p.block.hash, phase := .prevote }
    pending := some p.block } env with hr'
  have hvote : r'.signVote env p.height p.round .prevote p.block.hash = .ok m := by
    rw [hheight, h.height, hround, hblock]
    have hown : r'.validator = b.self := h.own
    refine ConsensusRuntime.signVote_of_isVote ?_ ?_ <;> rw [hown]
    · exact hm
    · exact hsigned
  -- no vote of the round is counted before the proposal
  have hnone : ∀ t, b.counted r' t = ∅ := by
    intro t
    have hvotes : r'.consensus.votes = ∅ := h.votes
    rw [counted, BftConsensus.voters, hvotes]
    rfl
  have hprecommits : r'.precommits = [] := h.precommits
  have hbase : b.Base r' := by
    refine ⟨h.toInRound.congr rfl rfl rfl rfl rfl rfl h.history, ?_, ?_, ?_, ?_⟩
    · exact congrArg (fun block : Block => some block.hash) hblock
    · intro t
      rw [hnone]
      exact ⟨Finset.empty_subset _, Finset.empty_subset _⟩
    · intro known hknown
      rw [hprecommits] at hknown
      exact absurd hknown List.not_mem_nil
    · rw [hprecommits, hnone]
      rfl
  have hstage : b.Stage r' := by
    refine .prevote rfl (congrArg some hblock) h.chain ?_ (hnone _)
    rw [hnone]
    exact b.not_quorum_empty
  refine ⟨m, r', ?_, ⟨hbase, hstage⟩, rfl, rfl,
    ⟨hm.height, hm.round, hm.blockHash, hm.verify, ?_, ?_⟩, hm.voteType, hm.validatorId⟩
  · rw [ConsensusRuntime.receiveProposal, haccept]
    simp only [hvote]
  · rw [hm.validatorId]
    exact hb.registered
  · rw [hm.validatorId]
    exact Finset.mem_insert_self _ _

/-- **The proposal from the network.** -/
lemma onProposalReceived {given : List ConsensusMessage} {env : ℕ → Reading} (hb : b.Valid)
    (henv : ∀ n, b.Signs (env n)) (hr : b.Progress (b.Waiting p times) given r)
    (hnow : times (env 0).now) (hblock : p.block = b.block) (hround : p.round = b.round) :
    ∃ r', r.onProposalReceived env p = (.ok (), r') ∧ b.Progress b.Settled given r' := by
  obtain ⟨prevote, r₀, hreceive, hactive, hphase, hdeferred, hcounts, htype, hid⟩ :=
    hr.keeps.receiveProposal hb (henv 0) hnow hblock hround
  obtain ⟨own, r₁, r₂, hfed⟩ := hactive.feed hb (fun hother => absurd hphase hother) hcounts
    (by rw [hphase, htype]; rfl) (henv 1) (henv 2)
  obtain ⟨env', henv', hown⟩ := Kept.receiveOwn (fun n => env (n + 2)) hfed
    fun n => henv (n + 2)
  have hself : b.self ∈ b.counted r₂ .prevote := by
    rw [← hid, ← htype]
    exact hfed.counted
  have hqueue : r₂.deferredVotes = r.deferredVotes := hfed.deferred.trans hdeferred
  have hcovered : ∀ m ∈ given, b.Covered r₂ m := by
    intro m hm
    rcases hr.covered m hm with hm | ⟨v, hv, hrest⟩
    · -- nothing is counted before the proposal
      rw [counted, BftConsensus.voters, hr.keeps.votes] at hm
      exact absurd hm (Finset.notMem_empty _)
    · exact .inr ⟨v, hqueue ▸ hv, hrest⟩
  obtain ⟨r', hreplay, hprogress⟩ := (settled_kept hb).progress_of_replay henv'
    ⟨hfed.keeps.1, hself, hfed.keeps.2⟩ hcovered (by rw [hqueue]; exact hr.counts)
    (by rw [hqueue]; exact hr.few)
  refine ⟨r', ?_, hprogress⟩
  rw [ConsensusRuntime.onProposalReceived, hreceive]
  simp only [hfed.first]
  exact hown.trans hreplay

/-- When every expected vote has come in, the node has finalised the block exactly if both kinds of
votes are a quorum. -/
lemma Progress.finalized_iff {given : List ConsensusMessage} (h : b.Progress b.Settled given r)
    (hgiven : ∀ t, ∀ id ∈ b.others t, ∃ m ∈ given, m.voteType = t ∧ m.validatorId = id) :
    ((r.consensus.phase = .finalized ∧ r.chain = b.after) ∨
      (r.consensus.phase ≠ .finalized ∧ r.chain = b.before)) ∧
    (r.consensus.phase = .finalized ↔
      b.Quorum (b.expected .prevote) ∧ b.Quorum (b.expected .precommit)) := by
  have hsettled := h.keeps
  -- a kind of votes that the phase takes is counted in full
  have hall : ∀ t, BftConsensus.takesVote r.consensus.phase t = true →
      b.others t ⊆ b.counted r t := by
    intro t htakes id hid
    obtain ⟨m, hm, htype, rfl⟩ := hgiven t id hid
    rcases h.covered m hm with hcounted | ⟨v, hv, hplace, hsame, _⟩
    · exact htype ▸ hcounted
    · rw [← htype, ← hsame] at htakes
      exact absurd htakes (h.early v hv hplace)
  cases hsettled.stage with
  | prevote hphase _ hchain hopen _ =>
    have hnot : r.consensus.phase ≠ .finalized := by
      rw [hphase]
      decide
    refine ⟨.inr ⟨hnot, hchain⟩, iff_of_false hnot fun hboth => hopen (hboth.1.mono ?_)⟩
    exact Finset.insert_subset hsettled.prevoted (hall .prevote (by rw [hphase]; rfl))
  | precommit hphase _ hchain _ hopen =>
    have hnot : r.consensus.phase ≠ .finalized := by
      rw [hphase]
      decide
    refine ⟨.inr ⟨hnot, hchain⟩, iff_of_false hnot fun hboth => hopen (hboth.2.mono ?_)⟩
    exact Finset.insert_subset (hsettled.precommitted (by rw [hphase]; decide))
      (hall .precommit (by rw [hphase]; rfl))
  | finalized hphase _ hchain hprevotes hprecommits =>
    exact ⟨.inl ⟨hphase, hchain⟩, iff_of_true hphase ⟨hprevotes.mono (hsettled.counted _).2,
      hprecommits.mono (hsettled.counted _).2⟩⟩

end

end

end Ballot

namespace ConsensusRuntime
variable [Primitives]

/-- Messages that come in after others. -/
lemma onNetworkEvents_append {env : ℕ → ℕ → Reading} (rest : List NetworkEvent) :
    ∀ {events : List NetworkEvent} {n : ℕ} {r r' : ConsensusRuntime},
      onNetworkEvents env n events r = (.ok (), r') →
      onNetworkEvents env n (events ++ rest) r
        = onNetworkEvents env (n + events.length) rest r' := by
  intro events
  induction events with
  | nil =>
    intro n r r' h
    obtain ⟨_, rfl⟩ := Prod.mk.inj h
    rfl
  | cons event events ih =>
    intro n r r' h
    rw [onNetworkEvents] at h
    rw [List.cons_append, onNetworkEvents]
    rcases hevent : r.onNetworkEvent (env n) event with ⟨e | ⟨⟩, r₁⟩
    · rw [hevent] at h
      cases h
    · rw [hevent] at h
      rw [List.length_cons, Nat.add_comm events.length 1, ← Nat.add_assoc]
      exact ih h

end ConsensusRuntime

/-- Messages in some order: votes, then the proposal, then the other votes. -/
lemma NetworkEvent.split_of_perm {p : SignedProposal} {votes : List ConsensusMessage}
    {order : List NetworkEvent}
    (h : order.Perm (.proposalReceived p :: votes.map .consensusReceived)) :
    ∃ first second : List ConsensusMessage, (first ++ second).Perm votes ∧
      order = first.map .consensusReceived ++
        .proposalReceived p :: second.map .consensusReceived := by
  obtain ⟨s, t, rfl⟩ := List.append_of_mem (h.mem_iff.mpr List.mem_cons_self)
  have hrest : (s ++ t).Perm (votes.map .consensusReceived) :=
    (List.perm_middle.symm.trans h).cons_inv
  have hvotes : ∀ l : List NetworkEvent, l ⊆ s ++ t →
      ∃ l' : List ConsensusMessage, l'.map .consensusReceived = l := by
    intro l hl
    have hrange : l ∈ Set.range (List.map NetworkEvent.consensusReceived) := by
      rw [Set.range_list_map]
      intro event hevent
      obtain ⟨m, _, hm⟩ := List.mem_map.mp (hrest.mem_iff.mp (hl hevent))
      exact ⟨m, hm⟩
    exact hrange
  obtain ⟨first, rfl⟩ := hvotes s (List.subset_append_left _ _)
  obtain ⟨second, rfl⟩ := hvotes t (List.subset_append_right _ _)
  refine ⟨first, second, ?_, rfl⟩
  rw [← List.map_append] at hrest
  exact (List.map_perm_map_iff fun _ _ => NetworkEvent.consensusReceived.inj).mp hrest

namespace Ballot
variable [Primitives]

/-- **All messages in any order.** -/
lemma delivered {b : Ballot} {p : SignedProposal} {times : Option UInt64 → Prop}
    {r : ConsensusRuntime} {env : ℕ → ℕ → Reading} (hb : b.Valid)
    (henv : ∀ i n, b.Signs (env i n)) (hr : b.Waiting p times r)
    (hcounts : ∀ v ∈ r.deferredVotes, b.AtPlace v → b.Counts v)
    (hroom : r.deferredVotes.filter b.AtPlace = [] ∨ r.deferredVotes.length < maxDeferredVotes)
    (htimes : ∀ i, times (env i 0).now)
    (hblock : p.block = b.block) (hround : p.round = b.round) {votes : List ConsensusMessage}
    (hvotes : ∀ m ∈ votes, b.Counts m)
    (hothers : ∀ t, ∀ id ∈ b.others t, ∃ m ∈ r.deferredVotes.filter b.AtPlace ++ votes,
      m.voteType = t ∧ m.validatorId = id)
    (hfew : (r.deferredVotes.filter b.AtPlace).length + votes.length ≤ maxDeferredVotes)
    {order : List NetworkEvent}
    (horder : order.Perm (.proposalReceived p :: votes.map .consensusReceived)) :
    ∃ r', ConsensusRuntime.onNetworkEvents env 0 order r = (.ok (), r') ∧
      ((r'.consensus.phase = .finalized ∧ r'.chain = b.after) ∨
        (r'.consensus.phase ≠ .finalized ∧ r'.chain = b.before)) ∧
      (r'.consensus.phase = .finalized ↔
        b.Quorum (b.expected .prevote) ∧ b.Quorum (b.expected .precommit)) := by
  -- the proposal splits the order: votes that wait for it, and votes that are counted on arrival
  obtain ⟨first, second, hperm, rfl⟩ := NetworkEvent.split_of_perm horder
  have hlength := hperm.length_eq
  rw [List.length_append] at hlength
  have hstart : b.Progress (b.Waiting p times) (r.deferredVotes.filter b.AtPlace) r := by
    refine ⟨hr, fun m hm => ?_, hcounts, fun v _ _ => ?_, le_rfl, hroom.imp_right .inl⟩
    · obtain ⟨hmem, hplace⟩ := List.mem_filter.mp hm
      exact .inr ⟨m, hmem, of_decide_eq_true hplace, rfl, rfl⟩
    · rw [hr.phase]
      exact Bool.false_ne_true
  obtain ⟨r₁, hfirst, hprogress₁⟩ := (waiting_kept b p times).onVotes henv first hstart
    (fun m hm => hvotes m (hperm.subset (List.mem_append_left _ hm)))
    (by omega)
  obtain ⟨r₂, hproposal, hprogress₂⟩ := onProposalReceived hb
    (henv (0 + (first.map NetworkEvent.consensusReceived).length)) hprogress₁ (htimes _) hblock
    hround
  obtain ⟨r₃, hsecond, hprogress₃⟩ := (settled_kept hb).onVotes henv second
    (n := 0 + (first.map NetworkEvent.consensusReceived).length + 1) hprogress₂
    (fun m hm => hvotes m (hperm.subset (List.mem_append_right _ hm)))
    (by rw [List.length_append]; omega)
  refine ⟨r₃, ?_, hprogress₃.finalized_iff fun t id hid => ?_⟩
  · rw [ConsensusRuntime.onNetworkEvents_append _ hfirst, ConsensusRuntime.onNetworkEvents,
      ConsensusRuntime.onNetworkEvent, hproposal]
    exact hsecond
  · obtain ⟨m, hm, hrest⟩ := hothers t id hid
    refine ⟨m, ?_, hrest⟩
    rw [List.append_assoc]
    exact (hperm.symm.append_left _).subset hm

end Ballot

namespace ConsensusRuntime
variable [Primitives]

/-! ## Reachable runtimes -/

/-- A runtime of the validators, which has counted and kept nothing before the proposal. -/
structure Opened (validators : List Validator) (validator : String) (r : ConsensusRuntime) :
    Prop where
  runs : r.consensus.RunsFor validators
  listed : r.validators = validators
  own : r.validator = validator
  empty : r.consensus.phase = .propose → r.consensus.votes = ∅ ∧ r.precommits = []

lemma Opened.move {validators : List Validator} {validator : String} {r r' : ConsensusRuntime}
    {signed : List ConsensusMessage} (h : Opened validators validator r)
    (hmove : Move (fun _ => True) r signed r') : Opened validators validator r' := by
  cases hmove with
  | timer deadline => exact ⟨h.runs, h.listed, h.own, h.empty⟩
  | queue votes hknown => exact ⟨h.runs, h.listed, h.own, h.empty⟩
  | records s => exact ⟨⟨h.runs.registered, h.runs.total⟩, h.listed, h.own, h.empty⟩
  | handOver => exact ⟨h.runs, h.listed, h.own, h.empty⟩
  | proposal now p consensus hfits hhandle =>
    obtain ⟨_, _, _, _, _, rfl⟩ := BftConsensus.handleProposal_eq_ok hhandle
    exact ⟨⟨h.runs.registered, h.runs.total⟩, h.listed, h.own, fun hphase => by cases hphase⟩
  | prevote m => exact h
  | vote env m consensus hknown hhandle =>
    obtain ⟨_, _, _, heq⟩ := afterVote_eq r env m consensus
    obtain ⟨hcheck, _, s, haccepts⟩ := BftConsensus.handle_ok hhandle
    obtain ⟨_, _, _, htakes⟩ := BftConsensus.checkVote_eq_ok.mp hcheck
    have hphase : r.consensus.phase ≠ .propose := by
      intro hpropose
      rw [hpropose] at htakes
      cases htakes
    rw [heq]
    cases haccepts with
    | counted =>
      exact ⟨⟨h.runs.registered, h.runs.total⟩, h.listed, h.own, fun hp => absurd hp hphase⟩
    | locked =>
      exact ⟨⟨h.runs.registered, h.runs.total⟩, h.listed, h.own, fun hp => by cases hp⟩
    | finalized =>
      exact ⟨⟨h.runs.registered, h.runs.total⟩, h.listed, h.own, fun hp => by cases hp⟩
  | precommit block m => exact h
  | drop => exact ⟨h.runs, h.listed, h.own, h.empty⟩
  | commit block chain => exact ⟨h.runs, h.listed, h.own, h.empty⟩
  | timeout round consensus hround hstart =>
    rcases BftConsensus.startRound_eq_ok hstart with ⟨_, rfl⟩ | ⟨_, _, rfl⟩ <;>
      exact ⟨⟨h.runs.registered, h.runs.total⟩, h.listed, h.own, fun _ => ⟨rfl, rfl⟩⟩
  | next height consensus hheight hwhy hstart =>
    rcases BftConsensus.startRound_eq_ok hstart with ⟨_, rfl⟩ | ⟨_, _, rfl⟩ <;>
      exact ⟨⟨h.runs.registered, h.runs.total⟩, h.listed, h.own, fun _ => ⟨rfl, rfl⟩⟩
  | sync now c chain => exact ⟨h.runs, h.listed, h.own, h.empty⟩

lemma Started.opened {chain : Blockchain} {validators : List Validator} {schedule : EventSchedule}
    {validator : String} {r : ConsensusRuntime} (h : Started chain validators schedule validator r)
    (steps : List ((ℕ → Reading) × Op)) : Opened validators validator (r.run steps) := by
  obtain ⟨_, _, _, _, _, _, hheight, hruns, rfl⟩ := h.eq
  refine (run_induction (fun hr hmove => hr.move hmove) steps ?_ ?_).2
  · exact ⟨hheight.le, fun _ hvote => absurd hvote List.not_mem_nil⟩
  · exact ⟨hruns, rfl, rfl, fun _ => ⟨rfl, rfl⟩⟩

/-! ## The end of the replay -/

namespace Replay

/-- A vote is left for later, or fewer are left. -/
lemma vote_remaining (env : ℕ → Reading) (s : Replay) (v : ConsensusMessage) :
    (s.vote env v).2.remaining = s.remaining ∨
      ((s.vote env v).2.remaining = s.remaining ++ [v] ∧
        (s.vote env v).2.progressed = s.progressed) := by
  unfold vote receive
  rcases s.runtime.receiveVote (env s.readings) v with ⟨e | _ | precommit, r₁⟩ <;> dsimp only
  · split
    · exact .inr ⟨rfl, rfl⟩
    · exact .inl rfl
  · exact .inl rfl
  · rcases r₁.receiveVote (env (s.readings + 1)) precommit with ⟨e | answer, r₂⟩ <;> exact .inl rfl

/-- A loop over the votes that makes progress leaves fewer of them. -/
lemma votes_remaining (env : ℕ → Reading) (l : List ConsensusMessage) : ∀ s : Replay,
    (votes env l s).2.remaining.length ≤ s.remaining.length + l.length ∧
      ((votes env l s).2.progressed = true →
        s.progressed = true ∨
          (votes env l s).2.remaining.length < s.remaining.length + l.length) := by
  induction l with
  | nil => exact fun s => ⟨le_rfl, .inl⟩
  | cons v l ih =>
    intro s
    have hvote := vote_remaining env s v
    unfold votes
    rcases hs : s.vote env v with ⟨e | ⟨⟩, s₁⟩ <;> rw [hs] at hvote <;>
      dsimp only at hvote ⊢ <;> rw [List.length_cons]
    · rcases hvote with hsame | ⟨hmore, hflag⟩
      · rw [hsame]
        exact ⟨Nat.le_add_right _ _, fun _ => .inr (by omega)⟩
      · rw [hmore, hflag, List.length_append, List.length_singleton]
        exact ⟨by omega, .inl⟩
    · obtain ⟨hle, hless⟩ := ih s₁
      rcases hvote with hsame | ⟨hmore, hflag⟩
      · rw [hsame] at hle hless
        exact ⟨by omega, fun _ => .inr (by omega)⟩
      · rw [hmore, List.length_append, List.length_singleton] at hle hless
        rw [hflag] at hless
        exact ⟨by omega, fun hyes => (hless hyes).imp_right fun h => by omega⟩

/-- The outer loop stops by itself: a round for each deferred vote, and one more, are enough. -/
lemma rounds_end (env : ℕ → Reading) (fuel : ℕ) : ∀ s : Replay,
    s.runtime.deferredVotes.length < fuel → (rounds env fuel s).1 = .ok () →
      (rounds env fuel s).2.progressed = false := by
  induction fuel with
  | zero => exact fun s hfuel => absurd hfuel (Nat.not_lt_zero _)
  | succ fuel ih =>
    intro s hfuel
    set start : Replay := { s with
      runtime := { s.runtime with deferredVotes := [] }, remaining := [], progressed := false }
      with hstart
    obtain ⟨_, hless⟩ := votes_remaining env s.runtime.deferredVotes start
    unfold rounds
    simp only [← hstart]
    rcases hs : votes env s.runtime.deferredVotes start with ⟨e | ⟨⟩, s₁⟩ <;> rw [hs] at hless <;>
      dsimp only at hless ⊢
    · exact fun herror => by cases herror
    · split
      · rename_i hyes
        have hlength : s₁.remaining.length < fuel := by
          rcases hless hyes with hfalse | hlt
          · cases hfalse
          · rw [hstart, List.length_nil] at hlt
            omega
        exact ih _ hlength
      · rename_i hno
        exact fun _ => eq_false_of_ne_true hno

end Replay

/-! ## The order does not matter -/

/-- The round a runtime is in, for a proposal, the chain with its block, and the votes given. -/
def ballot (r : ConsensusRuntime) (p : SignedProposal) (after : Blockchain)
    (prevotes precommits : List ConsensusMessage) : Ballot where
  validators := r.validators
  self := r.validator
  height := r.consensus.height
  round := r.consensus.round
  block := p.block
  before := r.chain
  after := after
  others
    | .prevote => votersOf prevotes
    | .precommit => votersOf precommits

section
variable {validators : List Validator} {validator : String} {r : ConsensusRuntime}
  {p : SignedProposal} {after : Blockchain} {prevotes precommits : List ConsensusMessage}

/-- A runtime that takes the proposal waits for it. -/
lemma Opened.waiting (h : Opened validators validator r) {consensus : BftConsensus}
    (hhandle : r.consensus.handleProposal p = .ok consensus)
    (hhistory : ∀ t id hash,
      r.consensus.voteHistory.lookup (r.consensus.height, r.consensus.round, t, id) = some hash →
        hash = p.block.hash) :
    (r.ballot p after prevotes precommits).Waiting p (fun now => r.Fits now p.block) r := by
  obtain ⟨_, _, _, _, hphase, _⟩ := BftConsensus.handleProposal_eq_ok hhandle
  obtain ⟨hvotes, hprecommits⟩ := h.empty hphase
  refine ⟨⟨?_, rfl, rfl, rfl, rfl, hhistory⟩, hphase, hvotes, hprecommits, rfl, ⟨_, hhandle⟩,
    fun now hnow => hnow⟩
  show r.consensus.RunsFor r.validators
  rw [h.listed]
  exact h.runs

/-- A proposal that the runtime takes, with a block the chain takes, makes a valid round. -/
lemma Opened.ballot_valid (h : Opened validators validator r) {consensus : BftConsensus}
    (hhandle : r.consensus.handleProposal p = .ok consensus)
    (hself : validator ∈ idsOf validators) (hpower : sumPower validators < 2 ^ 63)
    (happlies : r.chain.applyBlock p.block = .ok after) :
    (r.ballot p after prevotes precommits).Valid := by
  obtain ⟨hheight, _, hverify, _⟩ := BftConsensus.handleProposal_eq_ok hhandle
  simp only [SignedProposal.verify, bind_eq_ok, ensure_eq_ok] at hverify
  obtain ⟨_, hsame, _, hhash, _⟩ := hverify
  have hids := h.runs.registered.nodup
  rw [← h.listed] at hids hself hpower
  rw [← h.own] at hself
  exact ⟨hids, hpower, hself, hsame.symm.trans hheight, hhash, happlies⟩

/-- The given votes are ones the node can count. -/
lemma Opened.counts (h : Opened validators validator r) {t : VoteType} {m : ConsensusMessage}
    (hm : IsVote m.validatorId r.consensus.height r.consensus.round t p.block.hash m)
    (hregistered : m.validatorId ∈ idsOf validators)
    (hgiven : m.validatorId ∈ (r.ballot p after prevotes precommits).others t) :
    (r.ballot p after prevotes precommits).Counts m := by
  rw [← h.listed] at hregistered
  refine ⟨hm.height, hm.round, hm.blockHash, hm.verify, hregistered, ?_⟩
  rw [hm.voteType]
  exact Finset.mem_insert_of_mem hgiven

end

/-- The votes of the height and the round that are deferred already. -/
def deferredHere (r : ConsensusRuntime) : List ConsensusMessage :=
  r.deferredVotes.filter fun v => v.height = r.consensus.height ∧ v.round = r.consensus.round

/-- The votes of a kind among some. -/
def ofType (t : VoteType) (votes : List ConsensusMessage) : List ConsensusMessage :=
  votes.filter fun v => v.voteType = t

omit [Primitives] in
lemma mem_ofType {t : VoteType} {votes : List ConsensusMessage} {m : ConsensusMessage} :
    m ∈ ofType t votes ↔ m ∈ votes ∧ m.voteType = t := by
  rw [ofType, List.mem_filter, decide_eq_true_iff]

/-- The others of a round are the validators of the votes deferred before and given now. -/
lemma mem_others_ballot {r : ConsensusRuntime} {p : SignedProposal} {after : Blockchain}
    {D A B : List ConsensusMessage} (hA : ∀ m ∈ A, m.voteType = .prevote)
    (hB : ∀ m ∈ B, m.voteType = .precommit) (t : VoteType) (id : String) :
    id ∈ (r.ballot p after (ofType .prevote D ++ A) (ofType .precommit D ++ B)).others t ↔
      ∃ m ∈ D ++ (A ++ B), m.voteType = t ∧ m.validatorId = id := by
  -- the votes of a kind come from the deferred ones and from one of the lists
  have hkind : ∀ {l l' : List ConsensusMessage}, (∀ m ∈ l, m.voteType = t) →
      (∀ m ∈ l', m.voteType ≠ t) → (id ∈ votersOf (ofType t D ++ l) ↔
        ∃ m, (m ∈ D ∨ m ∈ l ∨ m ∈ l') ∧ m.voteType = t ∧ m.validatorId = id) := by
    intro l l' hl hl'
    rw [mem_votersOf]
    constructor
    · rintro ⟨m, hm, hid⟩
      rcases List.mem_append.mp hm with hm | hm
      · exact ⟨m, .inl (mem_ofType.mp hm).1, (mem_ofType.mp hm).2, hid⟩
      · exact ⟨m, .inr (.inl hm), hl m hm, hid⟩
    · rintro ⟨m, hm | hm | hm, htype, hid⟩
      · exact ⟨m, List.mem_append_left _ (mem_ofType.mpr ⟨hm, htype⟩), hid⟩
      · exact ⟨m, List.mem_append_right _ hm, hid⟩
      · exact absurd htype (hl' m hm)
  simp only [List.mem_append]
  cases t with
  | prevote => exact hkind hA fun m hm => by rw [hB m hm]; decide
  | precommit =>
    simp only [or_comm (a := _ ∈ A)]
    exact hkind hB fun m hm => by rw [hA m hm]; decide

/-- A proposal that the runtime answers with a prevote fits. -/
lemma fits_of_receiveProposal {r : ConsensusRuntime} {env : Reading} {p : SignedProposal}
    {prevote : ConsensusMessage} (h : (r.receiveProposal env p).1 = .ok prevote) :
    r.Fits env.now p.block ∧ ∃ consensus, r.consensus.handleProposal p = .ok consensus := by
  rw [receiveProposal] at h
  cases haccept : r.acceptProposal env p with
  | error e =>
    rw [haccept] at h
    cases h
  | ok r₁ =>
    obtain ⟨hfits, consensus, hhandle, _⟩ := acceptProposal_eq_ok haccept
    exact ⟨hfits, consensus, hhandle⟩

/-- **The order of the votes does not matter.** Let the runtime of a registered validator, reached
by any calls, have recorded or deferred votes of its height and round for one block only. Give it
a proposal of that block that it accepts, with a block that can be applied, and prevotes `A` and
precommits `B` of registered validators for that block, in any order, at most 1024 with those that
are deferred. Then no call fails, every replay ends by itself, and the node has finalised the
block, which is appended to its chain once, exactly if the validators of `A` and of the deferred
prevotes and the node, and those of `B` and of the deferred precommits and the node, each have more
than two thirds of the power. Otherwise its chain is as before. -/
theorem vote_order_irrelevant (chain : Blockchain) (validators : List Validator)
    (schedule : EventSchedule) (validator : String) (start : ConsensusRuntime)
    (hstart : Started chain validators schedule validator start)
    (steps : List ((ℕ → Reading) × Op)) (r : ConsensusRuntime) (hr : r = start.run steps)
    (hself : validator ∈ idsOf validators) (hpower : sumPower validators < 2 ^ 63)
    (env : ℕ → ℕ → Reading) (p : SignedProposal)
    (haccepts : ∀ i, ∃ prevote, (r.receiveProposal (env i 0) p).1 = .ok prevote)
    (hsigner : ∀ i n t, ∃ m,
      IsVote validator r.consensus.height r.consensus.round t p.block.hash m ∧
      (env i n).sign (ConsensusMessage.unsignedBytes r.consensus.height r.consensus.round validator
        t p.block.hash) = .ok m.signature)
    (after : Blockchain) (happlies : r.chain.applyBlock p.block = .ok after)
    (hhistory : ∀ t id hash,
      r.consensus.voteHistory.lookup (r.consensus.height, r.consensus.round, t, id) = some hash →
        hash = p.block.hash)
    (hdeferred : ∀ m ∈ r.deferredHere, m.validatorId ∈ idsOf validators ∧
      IsVote m.validatorId r.consensus.height r.consensus.round m.voteType p.block.hash m)
    (hroom : r.deferredHere = [] ∨ r.deferredVotes.length < 1024)
    (A B : List ConsensusMessage)
    (hA : ∀ m ∈ A, m.validatorId ∈ idsOf validators ∧
      IsVote m.validatorId r.consensus.height r.consensus.round .prevote p.block.hash m)
    (hB : ∀ m ∈ B, m.validatorId ∈ idsOf validators ∧
      IsVote m.validatorId r.consensus.height r.consensus.round .precommit p.block.hash m)
    (hfew : r.deferredHere.length + (A.length + B.length) ≤ 1024) (order : List NetworkEvent)
    (horder : order.Perm (.proposalReceived p :: (A ++ B).map .consensusReceived)) :
    (∀ (s : ConsensusRuntime) (readings : ℕ → Reading),
      (Replay.rounds readings (s.deferredVotes.length + 1) ⟨s, [], [], false, 0⟩).1 = .ok () →
      (Replay.rounds readings (s.deferredVotes.length + 1)
        ⟨s, [], [], false, 0⟩).2.progressed = false) ∧
    ∃ r', onNetworkEvents env 0 order r = (.ok (), r') ∧
      ((r'.consensus.phase = .finalized ∧ r'.chain = after ∧
          r'.chain.blocks = r.chain.blocks ++ [p.block]) ∨
        (r'.consensus.phase ≠ .finalized ∧ r'.chain = r.chain)) ∧
      (r'.consensus.phase = .finalized ↔
        2 * sumPower validators < 3 * weight (powerIn validators)
            (insert validator (votersOf (ofType .prevote r.deferredHere ++ A))) ∧
          2 * sumPower validators < 3 * weight (powerIn validators)
            (insert validator (votersOf (ofType .precommit r.deferredHere ++ B)))) := by
  refine ⟨fun s readings => Replay.rounds_end readings _ _ (Nat.lt_succ_self _), ?_⟩
  have hopened : Opened validators validator r := hr ▸ hstart.opened steps
  -- what the node accepts fits at every time it may come in
  have haccepted : ∀ i, r.Fits (env i 0).now p.block ∧
      ∃ consensus, r.consensus.handleProposal p = .ok consensus := by
    intro i
    obtain ⟨prevote, hreceive⟩ := haccepts i
    exact fits_of_receiveProposal hreceive
  obtain ⟨_, consensus, hhandle⟩ := haccepted 0
  obtain ⟨_, hround, _⟩ := BftConsensus.handleProposal_eq_ok hhandle
  set b := r.ballot p after (ofType .prevote r.deferredHere ++ A)
    (ofType .precommit r.deferredHere ++ B)
  have hothers : ∀ t id, id ∈ b.others t ↔
      ∃ m ∈ r.deferredHere ++ (A ++ B), m.voteType = t ∧ m.validatorId = id :=
    mem_others_ballot (fun m hm => (hA m hm).2.voteType) fun m hm => (hB m hm).2.voteType
  -- a vote counts alike, whether it is given now or was deferred before
  have hcounts : ∀ m ∈ r.deferredHere ++ (A ++ B), b.Counts m := by
    intro m hm
    have hgiven := (hothers m.voteType m.validatorId).mpr ⟨m, hm, rfl, rfl⟩
    rcases List.mem_append.mp hm with hm | hm
    · exact hopened.counts (hdeferred m hm).2 (hdeferred m hm).1 hgiven
    rcases List.mem_append.mp hm with hm | hm
    · rw [(hA m hm).2.voteType] at hgiven
      exact hopened.counts (hA m hm).2 (hA m hm).1 hgiven
    · rw [(hB m hm).2.voteType] at hgiven
      exact hopened.counts (hB m hm).2 (hB m hm).1 hgiven
  have hsigns : ∀ i n, b.Signs (env i n) := by
    intro i n t
    obtain ⟨m, hm, hsigned⟩ := hsigner i n t
    rw [← hopened.own] at hm hsigned
    exact ⟨m, hm, hsigned⟩
  obtain ⟨r', hevents, hend, hiff⟩ := Ballot.delivered
    (hopened.ballot_valid hhandle hself hpower happlies) hsigns (hopened.waiting hhandle hhistory)
    (fun v hv hplace => hcounts v
      (List.mem_append_left _ (List.mem_filter.mpr ⟨hv, decide_eq_true hplace⟩)))
    hroom (fun i => (haccepted i).1) rfl hround
    (fun m hm => hcounts m (List.mem_append_right _ hm)) (fun t id => (hothers t id).mp)
    (by rw [List.length_append]; exact hfew) horder
  refine ⟨r', hevents, ?_, ?_⟩
  · rcases hend with ⟨hfinal, hchain⟩ | hopen
    · obtain ⟨_, state, _, _, _, rfl⟩ := Blockchain.applyBlock_eq_ok.mp happlies
      exact .inl ⟨hfinal, hchain, by rw [hchain]; rfl⟩
    · exact .inr hopen
  · rw [hiff, ← hopened.own, ← hopened.listed]
    rfl

end ConsensusRuntime

/-! ## Two validators -/

/-- The hash of a block depends on SHA-256 only. -/
lemma Block.calculateHash_congr {P Q : Primitives} (h : P.sha256 = Q.sha256) (block : Block) :
    @Block.calculateHash P block = @Block.calculateHash Q block := by
  have hhex : ∀ bytes, @sha256Hex P bytes = @sha256Hex Q bytes := by
    intro bytes
    simp only [sha256Hex, h]
  simp only [Block.calculateHash, Block.preimage, Block.transactionBytes, Transaction.id, hhex]

namespace TwoValidators

/-- The votes of the other validator for the first block. -/
def peerPrevote : ConsensusMessage :=
  { Devnet.vote .prevote Devnet.first
      0x18485fb983c73ce5ef3e2cbc5c46e0ccf61d3cfaa5f24b179543c1e0ff35b766
      0x0ee3d033230b47e52127b3fc2c8ca7c75c0b7de209caef220b8e33adc70f8905 with
    validatorId := Devnet.user }

def peerPrecommit : ConsensusMessage :=
  { Devnet.vote .precommit Devnet.first
      0x2f7388a8fa45c9eaea64a45062db3144004485737a1f7d7cd2355c8bbe950c87
      0x894248204b23583fb90fd30d4de995cbbbad6e83c17cdbc1f096e77ad0f67b03 with
    validatorId := Devnet.user }

/-- Its proposal of the block: the turn is its own, since its id is the smaller one. -/
def peerProposal : SignedProposal :=
  { Devnet.proposal Devnet.first
      0xfbc6c2e25c73a89fcf8e445044689171598a196052aa7b50cd5595586394bdac
      0x91f791baae84b01a64c3833e09759cde9557ec35f6ba5a30d65d7175d5e12709 with
    proposerId := Devnet.user }

/-- The votes of both validators for the block. -/
def votes : List ConsensusMessage :=
  [Devnet.firstPrevote, Devnet.firstPrecommit, peerPrevote, peerPrecommit]

/-- Address, message and signature of each vote and of the proposal. -/
def signatures : List (String × Bytes × String) :=
  (peerProposal.proposerId, SignedProposal.unsignedBytes peerProposal.height peerProposal.round
    peerProposal.proposerId peerProposal.block.hash peerProposal.validRound,
    peerProposal.signature) ::
  votes.map fun m => (m.validatorId, ConsensusMessage.unsignedBytes m.height m.round
    m.validatorId m.voteType m.blockHash, m.signature)

/-- The signatures of the two validators. -/
@[reducible] def primitives : Primitives :=
  { Devnet.primitives with
    ed25519Verify := Devnet.signedIn signatures }

/-- The two validators, each with half of the power. -/
def validators : List Validator := [⟨Devnet.validator, 100⟩, ⟨Devnet.user, 100⟩]

section
attribute [local instance] primitives

lemma verifySignature_of_mem {address sig : String} {message : Bytes}
    (haddress : address = Devnet.validator ∨ address = Devnet.user)
    (hsig : ∃ r s, sig = Devnet.signature r s) (h : (address, message, sig) ∈ signatures) :
    verifySignature address message sig = .ok () := by
  refine Devnet.verifySignature_of_keys haddress hsig
    ⟨decide_eq_true (.inl rfl), decide_eq_true (.inr rfl)⟩ ?_
  rintro key bytes rfl rfl
  exact List.contains_iff_mem.mpr h

lemma isVote : ∀ m ∈ votes, IsVote m.validatorId 1 0 m.voteType Devnet.first.hash m := by
  intro m hm
  have hshape : (m.height = 1 ∧ m.round = 0 ∧ m.blockHash = Devnet.first.hash) ∧
      (m.validatorId = Devnet.validator ∨ m.validatorId = Devnet.user) ∧
      ∃ r s, m.signature = Devnet.signature r s := by
    simp only [votes, List.mem_cons, List.not_mem_nil, or_false] at hm
    rcases hm with rfl | rfl | rfl | rfl
    · exact ⟨⟨rfl, rfl, rfl⟩, .inl rfl, _, _, rfl⟩
    · exact ⟨⟨rfl, rfl, rfl⟩, .inl rfl, _, _, rfl⟩
    · exact ⟨⟨rfl, rfl, rfl⟩, .inr rfl, _, _, rfl⟩
    · exact ⟨⟨rfl, rfl, rfl⟩, .inr rfl, _, _, rfl⟩
  exact ⟨rfl, hshape.1.1, hshape.1.2.1, rfl, hshape.1.2.2, verifySignature_of_mem hshape.2.1
    hshape.2.2 (List.mem_cons_of_mem _ (List.mem_map_of_mem hm))⟩

lemma sha256_eq : Devnet.primitives.sha256 = primitives.sha256 := rfl

lemma first_hash : Devnet.first.hash = Devnet.first.calculateHash :=
  Devnet.first_hash.trans (Block.calculateHash_congr sha256_eq _)

lemma verify_proposal : peerProposal.verify = .ok () := by
  simp only [SignedProposal.verify, bind_eq_ok, ensure_eq_ok]
  exact ⟨(), rfl, (), first_hash,
    verifySignature_of_mem (.inr rfl) ⟨_, _, rfl⟩ List.mem_cons_self⟩

/-- The ledger at the genesis block. -/
def chain : Blockchain := Blockchain.withChainId 1 []

lemma genesis_hash : Devnet.genesisHash = Block.genesis.hash :=
  Devnet.genesis_hash.trans (Block.calculateHash_congr sha256_eq _)

lemma user_lt_validator : Devnet.user < Devnet.validator := by
  decide

lemma nodup_ids : (validators.map Validator.id).Nodup :=
  List.nodup_cons.mpr ⟨by simpa using user_lt_validator.ne', List.nodup_singleton _⟩

/-- The node of the first validator right after its start. -/
lemma started : ∃ r,
    ConsensusRuntime.Started chain validators EventSchedule.empty Devnet.validator r := by
  have hpowers : ∀ v ∈ validators, v.votingPower ≠ 0 := by
    intro v hv
    simp only [validators, List.mem_cons, List.not_mem_nil, or_false] at hv
    rcases hv with rfl | rfl <;> exact (by decide : (100 : UInt64) ≠ 0)
  obtain ⟨c, hnew⟩ := (BftConsensus.new_isOk (List.cons_ne_nil _ _) nodup_ids hpowers).mpr
    (by decide)
  have hroom : chain.tipHeight.toNat + 1 < 2 ^ 64 := by decide
  obtain ⟨r₀, hr₀⟩ :=
    ConsensusRuntime.withSigner_isOk hroom hnew Devnet.validator ⟨3000, 2000, 2000⟩ 0
  obtain ⟨r, hr⟩ := ConsensusRuntime.setEventSchedule_isOk (r := r₀) EventSchedule.validate_empty
  exact ⟨r, _, _, r₀, hr₀, hr⟩

section
variable {r : ConsensusRuntime}

/-- The turn of the first round is the peer's. -/
lemma expectedProposer {c : BftConsensus} (hruns : c.RunsFor validators) (hheight : c.height = 1)
    (hround : c.round = 0) : c.expectedProposer = .ok Devnet.user := by
  have hkeys : sortedList c.validators.keys = [Devnet.user, Devnet.validator] := by
    refine sortedList_of_sorted (List.pairwise_pair.mpr user_lt_validator) fun id => ?_
    rw [Finmap.mem_keys, hruns.registered.mem, idsOf, List.mem_toFinset]
    simp only [validators, List.map_cons, List.map_nil, List.mem_cons, List.not_mem_nil, or_false]
    exact or_comm
  simp only [BftConsensus.expectedProposer, hheight, hround, hkeys, bind_eq_ok, ensure_eq_ok,
    okOr_eq_ok]
  exact ⟨(), by decide, rfl⟩

lemma handles (h : ConsensusRuntime.Started chain validators EventSchedule.empty
      Devnet.validator r) :
    ∃ consensus, r.consensus.handleProposal peerProposal = .ok consensus := by
  obtain ⟨map, total, height, _, _, _, hheight, hruns, rfl⟩ := h.eq
  have hone : height = 1 := UInt64.toNat_inj.mp hheight
  subst hone
  have hmem : Devnet.user ∈ map := (hruns.registered.mem _).mpr (by simp [idsOf, validators])
  have hhash : Devnet.first.hash ≠ "" := by
    intro hempty
    have hlength := Devnet.first.textLen_calculateHash
    rw [← first_hash, hempty] at hlength
    exact absurd hlength (by decide)
  simp only [BftConsensus.handleProposal, BftConsensus.propose, bind_eq_ok, ensure_eq_ok,
    pure_eq_ok]
  exact ⟨_, (), ⟨rfl, rfl⟩, (), hmem, (), verify_proposal, (), .inl rfl, (), rfl, _,
    expectedProposer hruns rfl rfl, (), rfl, (), hhash, rfl⟩

lemma fits (h : ConsensusRuntime.Started chain validators EventSchedule.empty
      Devnet.validator r) : r.Fits (some 1000) Devnet.first := by
  obtain ⟨map, total, height, _, _, _, _, _, rfl⟩ := h.eq
  refine ⟨rfl, genesis_hash, ?_⟩
  exact ConsensusRuntime.validateScheduledBlock_eq_ok.mpr ⟨⟨⟨Block.genesis, rfl, UInt64.zero_le⟩,
    rfl, rfl⟩, ConsensusRuntime.clockAllows_of_le (by decide)⟩

/-- The first block can be applied. -/
lemma applies (h : ConsensusRuntime.Started chain validators EventSchedule.empty
      Devnet.validator r) :
    ∃ after, r.chain.applyBlock Devnet.first = .ok after ∧
      after.blocks = r.chain.blocks ++ [Devnet.first] := by
  obtain ⟨map, total, height, _, _, _, _, _, rfl⟩ := h.eq
  have hlinks : Blockchain.Links Block.genesis Devnet.first := ⟨rfl, genesis_hash, first_hash⟩
  exact ⟨_, Blockchain.applyBlock_eq_ok.mpr
    ⟨Block.genesis, chain.state, rfl, hlinks, rfl, rfl⟩, rfl⟩

end

/-- A reading at which the block lies in the past, with the signatures of the first validator. -/
def reading : Reading where
  now := some 1000
  instant := 0
  sign bytes := .ok (if bytes = ConsensusMessage.unsignedBytes 1 0 Devnet.validator .prevote
    Devnet.first.hash then Devnet.firstPrevote.signature else Devnet.firstPrecommit.signature)

lemma signer (t : VoteType) : ∃ m, IsVote Devnet.validator 1 0 t Devnet.first.hash m ∧
    reading.sign (ConsensusMessage.unsignedBytes 1 0 Devnet.validator t Devnet.first.hash)
      = .ok m.signature := by
  cases t with
  | prevote =>
    exact ⟨Devnet.firstPrevote, isVote Devnet.firstPrevote (by simp [votes]),
      congrArg Except.ok (if_pos rfl)⟩
  | precommit =>
    refine ⟨Devnet.firstPrecommit, isVote Devnet.firstPrecommit (by simp [votes]),
      congrArg Except.ok (if_neg ?_)⟩
    simp only [ConsensusMessage.unsignedBytes, List.append_assoc, List.append_cancel_left_eq]
    intro heq
    exact absurd (List.cons.inj heq).1 (by decide)

lemma weight_both : weight (powerIn validators) (insert Devnet.validator {Devnet.user})
    = sumPower validators := weight_idsOf nodup_ids (List.Sublist.refl validators)

section
variable {r : ConsensusRuntime} {after : Blockchain}

/-- The node waits for the proposal, with any votes deferred. -/
lemma waits (h : ConsensusRuntime.Started chain validators EventSchedule.empty Devnet.validator r)
    (happlies : r.chain.applyBlock Devnet.first = .ok after)
    (prevotes precommits deferredVotes : List ConsensusMessage) :
    let b := r.ballot peerProposal after prevotes precommits
    b.Valid ∧ (b.height = 1 ∧ b.round = 0 ∧ b.self = Devnet.validator) ∧
      b.Waiting peerProposal (fun now => r.Fits now Devnet.first) { r with deferredVotes } := by
  have hopened : ConsensusRuntime.Opened validators Devnet.validator r := h.opened []
  obtain ⟨consensus, hhandle⟩ := handles h
  have hplace : r.consensus.height = 1 ∧ r.consensus.round = 0 ∧ r.validator = Devnet.validator ∧
      r.consensus.voteHistory = ∅ := by
    obtain ⟨map, total, height, _, _, _, hheight, _, rfl⟩ := h.eq
    exact ⟨UInt64.toNat_inj.mp hheight, rfl, rfl, rfl⟩
  obtain ⟨hheight, hround, hown, hhistory⟩ := hplace
  refine ⟨hopened.ballot_valid hhandle (by simp [idsOf, validators]) (by decide) happlies,
    ⟨hheight, hround, hown⟩, ?_⟩
  refine (Ballot.waiting_kept _ _ _).queue (hopened.waiting hhandle fun t id hash hlookup => ?_)
    deferredVotes
  rw [hhistory] at hlookup
  exact absurd hlookup (by simp)

lemma signs {b : Ballot} (hplace : b.height = 1 ∧ b.round = 0 ∧ b.self = Devnet.validator)
    (hblock : b.block = Devnet.first) : b.Signs reading := by
  intro t
  rw [hplace.1, hplace.2.1, hplace.2.2, hblock]
  exact signer t

/-- The node accepts the proposal, with any votes deferred. -/
lemma accepts
    (h : ConsensusRuntime.Started chain validators EventSchedule.empty Devnet.validator r)
    (deferredVotes : List ConsensusMessage) :
    ∃ prevote, ({ r with deferredVotes }.receiveProposal reading peerProposal).1 = .ok prevote := by
  obtain ⟨after, happlies, _⟩ := applies h
  obtain ⟨hvalid, hplace, hwaits⟩ := waits h happlies [] [] deferredVotes
  obtain ⟨m, r', hreceive, _⟩ :=
    hwaits.receiveProposal hvalid (signs hplace rfl) (fits h) rfl hplace.2.1.symm
  exact ⟨m, by rw [hreceive]⟩

end

/-- The precommit of the peer comes first, then its proposal, then its prevote. -/
theorem vote_order_irrelevant_two : ∃ r r', ConsensusRuntime.Started chain validators
      EventSchedule.empty Devnet.validator r ∧
    ConsensusRuntime.onNetworkEvents (fun _ _ => reading) 0 [.consensusReceived peerPrecommit,
      .proposalReceived peerProposal, .consensusReceived peerPrevote] r = (.ok (), r') ∧
    r'.consensus.phase = .finalized := by
  obtain ⟨r, hr⟩ := started
  obtain ⟨after, happlies, _⟩ := applies hr
  have hplace : r.consensus.height = 1 ∧ r.consensus.round = 0 ∧ r.deferredVotes = [] ∧
      r.consensus.voteHistory = ∅ := by
    obtain ⟨map, total, height, _, _, _, hheight, _, rfl⟩ := hr.eq
    exact ⟨UInt64.toNat_inj.mp hheight, rfl, rfl, rfl⟩
  obtain ⟨hheight, hround, hdeferred, hhistory⟩ := hplace
  have hhere : r.deferredHere = [] := by
    rw [ConsensusRuntime.deferredHere, hdeferred, List.filter_nil]
  have hmem : Devnet.user ∈ idsOf validators := by simp [idsOf, validators]
  have hquorum : 2 * sumPower validators
      < 3 * weight (powerIn validators) (insert Devnet.validator {Devnet.user}) := by
    rw [weight_both]
    decide
  obtain ⟨_, r', hevents, _, hiff⟩ := ConsensusRuntime.vote_order_irrelevant chain validators
    EventSchedule.empty Devnet.validator r hr [] r rfl (by simp [idsOf, validators]) (by decide)
    (fun _ _ => reading) peerProposal (fun _ => accepts hr r.deferredVotes)
    (fun _ _ t => by rw [hheight, hround]; exact signer t) after happlies
    (fun t id hash hlookup => by rw [hhistory] at hlookup; simp at hlookup)
    (fun m hm => by rw [hhere] at hm; cases hm) (.inl hhere) [peerPrevote] [peerPrecommit]
    (fun m hm => by
      rw [List.mem_singleton.mp hm, hheight, hround]
      exact ⟨hmem, isVote peerPrevote (by simp [votes])⟩)
    (fun m hm => by
      rw [List.mem_singleton.mp hm, hheight, hround]
      exact ⟨hmem, isVote peerPrecommit (by simp [votes])⟩)
    (by rw [hhere]; decide) _ (.trans (.swap _ _ _) (.cons _ (.swap _ _ _)))
  rw [hhere] at hiff
  exact ⟨r, r', hr, hevents, hiff.mpr ⟨hquorum, hquorum⟩⟩

/-- The votes of the peer, given to a node that has deferred them already. -/
lemma deferred_progress {r : ConsensusRuntime} {after : Blockchain}
    (h : ConsensusRuntime.Started chain validators EventSchedule.empty Devnet.validator r)
    (happlies : r.chain.applyBlock Devnet.first = .ok after) :
    let b := r.ballot peerProposal after [peerPrevote] [peerPrecommit]
    b.Progress (b.Waiting peerProposal fun now => r.Fits now Devnet.first)
      [peerPrevote, peerPrecommit]
      { r with deferredVotes := [peerPrevote, peerPrecommit] } := by
  intro b
  have hopened : ConsensusRuntime.Opened validators Devnet.validator r := h.opened []
  have hmem : Devnet.user ∈ idsOf validators := by simp [idsOf, validators]
  obtain ⟨_, hplace, hwaits⟩ :=
    waits h happlies [peerPrevote] [peerPrecommit] [peerPrevote, peerPrecommit]
  have hvote : ∀ m ∈ votes, IsVote m.validatorId r.consensus.height r.consensus.round m.voteType
      Devnet.first.hash m := by
    have hat : r.consensus.height = 1 ∧ r.consensus.round = 0 := ⟨hplace.1, hplace.2.1⟩
    rw [hat.1, hat.2]
    exact isVote
  have hcounts : ∀ v ∈ [peerPrevote, peerPrecommit], b.Counts v := by
    intro v hv
    simp only [List.mem_cons, List.not_mem_nil, or_false] at hv
    rcases hv with rfl | rfl
    · exact hopened.counts (hvote peerPrevote (by simp [votes])) hmem (Finset.mem_singleton_self _)
    · exact hopened.counts (hvote peerPrecommit (by simp [votes])) hmem
        (Finset.mem_singleton_self _)
  have hatPlace : ∀ v ∈ [peerPrevote, peerPrecommit], b.AtPlace v :=
    fun v hv => ⟨(hcounts v hv).height, (hcounts v hv).round⟩
  refine ⟨hwaits, fun m hm => .inr ⟨m, hm, hatPlace m hm, rfl, rfl⟩, fun v hv _ => hcounts v hv,
    fun v _ _ => ?_, List.length_filter_le _ _, .inr (.inr hatPlace)⟩
  rw [hwaits.phase]
  exact Bool.false_ne_true

lemma deferred_run {r : ConsensusRuntime}
    (h : ConsensusRuntime.Started chain validators EventSchedule.empty Devnet.validator r) :
    { r with deferredVotes := [peerPrevote, peerPrecommit] }
      = r.run [(fun _ => reading, .deferVote peerPrevote),
        (fun _ => reading, .deferVote peerPrecommit)] := by
  have hempty : r.deferredVotes = [] := by
    obtain ⟨_, _, _, _, _, _, _, _, rfl⟩ := h.eq
    rfl
  have htypes : peerPrevote.voteType ≠ peerPrecommit.voteType := by decide
  simp [ConsensusRuntime.run, ConsensusRuntime.step, ConsensusRuntime.deferVote, hempty, htypes,
    maxDeferredVotes]

/-- Votes that were deferred before count as well. The node has deferred both votes of its peer, is
given the proposal alone, and finalises the block, though its own power is not enough. -/
theorem deferred_votes_finalize : ∃ start r r', ConsensusRuntime.Started chain validators
      EventSchedule.empty Devnet.validator start ∧
    r = start.run [(fun _ => reading, .deferVote peerPrevote),
      (fun _ => reading, .deferVote peerPrecommit)] ∧
    r.consensus.phase = .propose ∧ Devnet.validator ∈ idsOf validators ∧
    sumPower validators < 2 ^ 63 ∧
    (∃ prevote, (r.receiveProposal reading peerProposal).1 = .ok prevote) ∧
    (∃ after, r.chain.applyBlock peerProposal.block = .ok after) ∧
    ConsensusRuntime.onNetworkEvents (fun _ _ => reading) 0 [.proposalReceived peerProposal] r
      = (.ok (), r') ∧
    r'.consensus.phase = .finalized ∧
    r'.chain.blocks = r.chain.blocks ++ [peerProposal.block] ∧
    ¬ 2 * sumPower validators
      < 3 * weight (powerIn validators) (insert Devnet.validator (votersOf [])) := by
  obtain ⟨start, hstart⟩ := started
  obtain ⟨after, happlies, hblocks⟩ := applies hstart
  have hopened : ConsensusRuntime.Opened validators Devnet.validator start := hstart.opened []
  obtain ⟨hvalid, hplace, hwaits⟩ :=
    waits hstart happlies [peerPrevote] [peerPrecommit] [peerPrevote, peerPrecommit]
  obtain ⟨r', hproposal, hsettled⟩ := Ballot.onProposalReceived hvalid
    (fun _ => signs hplace rfl) (deferred_progress hstart happlies)
    (fits hstart) rfl hplace.2.1.symm
  obtain ⟨hend, hiff⟩ := hsettled.finalized_iff fun t id hid => by
    cases t with
    | prevote => exact ⟨peerPrevote, by simp, rfl, (Finset.mem_singleton.mp hid).symm⟩
    | precommit => exact ⟨peerPrecommit, by simp, rfl, (Finset.mem_singleton.mp hid).symm⟩
  have hquorum : 2 * sumPower start.validators
      < 3 * weight (powerIn start.validators) (insert start.validator {Devnet.user}) := by
    rw [hopened.listed, hopened.own, weight_both]
    decide
  have hfinal := hiff.mpr ⟨hquorum, hquorum⟩
  refine ⟨start, { start with deferredVotes := [peerPrevote, peerPrecommit] }, r', hstart,
    deferred_run hstart, hwaits.phase, by simp [idsOf, validators], by decide,
    accepts hstart _, ⟨after, happlies⟩, ?_, hfinal, ?_, ?_⟩
  · rw [ConsensusRuntime.onNetworkEvents, ConsensusRuntime.onNetworkEvent, hproposal]
    rfl
  · rcases hend with ⟨_, hchain⟩ | ⟨hnot, _⟩
    · rw [hchain]
      exact hblocks
    · exact absurd hfinal hnot
  · have hone : weight (powerIn validators) (insert Devnet.validator (votersOf [])) = 100 := by
      rw [weight]
      exact (Finset.sum_singleton _ _).trans (powerIn_of_mem nodup_ids List.mem_cons_self)
    rw [hone]
    decide

end

end TwoValidators

end IeumChain
