import IeumChain.SnapshotScheduler
import IeumChain.Lib.Runs

/-!
# The scheduler loses and duplicates no chunk

`Consistent` says how the scheduler's state follows from what happened: every missing chunk is
queued, in flight or completed, once; a chunk is in flight at the peer that holds it; and the failure
counts are those of the log. Each way in which a chunk moves keeps it (`Consistent.assigned`,
`Consistent.failed`, `Consistent.completed`), so every run does (`Run.consistent`), and the
scheduler's promises are read off it (`scheduler_exact`).
-/

namespace IeumChain

open Lib

namespace SnapshotScheduler

/-! ## The log -/

section Log
variable (log : List Event)

lemma holder_concat (e : Event) (chunk : UInt32) :
    holder (log ++ [e]) chunk = e.holder chunk (holder log chunk) := by
  rw [holder, List.foldl_append]
  rfl

lemma completions_concat (e : Event) (chunk : UInt32) :
    completions (log ++ [e]) chunk = completions log chunk + completions [e] chunk :=
  List.countP_append

lemma count_concat (e event : Event) :
    (log ++ [e]).count event = log.count event + if e = event then 1 else 0 := by
  rw [List.count_append, List.count_singleton]
  by_cases heq : e = event
  · rw [if_pos heq, if_pos (beq_iff_eq.mpr heq)]
  · rw [if_neg heq, if_neg (by simpa using heq)]

/-- The budget was respected by every assignment so far. -/
def WithinBudget (retries : ℕ) : List Event → Prop :=
  Along fun before e => ∀ peer chunk, e = .assigned peer chunk →
    before.count (.failed peer chunk) < retries

end Log

lemma holds_iff {s : SnapshotScheduler} {peer : String} {chunk : UInt32} :
    s.holds peer chunk = true ↔ (s.inFlight.lookup chunk).map InFlight.peerId = some peer := by
  rw [holds]
  cases s.inFlight.lookup chunk <;> simp

/-! ## What a chunk's moves keep -/

/-- The state follows from what happened. -/
structure Consistent (missing : List UInt32) (start s : SnapshotScheduler) (log : List Event) :
    Prop where
  maxInFlight_eq : s.maxInFlight = start.maxInFlight
  retries_eq : s.maxPeerRetries = start.maxPeerRetries
  once : ∀ c, s.pending.count c + (if (s.inFlight.lookup c).isSome then 1 else 0) +
    completions log c = missing.count c
  held : ∀ c, (s.inFlight.lookup c).map InFlight.peerId = holder log c
  counted : ∀ peer c, s.failuresAt peer c = log.count (.failed peer c)
  limited : s.inFlight.len ≤ s.maxInFlight
  within : WithinBudget s.maxPeerRetries.toNat log

section Moves
variable {missing : List UInt32} {start s : SnapshotScheduler} {log : List Event}

lemma exists_inFlight {peer : String} {chunk : UInt32} (h : s.holds peer chunk) :
    ∃ inFlight, s.inFlight.lookup chunk = some inFlight := by
  obtain ⟨inFlight, hlookup, _⟩ := Option.map_eq_some_iff.mp (holds_iff.mp h)
  exact ⟨inFlight, hlookup⟩

lemma lookup_erase (m : HashMap UInt32 InFlight) (chunk c : UInt32) :
    (m.erase chunk).lookup c = if c = chunk then none else m.lookup c := by
  split
  · rename_i heq
    rw [heq, Finmap.lookup_erase]
  · rename_i hne
    exact Finmap.lookup_erase_ne hne

theorem Consistent.completed (h : Consistent missing start s log) {peer : String} {chunk : UInt32}
    (hholds : s.holds peer chunk) :
    Consistent missing start { s with inFlight := s.inFlight.erase chunk }
      (log ++ [.completed peer chunk]) := by
  obtain ⟨inFlight, hlookup⟩ := exists_inFlight hholds
  refine ⟨h.maxInFlight_eq, h.retries_eq, fun c => ?_, fun c => ?_, fun other c => ?_, ?_, ?_⟩
  · have honce := h.once c
    rw [completions_concat, lookup_erase]
    by_cases hc : c = chunk
    · rw [hc, hlookup] at honce
      rw [if_pos hc, hc]
      simp only [Option.isSome_some, if_true, Option.isSome_none, completions,
        List.countP_singleton, decide_true] at honce ⊢
      simp only [Bool.false_eq_true, if_false]
      omega
    · rw [if_neg hc]
      simp only [completions, List.countP_singleton, decide_eq_true_eq, Ne.symm hc,
        if_false] at honce ⊢
      omega
  · rw [holder_concat, lookup_erase, Event.holder]
    by_cases hc : c = chunk
    · rw [if_pos hc, if_pos hc.symm]
      rfl
    · rw [if_neg hc, if_neg fun heq => hc heq.symm]
      exact h.held c
  · rw [count_concat, if_neg (by simp), Nat.add_zero]
    exact h.counted other c
  · have hlen := HashMap.len_erase hlookup
    have hlimit := h.limited
    show HashMap.len (s.inFlight.erase chunk) ≤ s.maxInFlight
    omega
  · exact along_concat.mpr ⟨h.within, fun _ _ heq => by simp at heq⟩

theorem Consistent.failed (h : Consistent missing start s log) {peer : String} {chunk : UInt32}
    (hholds : s.holds peer chunk) :
    Consistent missing start (s.fail peer chunk) (log ++ [.failed peer chunk]) := by
  obtain ⟨inFlight, hlookup⟩ := exists_inFlight hholds
  rw [fail, if_pos hholds]
  refine ⟨h.maxInFlight_eq, h.retries_eq, fun c => ?_, fun c => ?_, fun other c => ?_, ?_, ?_⟩
  · have honce := h.once c
    rw [completions_concat, lookup_erase, List.count_append]
    by_cases hc : c = chunk
    · -- from in flight to the end of the queue
      rw [hc, hlookup] at honce
      rw [if_pos hc, hc, List.count_singleton_self]
      simp only [Option.isSome_some, if_true, Option.isSome_none, completions,
        List.countP_singleton, Bool.false_eq_true, if_false] at honce ⊢
      omega
    · rw [if_neg hc, List.count_singleton, if_neg (by simpa using Ne.symm hc)]
      simp only [completions, List.countP_singleton, Bool.false_eq_true, if_false] at honce ⊢
      omega
  · rw [holder_concat, lookup_erase, Event.holder]
    by_cases hc : c = chunk
    · rw [if_pos hc, if_pos hc.symm]
      rfl
    · rw [if_neg hc, if_neg fun heq => hc heq.symm]
      exact h.held c
  · rw [count_concat, failuresAt, HashMap.lookup_insert]
    by_cases heq : (other, c) = (peer, chunk)
    · obtain ⟨rfl, rfl⟩ := Prod.mk.inj heq
      rw [if_pos rfl, if_pos rfl, Option.getD_some, h.counted]
    · rw [if_neg heq, if_neg (by rintro ⟨⟩; exact heq rfl), Nat.add_zero]
      exact h.counted other c
  · have hlen := HashMap.len_erase hlookup
    have hlimit := h.limited
    show HashMap.len (s.inFlight.erase chunk) ≤ s.maxInFlight
    omega
  · exact along_concat.mpr ⟨h.within, fun _ _ heq => by simp at heq⟩

theorem Consistent.assigned (h : Consistent missing start s log) {peer : String} {chunk : UInt32}
    {rest : List UInt32} (now : ℕ) (cursor : UInt64) (hmissing : missing.Nodup)
    (hpending : s.pending = chunk :: rest) (hroom : s.inFlight.len < s.maxInFlight)
    (hbudget : s.failuresAt peer chunk < s.maxPeerRetries.toNat) :
    Consistent missing start
      { s with
        pending := rest
        cursor
        inFlight := s.inFlight.insert chunk { peerId := peer, started := now } }
      (log ++ [.assigned peer chunk]) := by
  -- the chunk is queued, so it is not in flight
  have hfree : s.inFlight.lookup chunk = none := by
    have honce := h.once chunk
    have hle : missing.count chunk ≤ 1 := List.nodup_iff_count_le_one.mp hmissing chunk
    rw [hpending, List.count_cons_self] at honce
    cases hlookup : s.inFlight.lookup chunk with
    | none => rfl
    | some inFlight =>
      rw [hlookup, Option.isSome_some, if_pos rfl] at honce
      omega
  refine ⟨h.maxInFlight_eq, h.retries_eq, fun c => ?_, fun c => ?_, fun other c => ?_, ?_, ?_⟩
  · have honce := h.once c
    rw [completions_concat, HashMap.lookup_insert]
    rw [hpending] at honce
    by_cases hc : c = chunk
    · rw [hc, hfree, List.count_cons_self] at honce
      rw [if_pos hc, hc]
      simp only [Option.isSome_some, if_true, Option.isSome_none, completions,
        List.countP_singleton, Bool.false_eq_true, if_false] at honce ⊢
      omega
    · rw [List.count_cons_of_ne (Ne.symm hc)] at honce
      rw [if_neg hc]
      simp only [completions, List.countP_singleton, Bool.false_eq_true, if_false] at honce ⊢
      omega
  · rw [holder_concat, HashMap.lookup_insert, Event.holder]
    by_cases hc : c = chunk
    · rw [if_pos hc, if_pos hc.symm]
      rfl
    · rw [if_neg hc, if_neg fun heq => hc heq.symm]
      exact h.held c
  · rw [count_concat, if_neg (by simp), Nat.add_zero]
    exact h.counted other c
  · show HashMap.len (s.inFlight.insert chunk _) ≤ s.maxInFlight
    rw [HashMap.len_insert hfree]
    exact hroom
  · refine along_concat.mpr ⟨h.within, fun p c heq => ?_⟩
    obtain ⟨rfl, rfl⟩ := Event.assigned.inj heq
    rw [← h.counted]
    exact hbudget

theorem Consistent.rotated (h : Consistent missing start s log) {chunk : UInt32}
    {rest : List UInt32} {cursor : UInt64} (hpending : s.pending = chunk :: rest) :
    Consistent missing start { s with pending := rest ++ [chunk], cursor } log := by
  refine ⟨h.maxInFlight_eq, h.retries_eq, fun c => ?_, h.held, h.counted, h.limited, h.within⟩
  have honce := h.once c
  rw [hpending, List.count_cons] at honce
  rw [List.count_append, List.count_singleton]
  exact honce

end Moves

/-! ## The calls -/

lemma nextPeerFrom_eq {chunk : UInt32} :
    ∀ {n : ℕ} {s s' : SnapshotScheduler} {result : Option String},
      nextPeerFrom n s chunk = (result, s') →
      s' = { s with cursor := s'.cursor } ∧
        ∀ peer, result = some peer → s.failuresAt peer chunk < s.maxPeerRetries.toNat := by
  intro n
  induction n with
  | zero =>
    intro s s' result h
    obtain ⟨rfl, rfl⟩ := Prod.mk.inj h
    exact ⟨rfl, fun _ hsome => absurd hsome (by simp)⟩
  | succ n ih =>
    intro s s' result h
    rw [nextPeerFrom] at h
    split at h
    · rename_i hbudget
      obtain ⟨rfl, rfl⟩ := Prod.mk.inj h
      refine ⟨rfl, fun peer hsome => ?_⟩
      rw [← Option.some.inj hsome]
      exact hbudget
    · obtain ⟨hs', hpeer⟩ := ih h
      exact ⟨hs', hpeer⟩

section Calls
variable {missing : List UInt32} {start : SnapshotScheduler}

/-- The event of an assignment. -/
def ChunkAssignment.event (a : ChunkAssignment) : Event := .assigned a.peerId a.chunkIndex

theorem consistent_assignLoop (hmissing : missing.Nodup) {now : ℕ} {log : List Event} :
    ∀ {rounds : ℕ} {s s' : SnapshotScheduler} {assigned assigned' : List ChunkAssignment},
      Consistent missing start s (log ++ assigned.map ChunkAssignment.event) →
      assignLoop now rounds s assigned = some (assigned', s') →
      Consistent missing start s' (log ++ assigned'.map ChunkAssignment.event) := by
  intro rounds
  induction rounds with
  | zero => intro s s' assigned assigned' _ h; exact absurd h (by simp [assignLoop])
  | succ rounds ih =>
    intro s s' assigned assigned' hs h
    rw [assignLoop] at h
    split at h
    case isFalse =>
      obtain ⟨rfl, rfl⟩ := Prod.mk.inj (Option.some.inj h)
      exact hs
    case isTrue hroom =>
      split at h
      case h_1 =>
        obtain ⟨rfl, rfl⟩ := Prod.mk.inj (Option.some.inj h)
        exact hs
      case h_2 chunk pending hpending =>
        split at h
        case h_1 next hnext =>
          -- no peer has a retry left: the chunk goes to the end of the queue
          obtain ⟨hnext, _⟩ := nextPeerFrom_eq hnext
          obtain ⟨rfl, rfl⟩ := Prod.mk.inj (Option.some.inj h)
          rw [hnext]
          exact hs.rotated hpending
        case h_2 peer next hnext =>
          obtain ⟨hnext, hbudget⟩ := nextPeerFrom_eq hnext
          rw [hnext] at h
          have hmoved := hs.assigned now next.cursor hmissing hpending hroom
            (hbudget peer rfl)
          refine ih ?_ h
          rw [List.map_append, ← List.append_assoc]
          exact hmoved

/-- The loop takes a chunk from the queue in every round but its last. -/
theorem assignLoop_isSome {now : ℕ} :
    ∀ {rounds : ℕ} {s : SnapshotScheduler} {assigned : List ChunkAssignment},
      s.pending.length < rounds → (assignLoop now rounds s assigned).isSome := by
  intro rounds
  induction rounds with
  | zero => intro s assigned h; exact absurd h (Nat.not_lt_zero _)
  | succ rounds ih =>
    intro s assigned h
    rw [assignLoop]
    split
    case isFalse => rfl
    case isTrue =>
      split
      case h_1 => rfl
      case h_2 chunk pending hpending =>
        split
        case h_1 => rfl
        case h_2 peer next hnext =>
          obtain ⟨hnext, _⟩ := nextPeerFrom_eq hnext
          apply ih
          rw [hnext]
          rw [hpending, List.length_cons] at h
          exact Nat.lt_of_succ_lt_succ h

lemma holds_fail_of_ne {s : SnapshotScheduler} {peer other : String} {chunk c : UInt32}
    (hne : c ≠ chunk) : (s.fail peer chunk).holds other c = s.holds other c := by
  rw [fail]
  split
  · rw [holds, holds, lookup_erase, if_neg hne]
  · rfl

theorem consistent_requeueTimedOut :
    ∀ {timedOut : List (UInt32 × String)} {s : SnapshotScheduler} {log : List Event},
      (timedOut.map Prod.fst).Nodup → (∀ entry ∈ timedOut, s.holds entry.2 entry.1) →
      Consistent missing start s log →
      Consistent missing start (s.requeueTimedOut timedOut)
        (log ++ timedOut.map fun entry => .failed entry.2 entry.1) := by
  intro timedOut
  induction timedOut with
  | nil => intro s log _ _ h; rw [List.map_nil, List.append_nil]; exact h
  | cons entry timedOut ih =>
    intro s log hnodup hheld h
    rw [List.map_cons, List.nodup_cons] at hnodup
    have hfirst := h.failed (hheld entry List.mem_cons_self)
    have hrest := ih hnodup.2 (s := s.fail entry.2 entry.1) (fun other hother => by
      rw [holds_fail_of_ne]
      · exact hheld other (List.mem_cons_of_mem entry hother)
      · rintro heq
        exact hnodup.1 (List.mem_map.mpr ⟨other, hother, heq⟩)) hfirst
    rw [List.append_assoc] at hrest
    exact hrest

lemma length_requeueTimedOut (timedOut : List (UInt32 × String)) (s : SnapshotScheduler) :
    (s.requeueTimedOut timedOut).pending.length ≤ s.pending.length + timedOut.length := by
  induction timedOut generalizing s with
  | nil => exact Nat.le_refl _
  | cons entry timedOut ih =>
    have hrest := ih (s.fail entry.2 entry.1)
    have hfirst : (s.fail entry.2 entry.1).pending.length ≤ s.pending.length + 1 := by
      rw [fail]
      split
      · simp
      · omega
    rw [requeueTimedOut, List.foldl_cons, List.length_cons]
    rw [requeueTimedOut] at hrest
    omega

/-- A timed out entry is in flight, and no chunk is listed twice. -/
lemma timedOut_spec {s : SnapshotScheduler} {now : ℕ} {timedOut : List (UInt32 × String)}
    (h : s.TimedOut now timedOut) :
    (timedOut.map Prod.fst).Nodup ∧ ∀ entry ∈ timedOut, s.holds entry.2 entry.1 := by
  constructor
  · have hkeys : ((timedOut.map Prod.fst : List UInt32) : Multiset UInt32) =
        (s.inFlight.entries.filter fun entry => s.timeout ≤ now - entry.2.started).map
          fun entry => entry.1 := by
      rw [← Multiset.map_coe, ← h, Multiset.map_map]
      rfl
    rw [← Multiset.coe_nodup, hkeys]
    have hall : (s.inFlight.entries.map Sigma.fst).Nodup := s.inFlight.nodupKeys.nodup_keys
    exact Multiset.nodup_of_le (Multiset.map_le_map (Multiset.filter_le _ _)) hall
  · intro entry hentry
    have hmem : entry ∈ (timedOut : Multiset (UInt32 × String)) := hentry
    rw [← h, Multiset.mem_map] at hmem
    obtain ⟨⟨c, inFlight⟩, hfiltered, rfl⟩ := hmem
    rw [holds_iff, Finmap.lookup_eq_some_iff.mpr (Multiset.mem_filter.mp hfiltered).1]
    rfl

theorem consistent_assign (hmissing : missing.Nodup) {s s' : SnapshotScheduler} {log : List Event}
    {now rounds : ℕ} {timedOut : List (UInt32 × String)} {assigned : List ChunkAssignment}
    (h : Consistent missing start s log) (htimedOut : s.TimedOut now timedOut)
    (hassign : s.assign rounds now timedOut = some (assigned, s')) :
    Consistent missing start s' (log ++ timedOut.map (fun entry => .failed entry.2 entry.1) ++
      assigned.map ChunkAssignment.event) := by
  obtain ⟨hnodup, hheld⟩ := timedOut_spec htimedOut
  have hrequeued := consistent_requeueTimedOut hnodup hheld h
  refine consistent_assignLoop hmissing ?_ hassign
  rw [List.map_nil, List.append_nil]
  exact hrequeued

/-- The state of every run follows from what happened. -/
theorem Run.consistent (hmissing : missing.Nodup)
    (hstart : Consistent missing start start []) {s : SnapshotScheduler} {log : List Event}
    (h : Run start s log) : Consistent missing start s log := by
  induction h with
  | new => exact hstart
  | assign _ htimedOut hassign ih => exact consistent_assign hmissing ih htimedOut hassign
  | complete peer chunk _ ih =>
    rw [SnapshotScheduler.complete]
    split
    · rename_i hholds
      exact ih.completed hholds
    · rw [if_neg (by simp [isOk]), List.append_nil]
      exact ih
  | fail peer chunk _ ih =>
    split
    · rename_i hholds
      exact ih.failed hholds
    · rename_i hholds
      rw [SnapshotScheduler.fail, if_neg hholds, List.append_nil]
      exact ih

end Calls

section Scheduler
variable {missing : List UInt32} {peers : List String} {timeout maxInFlight : ℕ}
  {maxPeerRetries : UInt32} {start : SnapshotScheduler}

lemma new_eq_ok (h : new missing peers timeout maxInFlight maxPeerRetries = .ok start) :
    Consistent missing start start [] ∧ start.maxInFlight = maxInFlight ∧
      start.maxPeerRetries = maxPeerRetries := by
  rw [new] at h
  split at h
  · cases h
    refine ⟨⟨rfl, rfl, fun c => ?_, fun c => rfl, fun peer c => rfl, Nat.zero_le _, ?_⟩, rfl, rfl⟩
    · show missing.count c + (if (Option.isSome none) then 1 else 0) + 0 = _
      rw [Option.isSome_none, if_neg (by simp)]
      rfl
    · exact along_nil _
  · exact absurd h (by simp)

/-- Every missing chunk is at one place, the limits are kept, a chunk is completed by the peer that
holds it and by no other, the download is done when all chunks are, and the loop of `assign` ends. -/
theorem scheduler_exact (hmissing : missing.Nodup)
    (hnew : new missing peers timeout maxInFlight maxPeerRetries = .ok start)
    {s : SnapshotScheduler} {log : List Event} (hrun : Run start s log) :
    (∀ c, c ∈ missing →
      (s.pending.count c = 1 ∧ s.inFlight.lookup c = none ∧ completions log c = 0) ∨
      (c ∉ s.pending ∧ (∃ inFlight, s.inFlight.lookup c = some inFlight) ∧
        completions log c = 0) ∨
      (c ∉ s.pending ∧ s.inFlight.lookup c = none ∧ completions log c = 1)) ∧
    (∀ c, c ∉ missing → c ∉ s.pending ∧ s.inFlight.lookup c = none ∧ completions log c = 0) ∧
    s.inFlight.len ≤ maxInFlight ∧
    WithinBudget maxPeerRetries.toNat log ∧
    (∀ peer c, isOk (s.complete peer c) ↔ holder log c = some peer) ∧
    (s.isDone ↔ ∀ c ∈ missing, completions log c = 1) ∧
    ∀ now timedOut, s.TimedOut now timedOut →
      ∀ rounds, s.pending.length + timedOut.length < rounds →
        (s.assign rounds now timedOut).isSome := by
  obtain ⟨hstart, hlimit, hretries⟩ := new_eq_ok hnew
  have hs := hrun.consistent hmissing hstart
  -- `once`: a missing chunk has one place among the queue, the ones in flight and the completed
  have hplace : ∀ c, c ∈ missing →
      (s.pending.count c = 1 ∧ s.inFlight.lookup c = none ∧ completions log c = 0) ∨
      (c ∉ s.pending ∧ (∃ inFlight, s.inFlight.lookup c = some inFlight) ∧
        completions log c = 0) ∨
      (c ∉ s.pending ∧ s.inFlight.lookup c = none ∧ completions log c = 1) := by
    intro c hc
    have honce := hs.once c
    rw [List.count_eq_one_of_mem hmissing hc] at honce
    rw [← List.count_eq_zero]
    cases hlookup : s.inFlight.lookup c with
    | none =>
      rw [hlookup, Option.isSome_none, if_neg (by simp)] at honce
      rcases Nat.eq_zero_or_pos (s.pending.count c) with hzero | hpos
      · exact .inr (.inr ⟨hzero, rfl, by omega⟩)
      · exact .inl ⟨by omega, rfl, by omega⟩
    | some inFlight =>
      rw [hlookup, Option.isSome_some, if_pos rfl] at honce
      exact .inr (.inl ⟨by omega, ⟨inFlight, rfl⟩, by omega⟩)
  -- and any other chunk has none
  have helse : ∀ c, c ∉ missing →
      c ∉ s.pending ∧ s.inFlight.lookup c = none ∧ completions log c = 0 := by
    intro c hc
    have honce := hs.once c
    rw [List.count_eq_zero.mpr hc] at honce
    refine ⟨List.count_eq_zero.mp (by omega), ?_, by omega⟩
    cases hlookup : s.inFlight.lookup c with
    | none => rfl
    | some inFlight =>
      rw [hlookup, Option.isSome_some, if_pos rfl] at honce
      omega
  refine ⟨hplace, helse, ?_, ?_, fun peer c => ?_, ?_, fun now timedOut htimedOut rounds h => ?_⟩
  · rw [← hlimit, ← hs.maxInFlight_eq]
    exact hs.limited
  · rw [← hretries, ← hs.retries_eq]
    exact hs.within
  · rw [← hs.held, ← holds_iff, SnapshotScheduler.complete]
    split
    · rename_i hholds
      simp [isOk, hholds]
    · rename_i hholds
      simp [isOk, hholds]
  · rw [isDone, Bool.and_eq_true, List.isEmpty_iff, beq_iff_eq, HashMap.len_eq_zero]
    constructor
    · rintro ⟨hpending, hfree⟩ c hc
      rcases hplace c hc with ⟨hone, _⟩ | ⟨_, ⟨inFlight, hlookup⟩, _⟩ | ⟨_, _, hdone⟩
      · rw [hpending] at hone
        exact absurd hone (by simp)
      · rw [hfree] at hlookup
        exact absurd hlookup (by simp)
      · exact hdone
    · intro hall
      have hnone : ∀ c, c ∉ s.pending ∧ s.inFlight.lookup c = none := by
        intro c
        by_cases hc : c ∈ missing
        · have hdone := hall c hc
          rcases hplace c hc with ⟨_, _, hzero⟩ | ⟨_, _, hzero⟩ | ⟨hpending, hfree, _⟩
          · omega
          · omega
          · exact ⟨hpending, hfree⟩
        · exact ⟨(helse c hc).1, (helse c hc).2.1⟩
      exact ⟨List.eq_nil_iff_forall_not_mem.mpr fun c => (hnone c).1, fun c => (hnone c).2⟩
  · -- each turn of the loop takes one chunk from the queue, which holds the timed out ones again
    apply assignLoop_isSome
    have hlength := length_requeueTimedOut timedOut s
    omega

/-- Two chunks and two peers. -/
def twoPeers : SnapshotScheduler :=
  { pending := [0, 1]
    peers := ["peer-a", "peer-b"]
    inFlight := ∅
    failures := ∅
    cursor := 0
    timeout := 1
    maxInFlight := 2
    maxPeerRetries := 2
    peers_two := by decide }

/-- After the first round each peer holds a chunk. -/
theorem scheduler_exact_twoPeers :
    new [0, 1] ["peer-a", "peer-b"] 1 2 2 = .ok twoPeers ∧
      ∃ s log, Run twoPeers s log ∧ holder log 1 = some "peer-b" ∧
        ∀ peer c, isOk (s.complete peer c) ↔ holder log c = some peer := by
  have hnew : new [0, 1] ["peer-a", "peer-b"] 1 2 2 = .ok twoPeers := rfl
  have htimedOut : TimedOut twoPeers 0 [] := rfl
  obtain ⟨⟨assigned, s⟩, hassign⟩ := Option.isSome_iff_exists.mp
    (show (twoPeers.assign 3 0 []).isSome from rfl)
  have hassigned : assigned = [⟨"peer-a", 0⟩, ⟨"peer-b", 1⟩] := by
    have hfirst : (twoPeers.assign 3 0 []).map Prod.fst =
        some [⟨"peer-a", 0⟩, ⟨"peer-b", 1⟩] := by rfl
    rw [hassign] at hfirst
    exact Option.some.inj hfirst
  have hrun := Run.assign .new htimedOut hassign
  refine ⟨hnew, s, _, hrun, ?_, (scheduler_exact (by decide) hnew hrun).2.2.2.2.1⟩
  rw [hassigned]
  rfl

end Scheduler

end SnapshotScheduler

end IeumChain
