import IeumChain.Lib.Result
import IeumChain.Lib.Tally

/-!
# The chunk scheduler (`snapshot_scheduler.rs`)

The missing chunks of a snapshot are asked of several peers. A chunk that fails or times out goes to
the end of the queue and to another peer, as often as each peer's budget allows. Instants are
numbers, and `duration_since` is zero for an instant in the future. The order in which a hash map is
iterated over is a parameter.
-/

namespace IeumChain

open Lib

structure ChunkAssignment where
  peerId : String
  chunkIndex : UInt32
deriving DecidableEq

structure InFlight where
  peerId : String
  started : ℕ
deriving DecidableEq

/-- The limits are those that `new` accepts. -/
structure SnapshotScheduler where
  pending : List UInt32
  peers : List String
  inFlight : HashMap UInt32 InFlight
  failures : HashMap (String × UInt32) ℕ
  cursor : UInt64
  timeout : ℕ
  maxInFlight : ℕ
  maxPeerRetries : UInt32
  peers_two : 2 ≤ peers.length

namespace SnapshotScheduler

/-- `SnapshotScheduler::new`. -/
def new (missing : List UInt32) (peers : List String) (timeout maxInFlight : ℕ)
    (maxPeerRetries : UInt32) : Result SnapshotScheduler :=
  if h : 2 ≤ peers.length ∧ maxInFlight ≠ 0 ∧ maxPeerRetries ≠ 0 then
    .ok
      { pending := missing
        peers
        inFlight := ∅
        failures := ∅
        cursor := 0
        timeout
        maxInFlight
        maxPeerRetries
        peers_two := h.1 }
  else .error "snapshot 병렬 다운로드는 피어 2개 이상과 양수 제한값이 필요합니다."

/-- The peer at the cursor. -/
def peerAtCursor (s : SnapshotScheduler) : String :=
  s.peers.get ⟨s.cursor.toNat % s.peers.length, Nat.mod_lt _ (by have := s.peers_two; omega)⟩

/-- How often a chunk failed at a peer. -/
def failuresAt (s : SnapshotScheduler) (peer : String) (chunk : UInt32) : ℕ :=
  (s.failures.lookup (peer, chunk)).getD 0

/-- The loop of `next_peer` with `n` rounds left. -/
def nextPeerFrom : ℕ → SnapshotScheduler → UInt32 → Option String × SnapshotScheduler
  | 0, s, _ => (none, s)
  | n + 1, s, chunk =>
    let peer := s.peerAtCursor
    let s := { s with cursor := s.cursor + 1 }
    if s.failuresAt peer chunk < s.maxPeerRetries.toNat then (some peer, s)
    else nextPeerFrom n s chunk

/-- `next_peer`. -/
def nextPeer (s : SnapshotScheduler) (chunk : UInt32) : Option String × SnapshotScheduler :=
  nextPeerFrom s.peers.length s chunk

/-- Is the chunk in flight at the peer? -/
def holds (s : SnapshotScheduler) (peerId : String) (chunkIndex : UInt32) : Bool :=
  match s.inFlight.lookup chunkIndex with
  | some inFlight => inFlight.peerId = peerId
  | none => false

/-- `complete`. -/
def complete (s : SnapshotScheduler) (peerId : String) (chunkIndex : UInt32) :
    Result SnapshotScheduler :=
  if s.holds peerId chunkIndex then
    .ok { s with inFlight := s.inFlight.erase chunkIndex }
  else .error "현재 할당과 다른 snapshot chunk 응답입니다."

/-- `fail`. -/
def fail (s : SnapshotScheduler) (peerId : String) (chunkIndex : UInt32) : SnapshotScheduler :=
  if s.holds peerId chunkIndex then
    { s with
      inFlight := s.inFlight.erase chunkIndex
      failures := s.failures.insert (peerId, chunkIndex) (s.failuresAt peerId chunkIndex + 1)
      pending := s.pending ++ [chunkIndex] }
  else s

/-- `is_done`. -/
def isDone (s : SnapshotScheduler) : Bool := s.pending.isEmpty && s.inFlight.len == 0

/-- What `requeue_timed_out` collects, in one of the orders of the map. -/
def TimedOut (s : SnapshotScheduler) (now : ℕ) (timedOut : List (UInt32 × String)) : Prop :=
  (s.inFlight.entries.filter fun entry => s.timeout ≤ now - entry.2.started).map
      (fun entry => (entry.1, entry.2.peerId)) =
    (timedOut : Multiset (UInt32 × String))

/-- The loop of `requeue_timed_out`. -/
def requeueTimedOut (s : SnapshotScheduler) (timedOut : List (UInt32 × String)) :
    SnapshotScheduler :=
  timedOut.foldl (fun s entry => s.fail entry.2 entry.1) s

/-- The loop of `assign`, for so many rounds at most. -/
def assignLoop (now : ℕ) : ℕ → SnapshotScheduler → List ChunkAssignment →
    Option (List ChunkAssignment × SnapshotScheduler)
  | 0, _, _ => none
  | rounds + 1, s, assigned =>
    if s.inFlight.len < s.maxInFlight then
      match s.pending with
      | [] => some (assigned, s)
      | chunkIndex :: pending =>
        match nextPeer { s with pending } chunkIndex with
        | (none, s) => some (assigned, { s with pending := s.pending ++ [chunkIndex] })
        | (some peerId, s) =>
          assignLoop now rounds
            { s with inFlight := s.inFlight.insert chunkIndex { peerId, started := now } }
            (assigned ++ [{ peerId, chunkIndex }])
    else some (assigned, s)

/-- `assign`, if the loop ends within so many rounds. -/
def assign (rounds : ℕ) (s : SnapshotScheduler) (now : ℕ) (timedOut : List (UInt32 × String)) :
    Option (List ChunkAssignment × SnapshotScheduler) :=
  assignLoop now rounds (s.requeueTimedOut timedOut) []

/-! ## Runs -/

/-- What happens to a chunk at a peer. -/
inductive Event
  | assigned (peer : String) (chunk : UInt32)
  | failed (peer : String) (chunk : UInt32)
  | completed (peer : String) (chunk : UInt32)
deriving DecidableEq

/-- The scheduler and what happened, after any sequence of calls with any peers, chunks and times. -/
inductive Run (start : SnapshotScheduler) : SnapshotScheduler → List Event → Prop
  | new : Run start start []
  | assign {s s' : SnapshotScheduler} {log : List Event} {now rounds : ℕ}
      {timedOut : List (UInt32 × String)} {assigned : List ChunkAssignment} :
      Run start s log → s.TimedOut now timedOut →
      s.assign rounds now timedOut = some (assigned, s') →
      Run start s' (log ++ timedOut.map (fun entry => .failed entry.2 entry.1) ++
        assigned.map fun a => .assigned a.peerId a.chunkIndex)
  | complete {s : SnapshotScheduler} {log : List Event} (peer : String) (chunk : UInt32) :
      Run start s log → Run start (getOk (s.complete peer chunk) s)
        (log ++ if isOk (s.complete peer chunk) then [.completed peer chunk] else [])
  | fail {s : SnapshotScheduler} {log : List Event} (peer : String) (chunk : UInt32) :
      Run start s log → Run start (s.fail peer chunk)
        (log ++ if s.holds peer chunk then [.failed peer chunk] else [])

/-- The peer that an event leaves in charge of a chunk. -/
def Event.holder (chunk : UInt32) (before : Option String) : Event → Option String
  | .assigned peer c => if c = chunk then some peer else before
  | .failed _ c => if c = chunk then none else before
  | .completed _ c => if c = chunk then none else before

/-- The peer that currently holds a chunk: it was given to it, and neither failed there nor was
completed since. -/
def holder (log : List Event) (chunk : UInt32) : Option String :=
  log.foldl (Event.holder chunk) none

/-- How often a chunk was completed. -/
def completions (log : List Event) (chunk : UInt32) : ℕ :=
  log.countP fun event => match event with
    | .completed _ c => c = chunk
    | _ => false

end SnapshotScheduler

end IeumChain
