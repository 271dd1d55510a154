import IeumChain.Lib.SortedEntries
import IeumChain.Lib.Result
import IeumChain.Lib.Tally
import Mathlib.Data.Prod.Lex
import Mathlib.Data.String.Basic
import Mathlib.Order.Fin.Basic

/-!
# The tip of the peers (`snapshot_sync.rs`)

A node that joins asks its peers for their tips and follows one that enough of them report. Each
peer has one vote, its newest report. The vote map is iterated over in an order that is a parameter
here.
-/

namespace IeumChain

open Lib

structure SyncTip where
  height : UInt64
  blockHash : String
  stateRoot : String
deriving DecidableEq

/-- A key of the counts, in the order of the `BTreeMap`. -/
abbrev TipKey := Fin UInt64.size ×ₗ String ×ₗ String

namespace SyncTip

def toKey (t : SyncTip) : TipKey := toLex (t.height.toFin, toLex (t.blockHash, t.stateRoot))

def ofKey (k : TipKey) : SyncTip :=
  { height := UInt64.ofFin (ofLex k).1
    blockHash := (ofLex (ofLex k).2).1
    stateRoot := (ofLex (ofLex k).2).2 }

@[simp] lemma ofKey_toKey (t : SyncTip) : ofKey t.toKey = t := rfl

@[simp] lemma toKey_ofKey (k : TipKey) : (ofKey k).toKey = k := rfl

end SyncTip

/-- `max_by_key`: of several greatest elements the last one. -/
def maxByKey {α : Type} (key : α → UInt64) : List α → Option α
  | [] => none
  | a :: l => some (l.foldl (fun best b => if key b < key best then best else b) a)

structure TipQuorum where
  minimumPeers : ℕ
  votes : HashMap String SyncTip

namespace TipQuorum

/-- `TipQuorum::new`. -/
def new (minimumPeers : ℕ) : Result TipQuorum := do
  ensure (2 ≤ minimumPeers ∧ minimumPeers ≤ 3)
    "동기화 교차검증 피어 수는 2 또는 3이어야 합니다."
  return { minimumPeers, votes := ∅ }

/-- The first line of `observe`: the report replaces the peer's older one. -/
def report (q : TipQuorum) (peerId : String) (tip : SyncTip) : TipQuorum :=
  { q with votes := q.votes.insert peerId tip }

/-- One report of the counting loop. -/
def countTip (counts : HashMap TipKey ℕ) (value : SyncTip) : HashMap TipKey ℕ :=
  counts.insert value.toKey ((counts.lookup value.toKey).getD 0 + 1)

/-- The rest of `observe`, with the reports in the order in which the map yields them. -/
def choose (q : TipQuorum) (values : List SyncTip) : Option SyncTip :=
  let counts := values.foldl countTip ∅
  let enough := (sortedEntries counts).filter fun entry => q.minimumPeers ≤ entry.2
  (maxByKey (fun entry : TipKey × ℕ => (SyncTip.ofKey entry.1).height) enough).map fun entry =>
    SyncTip.ofKey entry.1

/-- `observe`. -/
def observe (q : TipQuorum) (peerId : String) (tip : SyncTip) (values : List SyncTip) :
    TipQuorum × Option SyncTip :=
  (q.report peerId tip, (q.report peerId tip).choose values)

/-- The quorum after a sequence of calls, each a peer and its report. -/
def observed (q : TipQuorum) (calls : List (String × SyncTip)) : TipQuorum :=
  calls.foldl (fun q call => q.report call.1 call.2) q

/-- The latest report of a peer. -/
def latest (calls : List (String × SyncTip)) (peer : String) : Option SyncTip :=
  (calls.filter fun call => call.1 = peer).getLast?.map Prod.snd

/-- How many distinct peers have the tip as their latest report. -/
def reporters (calls : List (String × SyncTip)) (tip : SyncTip) : ℕ :=
  ((calls.map Prod.fst).dedup.filter fun peer => latest calls peer = some tip).length

end TipQuorum

end IeumChain
