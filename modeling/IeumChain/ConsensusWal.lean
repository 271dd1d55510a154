import IeumChain.Consensus
import IeumChain.Lib.Text

/-!
# The vote log (`consensus_wal.rs`)

A validator writes every vote to a file before it sends it, one JSON object a line, and refuses to
sign a second vote for another block at the same height, round and type. After a restart the file
tells it what it signed. The file is a byte string, or absent; what the operating system answers
to a call is an argument of the model.
-/

namespace IeumChain

open Lib

/-- The record of a line. -/
structure WalVote where
  message : ConsensusMessage
deriving DecidableEq

/-! ## The text of a line -/

/-- A character as it stands in a JSON string. -/
def escapeChar (c : Char) : List Char :=
  if c = '"' then ['\\', '"']
  else if c = '\\' then ['\\', '\\']
  else if c = '\x08' then ['\\', 'b']
  else if c = '\t' then ['\\', 't']
  else if c = '\n' then ['\\', 'n']
  else if c = '\x0c' then ['\\', 'f']
  else if c = '\r' then ['\\', 'r']
  else if c.toNat < 32 then ['\\', 'u', '0', '0', hexDigit (c.toNat / 16), hexDigit (c.toNat % 16)]
  else [c]

/-- A JSON string, as text. -/
def quotedText (s : String) : String :=
  "\"" ++ String.ofList (s.toList.flatMap escapeChar) ++ "\""

def VoteType.json : VoteType → String
  | prevote => "\"Prevote\""
  | precommit => "\"Precommit\""

/-- `serde_json::to_string` of a record. -/
def WalVote.json (v : WalVote) : String :=
  String.join
    ["\x7b\"message\":\x7b\"height\":", toString v.message.height.toNat,
      ",\"round\":", toString v.message.round.toNat,
      ",\"validator_id\":", quotedText v.message.validatorId,
      ",\"vote_type\":", v.message.voteType.json,
      ",\"block_hash\":", quotedText v.message.blockHash,
      ",\"signature\":", quotedText v.message.signature, "\x7d\x7d"]

/-- The line of a vote, with its line feed. -/
def walLine (m : ConsensusMessage) : Bytes := textBytes ((WalVote.mk m).json ++ "\n")

/-- Where a validator votes once. -/
def ConsensusMessage.key (m : ConsensusMessage) : UInt64 × UInt32 × VoteType :=
  (m.height, m.round, m.voteType)

/-! ## The file -/

/-- What reading the file finds. -/
inductive FileRead where
  | notFound
  | failed
  | content (bytes : Bytes)

namespace FileRead

/-- `fs::read_to_string`: the content, if it could be read and is UTF-8. -/
def toString : FileRead → Option String
  | content bytes => decodeText bytes
  | _ => none

/-- The read of a file that may not be there, without an I/O error. -/
def ofFile : Option Bytes → FileRead
  | some bytes => content bytes
  | none => notFound

end FileRead

/-- How far the append of a line comes. -/
inductive AppendIo where
  /-- The directory or the file could not be opened. -/
  | failed (error : String)
  /-- The write stopped after so many bytes. -/
  | writeFailed (written : ℕ) (error : String)
  /-- The line was written, and `sync_data` failed. -/
  | syncFailed (error : String)
  | synced

/-! ## The log -/

structure ConsensusWal where
  signed : HashMap (UInt64 × UInt32 × VoteType) String
deriving DecidableEq

namespace ConsensusWal
variable [Primitives] (fromStr : String → Except String WalVote)

/-- One round of the loop of `reload`, over a line and its index. `serde_json::from_str` is the
argument `fromStr`. -/
def reloadLine (wal : ConsensusWal) (entry : String × ℕ) : Result ConsensusWal :=
  if isBlank entry.1 then .ok wal
  else do
    let record ← (fromStr entry.1).mapError fun error =>
      s!"WAL {entry.2 + 1}번째 줄 복구 실패: {error}"
    let message := record.message
    message.verify
    ensure (∀ previous ∈ wal.signed.lookup message.key, previous = message.blockHash)
      "WAL에서 과거 이중투표 기록을 발견했습니다."
    return ⟨wal.signed.insert message.key message.blockHash⟩

/-- `reload`. Every failure to read the text is taken for a file that is not there. -/
def reload (wal : ConsensusWal) (file : FileRead) : Result ConsensusWal :=
  match file.toString with
  | none => .ok wal
  | some contents => (lines contents).zipIdx.foldlM (reloadLine fromStr) wal

/-- `ConsensusWal::open`. -/
def openAt (file : FileRead) : Result ConsensusWal := reload fromStr ⟨∅⟩ file

/-- `record_before_broadcast`: the answer, the log and the file afterwards. -/
def recordBeforeBroadcast (wal : ConsensusWal) (file : Option Bytes) (io : AppendIo)
    (message : ConsensusMessage) : Result Unit × ConsensusWal × Option Bytes :=
  match message.verify with
  | .error e => (.error e, wal, file)
  | .ok () =>
    match wal.signed.lookup message.key with
    | some previous =>
      if previous ≠ message.blockHash then
        (.error "WAL이 이중투표 서명을 차단했습니다.", wal, file)
      else (.ok (), wal, file)
    | none =>
      match io with
      | .failed e => (.error e, wal, file)
      | .writeFailed written e =>
        (.error e, wal, some (file.getD [] ++ (walLine message).take written))
      | .syncFailed e => (.error e, wal, some (file.getD [] ++ walLine message))
      | .synced =>
        (.ok (), ⟨wal.signed.insert message.key message.blockHash⟩,
          some (file.getD [] ++ walLine message))

end ConsensusWal

end IeumChain
