import IeumChain.ConsensusWal
import IeumChain.Devnet
import IeumChain.Lib.Json

/-!
# What the vote log remembers

The file is a list of votes, one a line (`logText`), and reading it gives the votes back
(`lines_logText`, `WalVote.prefixFree_json`). Opening succeeds exactly when every line that is not blank is a signed vote and
no two of them contradict each other, and then the log holds their entries
(`reload_eq_ok`, `lookup_collect`). From this follow

* `open_fails_closed_iff`: what opening a damaged file does;
* `double_signing_blocked`: the log over runs with restarts;
* `survives_crash`: which interrupted appends the log recovers from;
* `survives_restarts` and `cut_line_spoils_next`: what is left after more starts.
-/

namespace IeumChain

open Lib

/-! ## Lines of votes -/

lemma notMem_escapeChar (c : Char) : '\n' ∉ escapeChar c := by
  have hdigit : ∀ n : ℕ, n < 16 → hexDigit n ≠ '\n' := by decide
  fun_cases escapeChar c with
  | case8 hnewline =>
    have hhi := hdigit (c.toNat / 16) (by omega)
    have hlo := hdigit (c.toNat % 16) (Nat.mod_lt _ (by decide))
    simp [hhi.symm, hlo.symm]
  | case9 hnewline =>
    rw [List.mem_singleton]
    exact Ne.symm ‹_›
  | _ => decide

lemma notMem_quotedText (s : String) : '\n' ∉ (quotedText s).toList := by
  simp only [quotedText, String.toList_append, String.toList_ofList, List.mem_append,
    List.mem_flatMap, not_or, not_exists, not_and]
  exact ⟨⟨by decide, fun c _ => notMem_escapeChar c⟩, by decide⟩

lemma notMem_toString (n : ℕ) : '\n' ∉ (toString n).toList := by
  intro h
  rw [Nat.toString_eq_ofList_toDigits, String.toList_ofList] at h
  exact absurd (Nat.isDigit_of_mem_toDigits (by omega) (by omega) h) (by decide)

/-- Escaping a character escapes its bytes. -/
lemma flatMap_escapeChar (c : Char) : (escapeChar c).flatMap String.utf8EncodeChar
    = Json.escaped (String.utf8EncodeChar c) := by
  have hascii : ∀ n : Fin 128, (escapeChar (Char.ofNat n)).flatMap String.utf8EncodeChar
      = Json.escaped (String.utf8EncodeChar (Char.ofNat n)) := by
    decide
  by_cases hc : c.toNat ≤ 127
  · have h := hascii ⟨c.toNat, Nat.lt_succ_of_le hc⟩
    rwa [Char.ofNat_toNat] at h
  · -- neither the character nor one of its bytes is escaped
    have hne : ∀ d : Char, d.toNat ≤ 127 → c ≠ d := fun d hd heq => hc (heq ▸ hd)
    have hchar : escapeChar c = [c] := by
      unfold escapeChar
      rw [if_neg (hne _ (by decide)), if_neg (hne _ (by decide)), if_neg (hne _ (by decide)),
        if_neg (hne _ (by decide)), if_neg (hne _ (by decide)), if_neg (hne _ (by decide)),
        if_neg (hne _ (by decide)), if_neg (by omega)]
    have hbyte : ∀ n, 128 ≤ n → n < 256 → Json.escapeByte (UInt8.ofNat n) = [UInt8.ofNat n] := by
      intro n hlow hn
      have htoNat : (UInt8.ofNat n).toNat = n := UInt8.toNat_ofNat_of_lt' hn
      have hne' : ∀ b : UInt8, b.toNat ≤ 127 → UInt8.ofNat n ≠ b := by
        rintro b hb rfl
        omega
      have hcontrol : ¬ UInt8.ofNat n < 0x20 := by
        rw [UInt8.lt_iff_toNat_lt, htoNat]
        exact Nat.not_lt.mpr (le_trans (by decide) hlow)
      unfold Json.escapeByte
      rw [if_neg (hne' _ (by decide)), if_neg (hne' _ (by decide)), if_neg (hne' _ (by decide)),
        if_neg (hne' _ (by decide)), if_neg (hne' _ (by decide)), if_neg (hne' _ (by decide)),
        if_neg (hne' _ (by decide)), if_neg hcontrol]
    rw [hchar, List.flatMap_cons, List.flatMap_nil, List.append_nil]
    unfold String.utf8EncodeChar
    dsimp only
    rw [if_neg (show ¬ c.val.toNat ≤ 0x7f from hc)]
    split_ifs <;>
      simp only [Json.escaped, List.flatMap_cons, List.flatMap_nil, List.append_nil] <;>
      rw [hbyte _ (by omega) (by omega), hbyte _ (by omega) (by omega)]
    · rfl
    · rw [hbyte _ (by omega) (by omega)]
      rfl
    · rw [hbyte _ (by omega) (by omega), hbyte _ (by omega) (by omega)]
      rfl

lemma textBytes_quotedText (s : String) : textBytes (quotedText s) = Json.quoted s := by
  have hcontent : textBytes (String.ofList (s.toList.flatMap escapeChar))
      = Json.escaped (textBytes s) := by
    have hs : textBytes s = s.toList.flatMap String.utf8EncodeChar := by
      rw [← textBytes_ofList, String.ofList_toList]
    rw [textBytes_ofList, hs, Json.escaped, List.flatMap_assoc, List.flatMap_assoc]
    simp only [flatMap_escapeChar]
    rfl
  rw [quotedText, textBytes_append, textBytes_append, hcontent, Json.quoted, List.append_assoc]
  rfl

lemma textBytes_join (texts : List String) :
    textBytes (String.join texts) = texts.flatMap textBytes := by
  have hchars : ∀ s, textBytes s = s.toList.flatMap String.utf8EncodeChar := fun s => by
    rw [← textBytes_ofList, String.ofList_toList]
  rw [hchars, String.toList_join, List.flatMap_assoc]
  simp only [← hchars]

namespace WalVote

lemma notMem_json (v : WalVote) : '\n' ∉ v.json.toList := by
  have htype : '\n' ∉ v.message.voteType.json.toList := by
    cases v.message.voteType <;> decide
  simp only [json, String.toList_join, List.mem_flatMap, not_exists, not_and,
    List.forall_mem_cons, notMem_quotedText, notMem_toString, htype, not_false_eq_true, true_and]
  decide

/-- The text is an object: it starts and ends with a brace. -/
lemma braces_json (v : WalVote) :
    v.json.toList.head? = some '\x7b' ∧ v.json.toList.getLast? = some '\x7d' := by
  have hopen : "\x7b\"message\":\x7b\"height\":".toList.head? = some '\x7b' := by decide
  have hclose : "\x7d\x7d".toList.getLast? = some '\x7d' := by decide
  simp only [json, String.toList_join, List.flatMap_cons, List.flatMap_nil, List.append_nil,
    ← List.append_assoc]
  constructor
  · simp only [List.append_assoc, List.head?_append, hopen, Option.some_or]
  · rw [List.getLast?_append, hclose, Option.some_or]

lemma json_ne_empty (v : WalVote) : v.json ≠ "" := by
  intro h
  have hhead := v.braces_json.1
  rw [h] at hhead
  cases hhead

/-- Whatever follows its brace, the line is not blank. -/
lemma isBlank_append (v : WalVote) (tail : String) : isBlank (v.json ++ tail) = false := by
  obtain ⟨rest, hrest⟩ : ∃ rest, v.json.toList = '\x7b' :: rest :=
    List.head?_eq_some_iff.mp v.braces_json.1
  rw [isBlank, String.toList_append, hrest, List.cons_append, List.all_cons,
    show isWhitespace '\x7b' = false from by decide]
  rfl

lemma isBlank_json (v : WalVote) : isBlank v.json = false := by
  have h := v.isBlank_append ""
  rwa [String.append_empty] at h

/-- A line is read from the front: it determines its vote, and where it ends. -/
lemma prefixFree_json : PrefixFree fun v : WalVote => textBytes v.json := by
  intro v w r s h
  have htype : ∀ t : VoteType, textBytes t.json
      = Json.quoted (if t = .prevote then "Prevote" else "Precommit") := by
    intro t
    cases t <;> decide
  simp only [json, textBytes_join, List.flatMap_cons, List.flatMap_nil, textBytes_quotedText,
    htype, List.append_assoc, List.append_cancel_left_eq] at h
  obtain ⟨hheight, h⟩ := Json.decimal_append_inj (c := 0x2c) rfl h
  obtain ⟨hround, h⟩ := Json.decimal_append_inj (c := 0x2c) rfl (List.append_cancel_left h)
  obtain ⟨hvalidator, h⟩ := Json.prefixFree_quoted (List.append_cancel_left h)
  rw [List.append_cancel_left_eq] at h
  obtain ⟨hname, h⟩ := Json.prefixFree_quoted h
  rw [List.append_cancel_left_eq] at h
  obtain ⟨hhash, h⟩ := Json.prefixFree_quoted h
  rw [List.append_cancel_left_eq] at h
  obtain ⟨hsignature, hend⟩ := Json.prefixFree_quoted h
  have hvoteType : v.message.voteType = w.message.voteType := by
    cases hv : v.message.voteType <;> cases hw : w.message.voteType <;> rw [hv, hw] at hname <;>
      first | rfl | exact absurd hname (by decide)
  obtain ⟨⟨_, _, _, _, _, _⟩⟩ := v
  obtain ⟨⟨_, _, _, _, _, _⟩⟩ := w
  rw [mk.injEq, ConsensusMessage.mk.injEq]
  exact ⟨⟨UInt64.toNat_inj.mp hheight, UInt32.toNat_inj.mp hround, hvalidator, hvoteType, hhash,
    hsignature⟩, List.append_cancel_left hend⟩

lemma json_inj {v w : WalVote} (h : v.json = w.json) : v = w :=
  (prefixFree_json (r := []) (s := []) (by simp only [h])).1

/-- Two objects in one line are no object. -/
lemma json_append_ne (u v w : WalVote) : u.json ++ v.json ≠ w.json := by
  intro h
  have hbytes : textBytes u.json ++ textBytes v.json = textBytes w.json ++ [] := by
    rw [← textBytes_append, h, List.append_nil]
  exact v.json_ne_empty (textBytes_inj.mp (prefixFree_json hbytes).2)

end WalVote

/-- The text of a file of votes. -/
def logText : List ConsensusMessage → String
  | [] => ""
  | m :: votes => (WalVote.mk m).json ++ "\n" ++ logText votes

lemma textBytes_logText_concat (votes : List ConsensusMessage) (m : ConsensusMessage) :
    textBytes (logText (votes ++ [m])) = textBytes (logText votes) ++ walLine m := by
  induction votes with
  | nil =>
    rw [List.nil_append, logText, logText, logText, String.append_empty]
    rfl
  | cons v votes ih =>
    rw [List.cons_append, logText, logText, textBytes_append, ih, textBytes_append (_ ++ _),
      List.append_assoc]

/-- The votes of a file are read back line by line, whatever follows them. -/
lemma lines_logText (votes : List ConsensusMessage) (tail : String) :
    lines (logText votes ++ tail) = votes.map (fun m => (WalVote.mk m).json) ++ lines tail := by
  induction votes with
  | nil => simp [logText]
  | cons m votes ih =>
    have hlast : (WalVote.mk m).json.toList.getLast? ≠ some '\r' := by
      rw [(WalVote.mk m).braces_json.2]
      decide
    rw [logText, String.append_assoc, lines_append (WalVote.notMem_json _) hlast, ih]
    rfl

/-! ## Reading a log -/

/-- The votes contradict neither each other nor the entries that are there already. -/
def Consistent (signed : HashMap (UInt64 × UInt32 × VoteType) String)
    (votes : List ConsensusMessage) : Prop :=
  (∀ m ∈ votes, ∀ hash ∈ signed.lookup m.key, hash = m.blockHash) ∧
    votes.Pairwise fun a b => a.key = b.key → a.blockHash = b.blockHash

/-- The entries of votes, written one after the other. -/
def collect (signed : HashMap (UInt64 × UInt32 × VoteType) String)
    (votes : List ConsensusMessage) : HashMap (UInt64 × UInt32 × VoteType) String :=
  votes.foldl (fun signed m => signed.insert m.key m.blockHash) signed

lemma consistent_cons {signed : HashMap (UInt64 × UInt32 × VoteType) String}
    {m : ConsensusMessage} {votes : List ConsensusMessage} :
    Consistent signed (m :: votes) ↔ (∀ hash ∈ signed.lookup m.key, hash = m.blockHash) ∧
      Consistent (signed.insert m.key m.blockHash) votes := by
  have hlookup : ∀ v : ConsensusMessage,
      (∀ hash ∈ (signed.insert m.key m.blockHash).lookup v.key, hash = v.blockHash) ↔
        if v.key = m.key then m.blockHash = v.blockHash
        else ∀ hash ∈ signed.lookup v.key, hash = v.blockHash := by
    intro v
    rw [HashMap.lookup_insert]
    split <;> simp
  simp only [Consistent, List.forall_mem_cons, List.pairwise_cons, hlookup]
  constructor
  · rintro ⟨⟨hm, hvotes⟩, hfirst, hrest⟩
    refine ⟨hm, fun v hv => ?_, hrest⟩
    split
    next heq => exact hfirst v hv heq.symm
    next => exact hvotes v hv
  · rintro ⟨hm, hvotes, hrest⟩
    refine ⟨⟨hm, fun v hv hash hhash => ?_⟩, fun v hv heq => ?_, hrest⟩
    · have hv' := hvotes v hv
      split at hv'
      next heq => rw [← hv', hm hash (heq ▸ hhash)]
      next => exact hv' hash hhash
    · have hv' := hvotes v hv
      rwa [if_pos heq.symm] at hv'

/-- Votes that do not contradict each other are all found again. -/
lemma lookup_collect {votes : List ConsensusMessage} :
    ∀ {signed : HashMap (UInt64 × UInt32 × VoteType) String}, Consistent signed votes →
      ∀ key hash, (collect signed votes).lookup key = some hash ↔
        signed.lookup key = some hash ∨ ∃ m ∈ votes, m.key = key ∧ m.blockHash = hash := by
  induction votes with
  | nil => simp [collect]
  | cons m votes ih =>
    intro signed h key hash
    obtain ⟨hm, hrest⟩ := consistent_cons.mp h
    rw [collect, List.foldl_cons]
    have hih := ih hrest key hash
    rw [collect] at hih
    rw [hih, HashMap.lookup_insert, List.exists_mem_cons_iff]
    by_cases heq : key = m.key
    · rw [if_pos heq, heq, Option.some.injEq]
      constructor
      · rintro (hhash | hlater)
        · exact .inr (.inl ⟨rfl, hhash⟩)
        · exact .inr (.inr hlater)
      · rintro (hbefore | ⟨_, hhash⟩ | hlater)
        · exact .inl (hm hash hbefore).symm
        · exact .inl hhash
        · exact .inr hlater
    · rw [if_neg heq]
      constructor
      · rintro (hbefore | hlater)
        · exact .inl hbefore
        · exact .inr (.inr hlater)
      · rintro (hbefore | ⟨hkey, _⟩ | hlater)
        · exact .inl hbefore
        · exact absurd hkey.symm heq
        · exact .inr hlater

lemma consistent_empty {votes : List ConsensusMessage} :
    Consistent ∅ votes ↔ votes.Pairwise fun a b => a.key = b.key → a.blockHash = b.blockHash := by
  simp [Consistent]

lemma consistent_concat {votes : List ConsensusMessage} {m : ConsensusMessage} :
    Consistent ∅ (votes ++ [m]) ↔
      Consistent ∅ votes ∧ ∀ w ∈ votes, w.key = m.key → w.blockHash = m.blockHash := by
  simp [consistent_empty, List.pairwise_append]

section
variable [Primitives] (fromStr : String → Except String WalVote)

/-- The lines that are not blank are these votes, decoded and signed. -/
inductive Reads : List String → List ConsensusMessage → Prop where
  | nil : Reads [] []
  | blank {line : String} {rest : List String} {votes : List ConsensusMessage} :
    isBlank line = true → Reads rest votes → Reads (line :: rest) votes
  | vote {line : String} {rest : List String} {v : WalVote} {votes : List ConsensusMessage} :
    isBlank line = false → fromStr line = .ok v → v.message.verify = .ok () →
    Reads rest votes → Reads (line :: rest) (v.message :: votes)

namespace Reads
variable {fromStr}

lemma empty : Reads fromStr (lines "") [] := .nil

/-- Every line that is not blank was read. -/
lemma decodes {text : List String} {votes : List ConsensusMessage} (h : Reads fromStr text votes) :
    ∀ line ∈ text, isBlank line = false →
      ∃ v, fromStr line = .ok v ∧ v.message.verify = .ok () := by
  induction h with
  | nil => simp
  | blank hblank _ ih =>
    refine List.forall_mem_cons.mpr ⟨fun hline => ?_, ih⟩
    rw [hblank] at hline
    cases hline
  | vote _ hdecode hverify _ ih =>
    exact List.forall_mem_cons.mpr ⟨fun _ => ⟨_, hdecode, hverify⟩, ih⟩

/-- The votes are those of the lines. -/
lemma mem_iff {text : List String} {votes : List ConsensusMessage} (h : Reads fromStr text votes)
    (m : ConsensusMessage) :
    m ∈ votes ↔ ∃ line ∈ text, isBlank line = false ∧
      ∃ v, fromStr line = .ok v ∧ v.message = m := by
  induction h with
  | nil => simp
  | blank hblank _ ih =>
    rw [List.exists_mem_cons_iff, ih, hblank]
    simp
  | vote hblank hdecode _ _ ih =>
    rw [List.mem_cons, List.exists_mem_cons_iff, ih, hdecode, hblank]
    apply or_congr_left
    constructor
    · rintro rfl
      exact ⟨rfl, _, rfl, rfl⟩
    · rintro ⟨_, v', hv', rfl⟩
      cases hv'
      rfl

/-- The text of a file of signed votes is read as these votes. -/
lemma append_log {text : List String} {votes votes' : List ConsensusMessage}
    (hverified : ∀ m ∈ votes, m.verify = .ok ())
    (hjson : ∀ m ∈ votes, fromStr (WalVote.mk m).json = .ok ⟨m⟩) (h : Reads fromStr text votes') :
    Reads fromStr (votes.map (fun m => (WalVote.mk m).json) ++ text) (votes ++ votes') := by
  induction votes with
  | nil => exact h
  | cons m votes ih =>
    obtain ⟨hm, hverified⟩ := List.forall_mem_cons.mp hverified
    obtain ⟨hmjson, hjson⟩ := List.forall_mem_cons.mp hjson
    exact .vote (WalVote.isBlank_json _) hmjson hm (ih hverified hjson)

end Reads

namespace ConsensusWal

/-- The loop of `reload` succeeds exactly when the lines are votes without contradiction, and then
their entries are written. -/
lemma reload_eq_ok {text : List String} :
    ∀ {index : ℕ} {wal wal' : ConsensusWal},
      (text.zipIdx index).foldlM (reloadLine fromStr) wal = .ok wal' ↔
        ∃ votes, Reads fromStr text votes ∧ Consistent wal.signed votes ∧
          wal' = ⟨collect wal.signed votes⟩ := by
  induction text with
  | nil =>
    intro index wal wal'
    rw [List.zipIdx_nil, List.foldlM_nil, pure_eq_ok]
    constructor
    · rintro rfl
      exact ⟨[], .nil, ⟨by simp, .nil⟩, rfl⟩
    · rintro ⟨votes, hreads, _, rfl⟩
      cases hreads
      rfl
  | cons line text ih =>
    intro index wal wal'
    rw [List.zipIdx_cons, foldlM_cons_eq_ok]
    by_cases hblank : isBlank line = true
    · simp only [reloadLine, hblank, if_true, Except.ok.injEq, exists_eq_left', ih]
      constructor
      · rintro ⟨votes, hreads, hrest⟩
        exact ⟨votes, .blank hblank hreads, hrest⟩
      · rintro ⟨votes, hreads, hrest⟩
        cases hreads with
        | blank _ hreads => exact ⟨votes, hreads, hrest⟩
        | vote hnot => rw [hblank] at hnot; cases hnot
    · have hblank' : isBlank line = false := by simpa using hblank
      simp only [reloadLine, hblank', Bool.false_eq_true, if_false, bind_eq_ok, mapError_eq_ok,
        ensure_eq_ok, pure_eq_ok, ih]
      constructor
      · rintro ⟨_, ⟨v, hdecode, _, hverify, _, hagrees, rfl⟩, votes, hreads, hconsistent, rfl⟩
        exact ⟨v.message :: votes, .vote hblank' hdecode hverify hreads,
          consistent_cons.mpr ⟨hagrees, hconsistent⟩, rfl⟩
      · rintro ⟨votes, hreads, hconsistent, rfl⟩
        cases hreads with
        | blank hnot => rw [hblank'] at hnot; cases hnot
        | vote _ hdecode hverify hreads =>
          obtain ⟨hagrees, hconsistent⟩ := consistent_cons.mp hconsistent
          exact ⟨_, ⟨_, hdecode, (), hverify, (), hagrees, rfl⟩, _, hreads, hconsistent, rfl⟩

/-- What opening a file of text does. -/
lemma openAt_eq_ok {bytes : Bytes} {text : String} (htext : textBytes text = bytes)
    {wal : ConsensusWal} :
    openAt fromStr (.content bytes) = .ok wal ↔
      ∃ votes, Reads fromStr (lines text) votes ∧ Consistent ∅ votes ∧
        wal = ⟨collect ∅ votes⟩ := by
  rw [openAt, reload, FileRead.toString, decodeText_eq_some.mpr htext]
  exact reload_eq_ok fromStr

/-! ## Damaged files -/

/-- Every line that is not blank is a signed vote, and the log holds exactly their entries. -/
def Remembers (text : String) (wal : ConsensusWal) : Prop :=
  (∀ line ∈ lines text, isBlank line = false →
    ∃ v, fromStr line = .ok v ∧ v.message.verify = .ok ()) ∧
  ∀ key hash, wal.signed.lookup key = some hash ↔
    ∃ line ∈ lines text, isBlank line = false ∧
      ∃ v, fromStr line = .ok v ∧ v.message.key = key ∧ v.message.blockHash = hash

lemma remembers_of_openAt {text : String} {wal : ConsensusWal}
    (h : openAt fromStr (.content (textBytes text)) = .ok wal) : Remembers fromStr text wal := by
  obtain ⟨votes, hreads, hconsistent, rfl⟩ := (openAt_eq_ok fromStr rfl).mp h
  refine ⟨hreads.decodes, fun key hash => ?_⟩
  rw [lookup_collect hconsistent, Finmap.lookup_empty]
  simp only [reduceCtorEq, false_or, hreads.mem_iff]
  constructor
  · rintro ⟨_, ⟨line, hline, hblank, v, hdecode, rfl⟩, hkey, hhash⟩
    exact ⟨line, hline, hblank, v, hdecode, hkey, hhash⟩
  · rintro ⟨line, hline, hblank, v, hdecode, hkey, hhash⟩
    exact ⟨v.message, ⟨line, hline, hblank, v, hdecode, rfl⟩, hkey, hhash⟩

/-- A log without entries remembers a text exactly when all its lines are blank. -/
lemma remembers_empty {text : String} :
    Remembers fromStr text ⟨∅⟩ ↔ ∀ line ∈ lines text, isBlank line = true := by
  constructor
  · rintro ⟨hdecodes, hentries⟩ line hline
    by_contra hblank
    rw [Bool.not_eq_true] at hblank
    obtain ⟨v, hdecode, _⟩ := hdecodes line hline hblank
    have hentry := (hentries v.message.key v.message.blockHash).mpr
      ⟨line, hline, hblank, v, hdecode, rfl, rfl⟩
    rw [Finmap.lookup_empty] at hentry
    cases hentry
  · intro hblank
    have hnone : ∀ line ∈ lines text, isBlank line ≠ false := by
      intro line hline
      rw [hblank line hline]
      decide
    refine ⟨fun line hline hnot => absurd hnot (hnone line hline), fun key hash => ?_⟩
    rw [Finmap.lookup_empty]
    constructor
    · intro h
      cases h
    · rintro ⟨line, hline, hnot, _⟩
      exact absurd hnot (hnone line hline)

/-- **The log fails closed only on text.** For the content of a file that is there, read or not:
opening returns a log only if it holds exactly the votes of the lines, exactly when the content is
UTF-8 and is either read or has no line that is not blank. -/
theorem open_fails_closed_iff (content : Bytes) (file : FileRead)
    (hfile : file = .failed ∨ file = .content content) :
    (∀ wal, openAt fromStr file = .ok wal →
      ∃ text, textBytes text = content ∧ Remembers fromStr text wal) ↔
      ∃ text, textBytes text = content ∧
        (file = .content content ∨ ∀ line ∈ lines text, isBlank line = true) := by
  constructor
  · intro h
    rcases hfile with rfl | rfl
    · -- the read failed, and opening returned the empty log
      obtain ⟨text, htext, hremembers⟩ := h ⟨∅⟩ rfl
      exact ⟨text, htext, .inr ((remembers_empty fromStr).mp hremembers)⟩
    · cases hdecode : decodeText content with
      | some text => exact ⟨text, decodeText_eq_some.mp hdecode, .inl rfl⟩
      | none =>
        have hempty : openAt fromStr (.content content) = .ok ⟨∅⟩ := by
          rw [openAt, reload, FileRead.toString, hdecode]
        obtain ⟨text, htext, _⟩ := h ⟨∅⟩ hempty
        rw [decodeText_eq_some.mpr htext] at hdecode
        cases hdecode
  · rintro ⟨text, rfl, hread⟩ wal hopen
    refine ⟨text, rfl, ?_⟩
    rcases hfile with rfl | rfl
    · cases hopen
      exact (remembers_empty fromStr).mpr (hread.resolve_left (by simp))
    · exact remembers_of_openAt fromStr hopen

/-! ## Files of votes -/

/-- A file of votes, with the votes of what follows them, opens to their entries. -/
lemma openAt_of_log {file : Option Bytes} {votes votes' : List ConsensusMessage} (tail : String)
    (hfile : file.getD [] = textBytes (logText votes ++ tail))
    (hverified : ∀ m ∈ votes, m.verify = .ok ())
    (hjson : ∀ m ∈ votes, fromStr (WalVote.mk m).json = .ok ⟨m⟩)
    (htail : Reads fromStr (lines tail) votes') (hconsistent : Consistent ∅ (votes ++ votes')) :
    openAt fromStr (.ofFile file) = .ok ⟨collect ∅ (votes ++ votes')⟩ := by
  have hreads : Reads fromStr (lines (logText votes ++ tail)) (votes ++ votes') := by
    rw [lines_logText]
    exact htail.append_log hverified hjson
  cases file with
  | some bytes => exact (openAt_eq_ok fromStr hfile.symm).mpr ⟨_, hreads, hconsistent, rfl⟩
  | none =>
    -- no file is like an empty one
    have hempty : logText votes ++ tail = "" := textBytes_inj.mp hfile.symm
    rw [hempty] at hreads
    generalize votes ++ votes' = all at hreads
    cases hreads
    rfl

end ConsensusWal

/-! ## Runs -/

/-- A validator's log with its file. Beside them stand the votes the calls accepted, and the votes
whose line was written to the file. -/
structure WalState where
  wal : ConsensusWal
  file : Option Bytes
  accepted : List ConsensusMessage
  written : List ConsensusMessage

/-- The whole line was written. -/
def AppendIo.wrote : AppendIo → Bool
  | syncFailed _ => true
  | synced => true
  | _ => false

/-- The write did not stop inside the line. -/
def AppendIo.whole : AppendIo → Bool
  | writeFailed _ _ => false
  | _ => true

namespace WalState

/-- The log opened where no file is. -/
def start : WalState := ⟨⟨∅⟩, none, [], []⟩

/-- The vote is signed, and none is recorded in its place: the call appends a line. -/
def appends (s : WalState) (m : ConsensusMessage) : Bool :=
  isOk m.verify && (s.wal.signed.lookup m.key).isNone

/-- The state after `record_before_broadcast`. -/
def record (s : WalState) (io : AppendIo) (m : ConsensusMessage) : WalState :=
  let (result, wal, file) := s.wal.recordBeforeBroadcast s.file io m
  { wal
    file
    accepted := if isOk result then s.accepted ++ [m] else s.accepted
    written := if s.appends m && io.wrote then s.written ++ [m] else s.written }

variable {s : WalState} {m : ConsensusMessage}

lemma appends_iff : s.appends m = true ↔ m.verify = .ok () ∧ s.wal.signed.lookup m.key = none := by
  simp only [appends, Bool.and_eq_true, isOk_iff, Option.isNone_iff_eq_none]
  constructor
  · rintro ⟨⟨_, hverify⟩, hlookup⟩
    exact ⟨hverify, hlookup⟩
  · rintro ⟨hverify, hlookup⟩
    exact ⟨⟨(), hverify⟩, hlookup⟩

/-- A call that does not append leaves log and file. It accepts only a vote that is recorded. -/
lemma record_of_not_appends (h : s.appends m = false) (io : AppendIo) :
    s.record io m = s ∨
      s.record io m = { s with accepted := s.accepted ++ [m] } ∧
        s.wal.signed.lookup m.key = some m.blockHash := by
  simp only [record, h, Bool.false_and, Bool.false_eq_true, if_false]
  cases hverify : m.verify with
  | error e =>
    left
    simp [ConsensusWal.recordBeforeBroadcast, hverify, isOk]
  | ok _ =>
    cases hlookup : s.wal.signed.lookup m.key with
    | none =>
      rw [appends_iff.mpr ⟨hverify, hlookup⟩] at h
      cases h
    | some previous =>
      by_cases hsame : previous = m.blockHash
      · right
        simp [ConsensusWal.recordBeforeBroadcast, hverify, hlookup, hsame, isOk]
      · left
        simp [ConsensusWal.recordBeforeBroadcast, hverify, hlookup, hsame, isOk]

/-- A call that appends leaves what the file system made of it. -/
lemma record_of_appends (h : s.appends m = true) (io : AppendIo) :
    s.record io m = match io with
      | .failed _ => s
      | .writeFailed written _ =>
        { s with file := some (s.file.getD [] ++ (walLine m).take written) }
      | .syncFailed _ =>
        { s with file := some (s.file.getD [] ++ walLine m), written := s.written ++ [m] }
      | .synced =>
        { wal := ⟨s.wal.signed.insert m.key m.blockHash⟩
          file := some (s.file.getD [] ++ walLine m)
          accepted := s.accepted ++ [m]
          written := s.written ++ [m] } := by
  obtain ⟨hverify, hlookup⟩ := appends_iff.mp h
  cases io <;>
    simp [record, ConsensusWal.recordBeforeBroadcast, hverify, hlookup, h, isOk, AppendIo.wrote]

/-- The file holds the written votes, all signed; every entry is one of them, and every accepted
vote has its entry. -/
structure Logged (s : WalState) : Prop where
  file : s.file.getD [] = textBytes (logText s.written)
  verified : ∀ m ∈ s.written, m.verify = .ok ()
  signed : ∀ key hash, s.wal.signed.lookup key = some hash →
    ∃ m ∈ s.written, m.key = key ∧ m.blockHash = hash
  accepted : ∀ m ∈ s.accepted, s.wal.signed.lookup m.key = some m.blockHash

lemma logged_start : start.Logged := ⟨rfl, by simp [start], by simp [start], by simp [start]⟩

namespace Logged

/-- The line of a vote is behind those of the others. -/
lemma file_concat (h : s.Logged) : s.file.getD [] ++ walLine m
    = textBytes (logText (s.written ++ [m])) := by
  rw [h.file, textBytes_logText_concat]

lemma verified_concat (h : s.Logged) (hm : m.verify = .ok ()) :
    ∀ w ∈ s.written ++ [m], w.verify = .ok () := by
  intro w hw
  rcases List.mem_append.mp hw with hw | hw
  · exact h.verified w hw
  · rw [List.mem_singleton.mp hw]
    exact hm

/-- A call whose write does not stop inside the line keeps the file one of votes. -/
lemma record (h : s.Logged) {io : AppendIo} (hio : io.whole = true) (m : ConsensusMessage) :
    (s.record io m).Logged := by
  by_cases happends : s.appends m = true
  · obtain ⟨hverify, hlookup⟩ := appends_iff.mp happends
    rw [record_of_appends happends]
    cases io with
    | failed e => exact h
    | writeFailed written e => cases hio
    -- the line is on the disk, but the vote was not accepted
    | syncFailed e =>
      refine ⟨h.file_concat, h.verified_concat hverify, fun key hash hentry => ?_, h.accepted⟩
      obtain ⟨w, hw, hkey, hhash⟩ := h.signed key hash hentry
      exact ⟨w, List.mem_append_left _ hw, hkey, hhash⟩
    | synced =>
      refine ⟨h.file_concat, h.verified_concat hverify, fun key hash hentry => ?_, ?_⟩
      · rw [HashMap.lookup_insert] at hentry
        split at hentry
        next heq => exact ⟨m, by simp, heq.symm, Option.some.inj hentry⟩
        next =>
          obtain ⟨w, hw, hkey, hhash⟩ := h.signed key hash hentry
          exact ⟨w, List.mem_append_left _ hw, hkey, hhash⟩
      · intro w hw
        show (s.wal.signed.insert m.key m.blockHash).lookup w.key = some w.blockHash
        rw [HashMap.lookup_insert]
        rcases List.mem_append.mp hw with hw | hw
        · have hentry := h.accepted w hw
          have hne : w.key ≠ m.key := by
            intro heq
            rw [heq, hlookup] at hentry
            cases hentry
          rw [if_neg hne, hentry]
        · rw [List.mem_singleton.mp hw, if_pos rfl]
  · rcases record_of_not_appends (by simpa using happends) io with heq | ⟨heq, hentry⟩
    · rw [heq]
      exact h
    · rw [heq]
      refine ⟨h.file, h.verified, h.signed, fun w hw => ?_⟩
      rcases List.mem_append.mp hw with hw | hw
      · exact h.accepted w hw
      · rw [List.mem_singleton.mp hw]
        exact hentry

end Logged

/-- The votes whose line a call adds to the file. -/
lemma written_record (s : WalState) (io : AppendIo) (m : ConsensusMessage) :
    (s.record io m).written = s.written ∨ s.appends m = true ∧ io.wrote = true ∧
      (s.record io m).written = s.written ++ [m] := by
  show (if s.appends m && io.wrote then s.written ++ [m] else s.written) = s.written ∨ _ ∧ _ ∧
    (if s.appends m && io.wrote then s.written ++ [m] else s.written) = s.written ++ [m]
  by_cases h : (s.appends m && io.wrote) = true
  · rw [if_pos h]
    rw [Bool.and_eq_true] at h
    exact .inr ⟨h.1, h.2, rfl⟩
  · rw [if_neg h]
    exact .inl rfl

/-! ## Restarts -/

/-- The votes of the file can be read back, and none contradicts another. -/
structure Readable (s : WalState) : Prop extends Logged s where
  consistent : Consistent ∅ s.written
  decoded : ∀ m ∈ s.written, fromStr (WalVote.mk m).json = .ok ⟨m⟩

namespace Readable
variable {fromStr}

lemma start : WalState.start.Readable fromStr :=
  ⟨logged_start, ⟨by simp [WalState.start], .nil⟩, by simp [WalState.start]⟩

/-- A call that writes its whole line or nothing, and contradicts no line of the file. -/
lemma record (h : s.Readable fromStr) {io : AppendIo} (hio : io.whole = true)
    (hm : fromStr (WalVote.mk m).json = .ok ⟨m⟩)
    (hagrees : io.wrote = true → s.appends m = true →
      ∀ w ∈ s.written, w.key = m.key → w.blockHash = m.blockHash) :
    (s.record io m).Readable fromStr := by
  refine ⟨h.toLogged.record hio m, ?_, fun w hw => ?_⟩
  · rcases written_record s io m with heq | ⟨happends, hwrote, heq⟩
    · rw [heq]
      exact h.consistent
    · rw [heq, consistent_concat]
      exact ⟨h.consistent, hagrees hwrote happends⟩
  · rcases written_record s io m with heq | ⟨_, _, heq⟩
    · exact h.decoded w (heq ▸ hw)
    · rw [heq, List.mem_append, List.mem_singleton] at hw
      rcases hw with hw | rfl
      · exact h.decoded w hw
      · exact hm

/-- The file opens to the entries of its votes, and of those in what follows them. -/
lemma openAt_append (h : s.Readable fromStr) {file : Option Bytes}
    {votes' : List ConsensusMessage} (tail : String)
    (hfile : file.getD [] = textBytes (logText s.written ++ tail))
    (htail : Reads fromStr (lines tail) votes') (hconsistent : Consistent ∅ (s.written ++ votes')) :
    ConsensusWal.openAt fromStr (.ofFile file) = .ok ⟨collect ∅ (s.written ++ votes')⟩ :=
  ConsensusWal.openAt_of_log fromStr tail hfile h.verified h.decoded htail hconsistent

lemma openAt (h : s.Readable fromStr) :
    ConsensusWal.openAt fromStr (.ofFile s.file) = .ok ⟨collect ∅ s.written⟩ := by
  have hopen := h.openAt_append "" (by rw [h.file, String.append_empty]) .empty
    (by rw [List.append_nil]; exact h.consistent)
  rw [hopen, List.append_nil]

end Readable

/-- Every line that was written was synced: the log holds the entries of the file. -/
structure Synced (s : WalState) : Prop extends Readable fromStr s where
  collected : s.wal = ⟨collect ∅ s.written⟩

namespace Synced
variable {fromStr}

lemma lookup_written (h : s.Synced fromStr) (w : ConsensusMessage) (hw : w ∈ s.written) :
    s.wal.signed.lookup w.key = some w.blockHash := by
  rw [h.collected]
  exact (lookup_collect h.consistent _ _).mpr (.inr ⟨w, hw, rfl, rfl⟩)

lemma record (h : s.Synced fromStr) (hm : fromStr (WalVote.mk m).json = .ok ⟨m⟩) :
    (s.record .synced m).Synced fromStr := by
  refine ⟨h.toReadable.record rfl hm fun _ happends w hw hkey => ?_, ?_⟩
  · -- a vote in its place would have its entry
    have hentry := h.lookup_written w hw
    rw [hkey, (appends_iff.mp happends).2] at hentry
    cases hentry
  · by_cases happends : s.appends m = true
    · rw [record_of_appends happends]
      simp only [collect, List.foldl_append, List.foldl_cons, List.foldl_nil]
      rw [h.collected]
      rfl
    · rcases record_of_not_appends (by simpa using happends) .synced with heq | ⟨heq, _⟩
      · rw [heq]
        exact h.collected
      · rw [heq]
        exact h.collected

/-- Opening the file gives the log that is in memory. -/
lemma openAt (h : s.Synced fromStr) :
    ConsensusWal.openAt fromStr (.ofFile s.file) = .ok s.wal := by
  rw [h.toReadable.openAt, h.collected]

end Synced

/-- A call on the log, or a restart of the validator. -/
inductive Call where
  | record (m : ConsensusMessage)
  | reopen

/-- The state after a call, with durable and error-free file I/O. -/
def call (s : WalState) : Call → WalState
  | .record m => s.record .synced m
  | .reopen => { s with wal := getOk (ConsensusWal.openAt fromStr (.ofFile s.file)) s.wal }

/-- The state after calls, from a path where no file is. -/
def run (calls : List Call) : WalState := calls.foldl (call fromStr) start

lemma run_synced {fromStr : String → Except String WalVote} {calls : List Call}
    (hjson : ∀ m, .record m ∈ calls → fromStr (WalVote.mk m).json = .ok ⟨m⟩) :
    (run fromStr calls).Synced fromStr := by
  induction calls using List.reverseRecOn with
  | nil => exact ⟨.start, rfl⟩
  | append_singleton calls c ih =>
    have hsynced := ih fun m hm => hjson m (List.mem_append_left _ hm)
    rw [run, List.foldl_append, List.foldl_cons, List.foldl_nil, ← run]
    cases c with
    | record m => exact hsynced.record (hjson m (by simp))
    | reopen =>
      rw [call, hsynced.openAt, getOk_ok]
      exact hsynced

end WalState

/-- **The log blocks double signing across restarts.** In every run of record calls and restarts,
each restart opens the file and finds the log as it was, and two votes the calls accepted in one
place are for one block. -/
theorem double_signing_blocked (calls : List WalState.Call)
    (hjson : ∀ m, .record m ∈ calls → fromStr (WalVote.mk m).json = .ok ⟨m⟩) :
    (∀ before after, calls = before ++ .reopen :: after →
      ConsensusWal.openAt fromStr (.ofFile (WalState.run fromStr before).file)
        = .ok (WalState.run fromStr before).wal) ∧
    ∀ m ∈ (WalState.run fromStr calls).accepted, ∀ m' ∈ (WalState.run fromStr calls).accepted,
      m.height = m'.height → m.round = m'.round → m.voteType = m'.voteType →
        m.blockHash = m'.blockHash := by
  constructor
  · rintro before after rfl
    have hbefore : ∀ m, .record m ∈ before → fromStr (WalVote.mk m).json = .ok ⟨m⟩ := fun m hm =>
      hjson m (List.mem_append_left _ hm)
    exact (WalState.run_synced hbefore).openAt
  · intro m hm m' hm' hheight hround htype
    have hsynced := WalState.run_synced hjson
    have hkey : m.key = m'.key := by rw [ConsensusMessage.key, hheight, hround, htype]; rfl
    have hentry := hsynced.accepted m hm
    rw [hkey, hsynced.accepted m' hm'] at hentry
    exact (Option.some.inj hentry).symm

/-! ## Crashes -/

namespace WalState

/-- The state after record calls, each with what the file system made of it. -/
def recordAll (s : WalState) (steps : List (ConsensusMessage × AppendIo)) : WalState :=
  steps.foldl (fun s step => s.record step.2 step.1) s

/-- If the vote is appended, no line of the file contradicts it. Only a line whose `sync_data`
failed can: the others have their entries. -/
def Safe (s : WalState) (m : ConsensusMessage) : Prop :=
  s.appends m = true → ∀ w ∈ s.written, w.key = m.key → w.blockHash = m.blockHash

/-- Every call whose line is written is safe in the state it is made in. -/
def SafeRun : WalState → List (ConsensusMessage × AppendIo) → Prop
  | _, [] => True
  | s, (m, io) :: rest => (io.wrote = true → s.Safe m) ∧ SafeRun (s.record io m) rest

/-- The file opens, and the log has the entry of every accepted vote. -/
def Recovers (file : Option Bytes) (accepted : List ConsensusMessage) : Prop :=
  ∃ wal, ConsensusWal.openAt fromStr (.ofFile file) = .ok wal ∧
    ∀ m ∈ accepted, wal.signed.lookup m.key = some m.blockHash

variable {fromStr}

/-- A file that opens to all written votes has the accepted ones. -/
lemma Readable.recovers {s : WalState} (h : s.Readable fromStr) {file : Option Bytes}
    {votes' : List ConsensusMessage} (tail : String)
    (hfile : file.getD [] = textBytes (logText s.written ++ tail))
    (htail : Reads fromStr (lines tail) votes') (hconsistent : Consistent ∅ (s.written ++ votes')) :
    Recovers fromStr file s.accepted := by
  refine ⟨_, h.openAt_append tail hfile htail hconsistent, fun m hm => ?_⟩
  obtain ⟨w, hw, hkey, hhash⟩ := h.signed _ _ (h.accepted m hm)
  exact (lookup_collect hconsistent _ _).mpr (.inr ⟨w, List.mem_append_left _ hw, hkey, hhash⟩)

/-- What a safe run of whole lines leaves. -/
lemma Readable.recordAll {steps : List (ConsensusMessage × AppendIo)} :
    ∀ {s : WalState}, s.Readable fromStr →
      (∀ step ∈ steps, step.2.whole = true ∧ fromStr (WalVote.mk step.1).json = .ok ⟨step.1⟩) →
      s.SafeRun steps → (s.recordAll steps).Readable fromStr := by
  induction steps with
  | nil => exact fun h _ _ => h
  | cons step steps ih =>
    intro s h hsteps hsafe
    obtain ⟨m, io⟩ := step
    obtain ⟨⟨hio, hm⟩, hsteps⟩ := List.forall_mem_cons.mp hsteps
    exact ih (h.record hio hm hsafe.1) hsteps hsafe.2

/-- What a crash after so many bytes of the line leaves in the file. -/
def crash (s : WalState) (m : ConsensusMessage) (written : ℕ) : Option Bytes :=
  (s.record (.writeFailed written "") m).file

lemma crash_of_appends {s : WalState} {m : ConsensusMessage} (h : s.appends m = true)
    (written : ℕ) : s.crash m written = some (s.file.getD [] ++ (walLine m).take written) := by
  rw [crash, record_of_appends h]

omit [Primitives] in
/-- The bytes of a line that was cut. -/
lemma take_walLine {m : ConsensusMessage} {n : ℕ} (h : (textBytes (WalVote.mk m).json).length ≤ n) :
    (walLine m).take n = textBytes (WalVote.mk m).json ∨ (walLine m).take n = walLine m := by
  have hline : walLine m = textBytes (WalVote.mk m).json ++ [10] := by
    rw [walLine, textBytes_append]
    rfl
  rw [hline]
  rcases Nat.eq_or_lt_of_le h with heq | hlt
  · left
    rw [← heq, List.take_left]
  · right
    apply List.take_of_length_le
    rw [List.length_append]
    exact hlt

end WalState

/-- **Which interrupted appends the log survives.** After record calls that each write their whole
line or nothing, with or without a successful `sync_data`, none of which contradicts a line of the
file: the file opens with every accepted vote. So it does when the process ends during a further
append that wrote nothing of its line, or all of it with or without the line feed, and does not
contradict the file either. -/
theorem survives_crash (steps : List (ConsensusMessage × AppendIo))
    (hsteps : ∀ step ∈ steps,
      step.2.whole = true ∧ fromStr (WalVote.mk step.1).json = .ok ⟨step.1⟩)
    (hsafe : WalState.start.SafeRun steps) (s : WalState)
    (hs : s = WalState.start.recordAll steps) (m : ConsensusMessage)
    (hm : fromStr (WalVote.mk m).json = .ok ⟨m⟩) (written : ℕ)
    (hcut : s.appends m = true →
      written = 0 ∨ (textBytes (WalVote.mk m).json).length ≤ written ∧ s.Safe m) :
    WalState.Recovers fromStr s.file s.accepted ∧
      WalState.Recovers fromStr (s.crash m written) s.accepted := by
  have hreadable : s.Readable fromStr := by
    rw [hs]
    exact WalState.Readable.start.recordAll hsteps hsafe
  have hsame : WalState.Recovers fromStr s.file s.accepted :=
    hreadable.recovers "" (by rw [hreadable.file, String.append_empty]) .empty
      (by rw [List.append_nil]; exact hreadable.consistent)
  refine ⟨hsame, ?_⟩
  by_cases happends : s.appends m = true
  · rcases hcut happends with rfl | ⟨hwhole, hagrees⟩
    · refine hreadable.recovers "" ?_ .empty ?_
      · rw [WalState.crash_of_appends happends, Option.getD_some, List.take_zero, List.append_nil,
          hreadable.file, String.append_empty]
      · rw [List.append_nil]
        exact hreadable.consistent
    · have hall : Consistent ∅ (s.written ++ [m]) :=
        consistent_concat.mpr ⟨hreadable.consistent, hagrees happends⟩
      have hvote : Reads fromStr [(WalVote.mk m).json] [m] :=
        .vote (WalVote.isBlank_json _) hm (WalState.appends_iff.mp happends).1 .nil
      rcases WalState.take_walLine hwhole with htake | htake
      · -- the line feed is missing, and the last line is read without it
        refine hreadable.recovers (WalVote.mk m).json ?_ ?_ hall
        · rw [WalState.crash_of_appends happends, Option.getD_some, htake, hreadable.file,
            textBytes_append]
        · rwa [lines_of_notMem (WalVote.notMem_json _) (WalVote.json_ne_empty _)]
      · refine hreadable.recovers ((WalVote.mk m).json ++ "\n") ?_ ?_ hall
        · rw [WalState.crash_of_appends happends, Option.getD_some, htake, hreadable.file,
            textBytes_append _ (_ ++ _)]
          rfl
        · have hlines := lines_logText [m] ""
          rw [logText, logText, String.append_empty, String.append_empty] at hlines
          rw [hlines]
          exact hvote
  · have hfile : s.crash m written = s.file := by
      rw [WalState.crash]
      rcases WalState.record_of_not_appends (by simpa using happends) (.writeFailed written "")
        with heq | ⟨heq, _⟩
      · rw [heq]
      · rw [heq]
    rw [hfile]
    exact hsame

/-! ### Over many starts -/

namespace WalState

/-- A record call with what the file system makes of it, or a restart of the validator. -/
inductive Turn where
  | record (m : ConsensusMessage) (io : AppendIo)
  | restart

/-- The state after a turn. -/
def turn (s : WalState) : Turn → WalState
  | .record m io => s.record io m
  | .restart => s.call fromStr .reopen

def runTurns (s : WalState) (turns : List Turn) : WalState := turns.foldl (turn fromStr) s

/-- The turn writes its whole line or nothing, and contradicts no line of the file. -/
def Whole (s : WalState) : Turn → Prop
  | .record m io => io.whole = true ∧ (io.wrote = true → s.Safe m) ∧
    fromStr (WalVote.mk m).json = .ok ⟨m⟩
  | .restart => True

/-- Every turn is whole in the state it is made in. -/
def WholeRun : WalState → List Turn → Prop
  | _, [] => True
  | s, next :: rest => s.Whole fromStr next ∧ WholeRun (s.turn fromStr next) rest

variable {fromStr}

/-- A restart loses nothing: what the log knew it reads back. -/
lemma Readable.reopen {s : WalState} (h : s.Readable fromStr) :
    (s.call fromStr .reopen).Readable fromStr := by
  rw [call, h.openAt, getOk_ok]
  refine ⟨⟨h.file, h.verified, fun key hash hentry => ?_, fun m hm => ?_⟩, h.consistent, h.decoded⟩
  · exact ((lookup_collect h.consistent _ _).mp hentry).resolve_left (by simp)
  · obtain ⟨w, hw, hkey, hhash⟩ := h.signed _ _ (h.accepted m hm)
    exact (lookup_collect h.consistent _ _).mpr (.inr ⟨w, hw, hkey, hhash⟩)

lemma Readable.runTurns {turns : List Turn} : ∀ {s : WalState}, s.Readable fromStr →
    s.WholeRun fromStr turns → (s.runTurns fromStr turns).Readable fromStr := by
  induction turns with
  | nil => exact fun h _ => h
  | cons next turns ih =>
    rintro s h ⟨hnext, hrest⟩
    cases next with
    | record m io => exact ih (h.record hnext.1 hnext.2.2 hnext.2.1) hrest
    | restart => exact ih h.reopen hrest

end WalState

/-- **The log survives every restart.** In a run of record calls and restarts in which each append
writes its whole line or nothing, and contradicts no line of the file, the file always opens with
every vote accepted so far. -/
theorem survives_restarts (turns : List WalState.Turn)
    (hturns : WalState.start.WholeRun fromStr turns) :
    WalState.Recovers fromStr (WalState.start.runTurns fromStr turns).file
      (WalState.start.runTurns fromStr turns).accepted := by
  have hreadable := WalState.Readable.start.runTurns hturns
  exact hreadable.recovers "" (by rw [hreadable.file, String.append_empty]) .empty
    (by rw [List.append_nil]; exact hreadable.consistent)

/-- **A line without its line feed spoils the next one.** If the process ends after such a run
between the text of a line and its line feed, the next start still opens the file. But the next
vote in a new place is then written on that same line: its call returns `Ok`, and since the line is
not one object no later start opens the file. -/
theorem cut_line_spoils_next (turns : List WalState.Turn)
    (hturns : WalState.start.WholeRun fromStr turns) (s : WalState)
    (hs : s = WalState.start.runTurns fromStr turns) (m m' : ConsensusMessage)
    (hm : fromStr (WalVote.mk m).json = .ok ⟨m⟩) (happends : s.appends m = true)
    (hagrees : s.Safe m) (cut : Option Bytes)
    (hcut : cut = s.crash m (textBytes (WalVote.mk m).json).length)
    (hm' : m'.verify = .ok ()) (hplace : ∀ w ∈ s.written ++ [m], w.key ≠ m'.key) (e : String)
    (herror : fromStr ((WalVote.mk m).json ++ (WalVote.mk m').json) = .error e) :
    ∃ wal, ConsensusWal.openAt fromStr (.ofFile cut) = .ok wal ∧
      ∃ wal' file, wal.recordBeforeBroadcast cut .synced m' = (.ok (), wal', file) ∧
        ¬ ∃ wal'', ConsensusWal.openAt fromStr (.ofFile file) = .ok wal'' := by
  have hreadable : s.Readable fromStr := hs ▸ WalState.Readable.start.runTurns hturns
  have hall : Consistent ∅ (s.written ++ [m]) :=
    consistent_concat.mpr ⟨hreadable.consistent, hagrees happends⟩
  have hline : ∀ v, walLine v = textBytes (WalVote.mk v).json ++ textBytes "\n" := fun v => by
    rw [walLine, textBytes_append]
  have hfile : cut.getD [] = textBytes (logText s.written ++ (WalVote.mk m).json) := by
    rw [hcut, WalState.crash_of_appends happends, Option.getD_some, hline, List.take_left,
      hreadable.file, textBytes_append]
  have hopen := hreadable.openAt_append (WalVote.mk m).json hfile (by
    rw [lines_of_notMem (WalVote.notMem_json _) (WalVote.json_ne_empty _)]
    exact .vote (WalVote.isBlank_json _) hm (WalState.appends_iff.mp happends).1 .nil) hall
  have hnew : (collect ∅ (s.written ++ [m])).lookup m'.key = none := by
    rw [Option.eq_none_iff_forall_ne_some]
    intro hash hentry
    obtain ⟨w, hw, hkey, _⟩ := ((lookup_collect hall _ _).mp hentry).resolve_left (by simp)
    exact hplace w hw hkey
  have hrecord : ConsensusWal.recordBeforeBroadcast ⟨collect ∅ (s.written ++ [m])⟩ cut .synced m'
      = (.ok (), ⟨(collect ∅ (s.written ++ [m])).insert m'.key m'.blockHash⟩,
        some (cut.getD [] ++ walLine m')) := by
    simp only [ConsensusWal.recordBeforeBroadcast, hm', hnew]
  refine ⟨_, hopen, _, _, hrecord, ?_⟩
  rintro ⟨wal'', hreopen⟩
  -- both objects are in one line
  have htext :
      textBytes (logText s.written ++ ((WalVote.mk m).json ++ (WalVote.mk m').json ++ "\n"))
        = cut.getD [] ++ walLine m' := by
    rw [hfile, hline, ← textBytes_append, ← textBytes_append, String.append_assoc,
      String.append_assoc]
  have hlines : lines ((WalVote.mk m).json ++ (WalVote.mk m').json ++ "\n")
      = [(WalVote.mk m).json ++ (WalVote.mk m').json] := by
    have hmem : '\n' ∉ ((WalVote.mk m).json ++ (WalVote.mk m').json).toList := by
      rw [String.toList_append, List.mem_append, not_or]
      exact ⟨WalVote.notMem_json _, WalVote.notMem_json _⟩
    have hlast : ((WalVote.mk m).json ++ (WalVote.mk m').json).toList.getLast? ≠ some '\r' := by
      rw [String.toList_append, List.getLast?_append, (WalVote.mk m').braces_json.2, Option.some_or]
      decide
    have h := lines_append hmem hlast ""
    rwa [String.append_empty] at h
  obtain ⟨votes, hreads, _⟩ := (ConsensusWal.openAt_eq_ok fromStr htext).mp hreopen
  rw [lines_logText, hlines] at hreads
  obtain ⟨v, hdecode, _⟩ := hreads.decodes _ (List.mem_append_right _ List.mem_cons_self)
    (WalVote.isBlank_append _ _)
  rw [herror] at hdecode
  cases hdecode

end

/-! ### The votes of the validator -/

section
attribute [local instance] Devnet.primitives

/-- The records of three lines, and the error for any other text. -/
def fromLine (line : String) : Except String WalVote :=
  if line == (WalVote.mk Devnet.firstPrevote).json then .ok ⟨Devnet.firstPrevote⟩
  else if line == (WalVote.mk Devnet.rivalPrevote).json then .ok ⟨Devnet.rivalPrevote⟩
  else if line == (WalVote.mk Devnet.firstPrecommit).json then .ok ⟨Devnet.firstPrecommit⟩
  else .error "EOF while parsing an object"

lemma fromLine_json : ∀ m ∈ [Devnet.firstPrevote, Devnet.rivalPrevote, Devnet.firstPrecommit],
    fromLine (WalVote.mk m).json = .ok ⟨m⟩ := by
  have hlines : ∀ v w : ConsensusMessage, v ≠ w → (WalVote.mk v).json ≠ (WalVote.mk w).json :=
    fun v w hne h => hne (WalVote.mk.inj (WalVote.json_inj h))
  have hrival : Devnet.rivalPrevote ≠ Devnet.firstPrevote := fun h =>
    absurd (hexEncode_inj (congrArg ConsensusMessage.blockHash h)) (by decide)
  have htype : ∀ m, m.voteType = .prevote → Devnet.firstPrecommit ≠ m := by
    rintro m hm rfl
    cases hm
  have hprecommit : Devnet.firstPrecommit ≠ Devnet.firstPrevote := htype _ rfl
  have hprecommit' : Devnet.firstPrecommit ≠ Devnet.rivalPrevote := htype _ rfl
  simp [fromLine, hlines _ _ hrival, hlines _ _ hprecommit, hlines _ _ hprecommit']

/-- A vote is blocked after a restart. -/
theorem double_signing_blocked_rival : ∃ calls : List WalState.Call,
    calls = [.record Devnet.firstPrevote, .reopen, .record Devnet.rivalPrevote] ∧
      ConsensusWal.openAt fromLine
        (.ofFile (WalState.run fromLine [.record Devnet.firstPrevote]).file)
          = .ok (WalState.run fromLine [.record Devnet.firstPrevote]).wal ∧
      ∀ m ∈ (WalState.run fromLine calls).accepted,
        ∀ m' ∈ (WalState.run fromLine calls).accepted,
          m.height = m'.height → m.round = m'.round → m.voteType = m'.voteType →
            m.blockHash = m'.blockHash := by
  obtain ⟨hopen, hblocked⟩ := double_signing_blocked fromLine
    [.record Devnet.firstPrevote, .reopen, .record Devnet.rivalPrevote] (by
      intro m hm
      apply fromLine_json
      simp only [List.mem_cons, reduceCtorEq, WalState.Call.record.injEq, List.not_mem_nil,
        or_false, false_or] at hm ⊢
      tauto)
  exact ⟨_, rfl, hopen [.record Devnet.firstPrevote] [.record Devnet.rivalPrevote] rfl, hblocked⟩

/-- A file with one vote. -/
def firstLog : Bytes := textBytes (logText [Devnet.firstPrevote])

lemma lines_firstLog : lines (logText [Devnet.firstPrevote])
    = [(WalVote.mk Devnet.firstPrevote).json] := by
  have h := lines_logText [Devnet.firstPrevote] ""
  rw [String.append_empty] at h
  exact h

/-- The file cannot be read, and opening returns a log without its vote. -/
theorem open_forgets_vote :
    ∃ wal, ConsensusWal.openAt fromLine .failed = .ok wal ∧
      ¬ ∃ text, textBytes text = firstLog ∧ ConsensusWal.Remembers fromLine text wal := by
  refine ⟨⟨∅⟩, rfl, ?_⟩
  rintro ⟨text, htext, hremembers⟩
  obtain rfl := textBytes_inj.mp htext
  have hblank := (ConsensusWal.remembers_empty fromLine).mp hremembers
    (WalVote.mk Devnet.firstPrevote).json (by rw [lines_firstLog]; exact List.mem_cons_self)
  rw [WalVote.isBlank_json] at hblank
  cases hblank

/-- The file can be read, and opening returns no log without its vote. -/
theorem open_fails_closed_iff_read :
    (∃ text, textBytes text = firstLog) ∧
      ∀ wal, ConsensusWal.openAt fromLine (.content firstLog) = .ok wal →
        ∃ text, textBytes text = firstLog ∧ ConsensusWal.Remembers fromLine text wal :=
  ⟨⟨_, rfl⟩,
    (ConsensusWal.open_fails_closed_iff fromLine firstLog (.content firstLog) (.inr rfl)).mpr
      ⟨_, rfl, .inl rfl⟩⟩

/-- The log with the first prevote. -/
def firstState : WalState :=
  { wal := ⟨(∅ : HashMap _ _).insert Devnet.firstPrevote.key Devnet.firstPrevote.blockHash⟩
    file := some (walLine Devnet.firstPrevote)
    accepted := [Devnet.firstPrevote]
    written := [Devnet.firstPrevote] }

lemma recordAll_first :
    WalState.start.recordAll [(Devnet.firstPrevote, .synced)] = firstState := by
  have happends : WalState.start.appends Devnet.firstPrevote = true :=
    WalState.appends_iff.mpr ⟨Devnet.verify_vote _ (by simp [Devnet.votes]), rfl⟩
  rw [WalState.recordAll, List.foldl_cons, List.foldl_nil, WalState.record_of_appends happends]
  rfl

lemma appends_firstPrecommit : firstState.appends Devnet.firstPrecommit = true := by
  refine WalState.appends_iff.mpr ⟨Devnet.verify_vote _ (by simp [Devnet.votes]), ?_⟩
  rw [firstState, HashMap.lookup_insert, if_neg (by decide)]
  rfl

/-- The first prevote is recorded, and the process ends after one byte of the next line: the file
does not open. -/
theorem torn_line_blocks_open :
    ¬ WalState.Recovers fromLine
      ((WalState.start.recordAll [(Devnet.firstPrevote, .synced)]).crash Devnet.firstPrecommit 1)
      (WalState.start.recordAll [(Devnet.firstPrevote, .synced)]).accepted := by
  rw [recordAll_first]
  have hfile : firstState.crash Devnet.firstPrecommit 1
      = some (walLine Devnet.firstPrevote ++ [0x7b]) := by
    have hbrace : (walLine Devnet.firstPrecommit).take 1 = [0x7b] := by
      rw [walLine, WalVote.json, textBytes_append, textBytes_join]
      rfl
    rw [WalState.crash_of_appends appends_firstPrecommit, hbrace]
    rfl
  have htext : textBytes (logText [Devnet.firstPrevote] ++ "\x7b")
      = walLine Devnet.firstPrevote ++ [0x7b] := by
    rw [textBytes_append, logText, logText, String.append_empty]
    rfl
  rintro ⟨wal, hopen, _⟩
  rw [hfile] at hopen
  obtain ⟨votes, hreads, _⟩ := (ConsensusWal.openAt_eq_ok fromLine htext).mp hopen
  rw [lines_logText] at hreads
  obtain ⟨v, hdecode, _⟩ := hreads.decodes "\x7b"
    (List.mem_append_right _ (by decide)) (by decide)
  have herror : fromLine "\x7b" = .error "EOF while parsing an object" := by decide
  rw [herror] at hdecode
  cases hdecode

/-- The first prevote is recorded, and the process ends before the line feed of the next line. -/
theorem survives_crash_whole_line :
    WalState.Recovers fromLine
      (firstState.crash Devnet.firstPrecommit
        (textBytes (WalVote.mk Devnet.firstPrecommit).json).length) [Devnet.firstPrevote] := by
  have hsteps : ∀ step ∈ [(Devnet.firstPrevote, AppendIo.synced)],
      step.2.whole = true ∧ fromLine (WalVote.mk step.1).json = .ok ⟨step.1⟩ := by
    intro step hstep
    rw [List.mem_singleton.mp hstep]
    exact ⟨rfl, fromLine_json _ (by simp)⟩
  have hsafe : WalState.start.SafeRun [(Devnet.firstPrevote, .synced)] :=
    ⟨fun _ _ w hw => absurd hw List.not_mem_nil, trivial⟩
  refine (survives_crash fromLine _ hsteps hsafe firstState recordAll_first.symm
    Devnet.firstPrecommit (fromLine_json _ (by simp)) _ fun _ => .inr ⟨le_rfl, ?_⟩).2
  intro _ w hw hkey
  rw [List.mem_singleton.mp hw] at hkey
  exact absurd hkey (by decide)

/-- The first prevote is recorded, and the validator restarts. -/
def firstTurns : List WalState.Turn := [.record Devnet.firstPrevote .synced, .restart]

lemma runTurns_first : WalState.start.WholeRun fromLine firstTurns ∧
    firstState = WalState.start.runTurns fromLine firstTurns := by
  have hstart : WalState.start.record .synced Devnet.firstPrevote = firstState := by
    rw [← recordAll_first, WalState.recordAll, List.foldl_cons, List.foldl_nil]
  have hjson := fromLine_json Devnet.firstPrevote (by simp)
  have hwhole : WalState.start.WholeRun fromLine firstTurns :=
    ⟨⟨rfl, fun _ _ w hw => absurd hw List.not_mem_nil, hjson⟩, trivial, trivial⟩
  have hreadable : firstState.Readable fromLine := by
    rw [← hstart]
    exact WalState.Readable.start.record rfl hjson fun _ _ w hw => absurd hw List.not_mem_nil
  refine ⟨hwhole, ?_⟩
  rw [WalState.runTurns, firstTurns, List.foldl_cons, List.foldl_cons, List.foldl_nil,
    WalState.turn, WalState.turn, hstart, WalState.call, hreadable.openAt, getOk_ok]
  rfl

/-- After a restart the process ends before the line feed of the first precommit. The validator
restarts, and the precommit of the next height is accepted, but its line cannot be read. -/
theorem cut_line_spoils_next_precommit :
    ∃ wal, ConsensusWal.openAt fromLine (.ofFile (firstState.crash Devnet.firstPrecommit
        (textBytes (WalVote.mk Devnet.firstPrecommit).json).length)) = .ok wal ∧
      ∃ wal' file, wal.recordBeforeBroadcast (firstState.crash Devnet.firstPrecommit
          (textBytes (WalVote.mk Devnet.firstPrecommit).json).length) .synced
            Devnet.secondPrecommit = (.ok (), wal', file) ∧
        ¬ ∃ wal'', ConsensusWal.openAt fromLine (.ofFile file) = .ok wal'' := by
  obtain ⟨hwhole, hrun⟩ := runTurns_first
  refine cut_line_spoils_next fromLine firstTurns hwhole firstState hrun Devnet.firstPrecommit
    Devnet.secondPrecommit (fromLine_json _ (by simp)) appends_firstPrecommit ?_ _ rfl
    (Devnet.verify_vote _ (by simp [Devnet.votes])) ?_ "EOF while parsing an object" ?_
  · intro _ w hw hkey
    rw [List.mem_singleton.mp hw] at hkey
    exact absurd hkey (by decide)
  · intro w hw hkey
    have hheight : w.height = 2 := (Prod.ext_iff.mp hkey).1
    rcases List.mem_pair.mp hw with rfl | rfl <;> exact absurd hheight (by decide)
  · simp [fromLine, WalVote.json_append_ne, WalVote.json_ne_empty]

end

end IeumChain
