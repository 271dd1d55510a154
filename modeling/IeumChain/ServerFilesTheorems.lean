import IeumChain.ServerFiles
import Mathlib.Tactic

/-!
# A server stays the node it is

The files of a server say which node it is: the validator key, the node key and the marker. A start
creates what is missing and changes nothing that exists, so where it ends well the marker names the
keys, and the marker is the same ever after. From the first start that ends well on, every start that
ends well is under the same two keys (`identity_never_changes`), whatever fails in the starts between
and whatever happens to all files but the marker. A start that ended well can be repeated
(`restart_succeeds`).
-/

namespace IeumChain

open Lib Lib.Disk

variable {P : Type} [DecidableEq P] {paths : ServerPaths P} {keys : KeyTypes}
  {names : PathNames P} {files after : HashMap P Bytes} {path : P} {env : StartEnv}

/-! ## What the files say -/

namespace KeyTypes

/-- The public key of a validator key file. -/
def publicKeyOf (keys : KeyTypes) (bytes : Bytes) : Option String := do
  let text ← decodeText bytes
  let seed ← (parseSeed text).toOption
  return keys.address seed

/-- The peer id of a node key file. -/
def peerIdOf (keys : KeyTypes) (bytes : Bytes) : Option String :=
  (keys.peerIdOfEncoding bytes).toOption

/-- What is relied on: a key pair is read back from its encoding, and a peer id is a line. -/
structure Lawful (keys : KeyTypes) (generated : GeneratedKeypair) : Prop where
  reads_back : ∀ bytes, generated.encoding = .ok bytes →
    keys.peerIdOfEncoding bytes = .ok generated.peerId
  line : ∀ bytes peerId, keys.peerIdOfEncoding bytes = .ok peerId →
    '\n' ∉ peerId.toList ∧ peerId.toList.getLast? ≠ some '\r'

/-! ## Keys -/

lemma toOption_eq_some {α : Type} {x : Result α} {a : α} : x.toOption = some a ↔ x = .ok a := by
  cases x <;> simp [Except.toOption]

lemma gives_readToString :
    Gives (readToString path) (fun text after => Holds after path decodeText text) files := by
  refine .bind .read fun stored middle hmore hstored => .lift fun text htext => ?_
  simp only [bind_eq_ok, okOr_eq_ok] at htext
  obtain ⟨bytes, rfl, hdecode⟩ := htext
  exact ⟨bytes, hmore _ _ hstored, hdecode⟩

lemma gives_publicKeyFromFile : Gives (keys.publicKeyFromFile names path)
    (fun key after => Holds after path keys.publicKeyOf key) files := by
  refine .bind (.mapError gives_readToString) ?_
  rintro text middle _ ⟨bytes, hbytes, htext⟩
  refine .bind (.check _) ?_
  rintro seed _ _ ⟨hseed, rfl⟩
  refine .pure ⟨bytes, hbytes, ?_⟩
  rw [publicKeyOf, htext, Option.bind_eq_bind, Option.bind_some, toOption_eq_some.mpr hseed]
  rfl

lemma gives_writeNewFile {contents : Bytes} : Gives (writeNewFile names path contents)
    (fun _ after => after.lookup path = some contents) files := by
  refine .bind (.mapError .createDir) fun _ middle _ _ => ?_
  exact Gives.createNew.mono fun _ _ _ h => h.2

lemma hexDigit_not_whitespace : ∀ n < 16, isWhitespace (hexDigit n) = false := by decide

/-- A line is trimmed to the text in it. -/
lemma trim_newline {s : String} (h : ∀ c ∈ s.toList, isWhitespace c = false) :
    trim (s ++ "\n") = s := by
  have hkeep : ∀ l : List Char, (∀ c ∈ l, isWhitespace c = false) → ∀ rest,
      l ≠ [] → (l ++ rest).dropWhile isWhitespace = l ++ rest := by
    intro l hl rest hne
    cases l with
    | nil => exact absurd rfl hne
    | cons c l =>
      rw [List.cons_append, List.dropWhile_cons_of_neg (by simp [hl c List.mem_cons_self])]
  by_cases hempty : s.toList = []
  · obtain rfl := String.toList_eq_nil_iff.mp hempty
    rfl
  · have hrev : ∀ c ∈ s.toList.reverse, isWhitespace c = false :=
      fun c hc => h c (List.mem_reverse.mp hc)
    have hinner : (s.toList.reverse).dropWhile isWhitespace = s.toList.reverse := by
      have hsame := hkeep _ hrev [] (by simpa using hempty)
      rwa [List.append_nil] at hsame
    rw [trim, String.toList_append, hkeep _ h _ hempty, List.reverse_append]
    show String.ofList ((['\n'] ++ s.toList.reverse).dropWhile isWhitespace).reverse = s
    rw [List.singleton_append, List.dropWhile_cons_of_pos (by decide), hinner,
      List.reverse_reverse, String.ofList_toList]

/-- A seed is read back from the file it is written to. -/
lemma parseSeed_hexEncode {seed : Bytes} (hlength : seed.length = 32) :
    parseSeed (hexEncode seed ++ "\n") = .ok seed := by
  have hplain : ∀ c ∈ (hexEncode seed).toList, isWhitespace c = false := by
    intro c hc
    obtain ⟨n, hn, rfl⟩ := mem_hexEncode hc
    exact hexDigit_not_whitespace n hn
  rw [parseSeed, trim_newline hplain, trimStart0x_hexEncode, hexDecode_hexEncode]
  simp [okOr, ensure, hlength, bind, Except.bind, pure, Except.pure]

lemma gives_generateKeyFile {seed : Bytes} (hseed : seed.length = 32) :
    Gives (keys.generateKeyFile names seed path)
      (fun key after => Holds after path keys.publicKeyOf key) files := by
  refine .bind gives_writeNewFile fun _ after _ hcontents => .pure ⟨_, hcontents, ?_⟩
  rw [publicKeyOf, decodeText_textBytes, Option.bind_eq_bind, Option.bind_some,
    toOption_eq_some.mpr (parseSeed_hexEncode hseed)]
  rfl

lemma gives_loadOrCreateNodeKey {generated : GeneratedKeypair} (hkeys : keys.Lawful generated) :
    Gives (keys.loadOrCreateNodeKey names generated path)
      (fun peerId after => Holds after path keys.peerIdOf peerId) files := by
  refine .bind .probe fun found _ _ _ => ?_
  split
  · refine .bind (.mapError .read) fun stored middle hmore hstored => ?_
    refine .bind (.check _) ?_
    rintro bytes _ _ ⟨hbytes, rfl⟩
    obtain rfl := okOr_eq_ok.mp hbytes
    exact .lift fun peerId hpeer =>
      ⟨bytes, hmore _ _ hstored, toOption_eq_some.mpr (mapError_eq_ok.mp hpeer)⟩
  · refine .bind (.mapError .createDir) fun _ _ _ _ => ?_
    refine .bind (.check _) fun bytes _ _ hencoding => ?_
    refine .bind .createNew fun _ _ _ hwritten => .pure ⟨bytes, hwritten.2, ?_⟩
    exact toOption_eq_some.mpr (hkeys.reads_back bytes (mapError_eq_ok.mp hencoding.1))

/-! ## Keys that are there -/

lemma reads_readToString {text : String} (h : Holds files path decodeText text) :
    Reads (readToString path) text files := by
  obtain ⟨bytes, hbytes, htext⟩ := h
  refine .bind (.read hbytes) (.lift ?_)
  simp only [bind_eq_ok, okOr_eq_ok]
  exact ⟨bytes, rfl, htext⟩

lemma reads_publicKeyFromFile {key : String} (h : Holds files path keys.publicKeyOf key) :
    Reads (keys.publicKeyFromFile names path) key files := by
  obtain ⟨bytes, hbytes, hkey⟩ := h
  simp only [publicKeyOf, Option.bind_eq_bind, Option.bind_eq_some_iff, Option.pure_def,
    Option.some.injEq] at hkey
  obtain ⟨text, htext, seed, hseed, rfl⟩ := hkey
  refine .bind (.mapError (reads_readToString ⟨bytes, hbytes, htext⟩)) ?_
  exact .bind (.lift (toOption_eq_some.mp hseed)) .pure

lemma reads_loadOrCreateNodeKey {generated : GeneratedKeypair} {peerId : String}
    (h : Holds files path keys.peerIdOf peerId) :
    Reads (keys.loadOrCreateNodeKey names generated path) peerId files := by
  obtain ⟨bytes, hbytes, hpeer⟩ := h
  refine .bind (.probe (Finmap.mem_of_lookup_eq_some hbytes)) ?_
  refine .bind (.mapError (.read hbytes)) (.bind (.lift (okOr_eq_ok.mpr rfl)) (.lift ?_))
  exact mapError_eq_ok.mpr (toOption_eq_some.mp hpeer)

end KeyTypes

namespace ServerPaths

/-! ## The marker -/

/-- The keys that a marker names. -/
def markerIdentity (bytes : Bytes) : Option (String × String) := do
  let text ← decodeText bytes
  let validator ← markerValue text "validator_public_key"
  let peerId ← markerValue text "peer_id"
  return (validator, peerId)

/-- Two pieces of a line make a line. -/
lemma isLine_append {name value : String}
    (hname : '\n' ∉ name.toList ∧ name.toList.getLast? ≠ some '\r')
    (hvalue : '\n' ∉ value.toList ∧ value.toList.getLast? ≠ some '\r') :
    '\n' ∉ (name ++ value).toList ∧ (name ++ value).toList.getLast? ≠ some '\r' := by
  rw [String.toList_append, List.getLast?_append]
  refine ⟨fun hmem => (List.mem_append.mp hmem).elim hname.1 hvalue.1, ?_⟩
  cases hlast : value.toList.getLast? with
  | none => exact hname.2
  | some c =>
    have hkept := hvalue.2
    rw [hlast] at hkept
    exact hkept

/-- A marker is three lines. -/
lemma lines_markerText {validator peerId : String}
    (hvalidator : '\n' ∉ validator.toList ∧ validator.toList.getLast? ≠ some '\r')
    (hpeer : '\n' ∉ peerId.toList ∧ peerId.toList.getLast? ≠ some '\r') :
    lines (markerText validator peerId)
      = ["version=1", "validator_public_key=" ++ validator, "peer_id=" ++ peerId] := by
  have hversion : ("version=1\n" : String) = "version=1" ++ "\n" := by decide
  have hname : ∀ name ∈ ["validator_public_key=", "peer_id="],
      '\n' ∉ name.toList ∧ name.toList.getLast? ≠ some '\r' := by decide
  obtain ⟨hline, hline'⟩ := isLine_append (hname "validator_public_key=" (by simp)) hvalidator
  obtain ⟨hpeerLine, hpeerLine'⟩ := isLine_append (hname "peer_id=" (by simp)) hpeer
  have hend : "peer_id=" ++ peerId ++ "\n" = "peer_id=" ++ peerId ++ "\n" ++ "" := by
    rw [String.append_empty]
  rw [markerText, hversion, lines_append (by decide) (by decide), lines_append hline hline', hend,
    lines_append hpeerLine hpeerLine']
  rfl

/-- A marker is read back. -/
lemma markerIdentity_markerText {validator peerId : String}
    (hvalidator : '\n' ∉ validator.toList ∧ validator.toList.getLast? ≠ some '\r')
    (hpeer : '\n' ∉ peerId.toList ∧ peerId.toList.getLast? ≠ some '\r') :
    markerIdentity (textBytes (markerText validator peerId)) = some (validator, peerId) := by
  have hversion : ∀ name ∈ ["validator_public_key", "peer_id"],
      stripPrefix "version=1" (name ++ "=") = none := by decide
  have hskip : stripPrefix ("validator_public_key=" ++ validator) ("peer_id" ++ "=") = none := by
    have hletter : ("peer_id" ++ "=").toList.isPrefixOf
        ("validator_public_key=" ++ validator).toList = false := by
      have hchars : ("validator_public_key=" ++ validator).toList
          = 'v' :: ("alidator_public_key=".toList ++ validator.toList) := by
        rw [String.toList_append]
        rfl
      rw [hchars]
      rfl
    rw [stripPrefix, startsWith, hletter]
    rfl
  have hfirst : markerValue (markerText validator peerId) "validator_public_key"
      = some validator := by
    have hname : "validator_public_key" ++ "=" = "validator_public_key=" := by decide
    rw [markerValue, lines_markerText hvalidator hpeer, List.findSome?_cons,
      hversion _ (by simp), hname]
    simp only [List.findSome?_cons, stripPrefix_append]
  have hsecond : markerValue (markerText validator peerId) "peer_id" = some peerId := by
    have hname : "peer_id" ++ "=" = "peer_id=" := by decide
    rw [markerValue, lines_markerText hvalidator hpeer, List.findSome?_cons,
      hversion _ (by simp)]
    simp only [List.findSome?_cons, hskip]
    rw [hname, stripPrefix_append]
  simp only [markerIdentity, decodeText_textBytes, hfirst, hsecond, Option.bind_eq_bind,
    Option.bind_some, Option.pure_def]

/-- The files say which node it is: the keys are read, and the marker names them. -/
structure Identified (paths : ServerPaths P) (keys : KeyTypes) (files : HashMap P Bytes)
    (id : String × String) : Prop where
  validator : Holds files paths.validatorKey keys.publicKeyOf id.1
  peer : Holds files paths.nodeKey keys.peerIdOf id.2
  marker : Holds files paths.marker markerIdentity id

lemma Identified.mono {id : String × String} (h : Identified paths keys files id)
    (hmore : Extended files after) : Identified paths keys after id :=
  ⟨h.validator.mono hmore, h.peer.mono hmore, h.marker.mono hmore⟩

/-! ## The parts of a start -/

lemma gives_requireExisting {name : String} :
    Gives (paths.requireExisting name path) (fun _ _ => True) files := by
  refine .bind .probe fun found _ _ _ => ?_
  split
  · exact .pure trivial
  · exact .throw _

lemma gives_restoreLedgerDir :
    Gives (paths.restoreLedgerDir env) (fun _ _ => True) files := by
  unfold restoreLedgerDir
  split
  · exact .pure trivial
  · exact .mapError .createDir

lemma gives_createIfMissing {contents description : String} :
    Gives (paths.createIfMissing path contents description) (fun _ _ => True) files := by
  refine .bind .probe fun found _ _ _ => ?_
  split
  · exact .pure trivial
  · refine .bind (.mapError .createDir) fun _ _ _ _ => ?_
    exact Gives.createNew.mono fun _ _ _ _ => trivial

/-- Where the marker is confirmed, it names the keys. -/
lemma gives_verifyMarkerIdentity (hkeys : keys.Lawful env.keypair) {validator : String} :
    Gives (paths.verifyMarkerIdentity keys env validator)
      (fun _ after => ∃ peerId, Holds after paths.marker markerIdentity (validator, peerId) ∧
        Holds after paths.nodeKey keys.peerIdOf peerId) files := by
  refine .bind (.mapError KeyTypes.gives_readToString) ?_
  rintro contents marked _ ⟨bytes, hbytes, hcontents⟩
  refine .bind (.check _) fun expectedValidator first hfirst hvalidator => ?_
  refine .bind (.check _) fun expectedPeer second hsecond hpeer => ?_
  have hmarker : Holds marked paths.marker markerIdentity (expectedValidator, expectedPeer) := by
    refine ⟨bytes, hbytes, ?_⟩
    simp only [markerIdentity, hcontents, okOr_eq_ok.mp hvalidator.1, okOr_eq_ok.mp hpeer.1,
      Option.bind_eq_bind, Option.bind_some, Option.pure_def]
  refine .bind (KeyTypes.gives_loadOrCreateNodeKey hkeys) fun actual loaded hloaded hactual => ?_
  refine .bind (.check _) ?_
  rintro _ _ _ ⟨hsame, rfl⟩
  obtain rfl := ensure_eq_ok.mp hsame
  refine .lift fun _ h => ?_
  obtain rfl := ensure_eq_ok.mp h
  exact ⟨expectedPeer, hmarker.mono ((hfirst.trans hsecond).trans hloaded), hactual⟩

lemma gives_firstValidatorKey (hseed : env.seed.length = 32) :
    Gives (paths.firstValidatorKey keys env)
      (fun key after => Holds after paths.validatorKey keys.publicKeyOf key) files := by
  refine .bind .probe fun found _ _ _ => ?_
  split
  · exact KeyTypes.gives_publicKeyFromFile
  · exact KeyTypes.gives_generateKeyFile hseed

lemma gives_requireKeysOfLedger : Gives paths.requireKeysOfLedger (fun _ _ => True) files := by
  refine .bind (R := fun _ _ => True) ?_ fun hasData _ _ _ => ?_
  · exact .operate (fun _ => .pure trivial) (.current (.pure trivial))
  · split
    · refine .bind (R := fun _ _ => True) ?_ fun found _ _ _ => ?_
      · refine .bind .probe fun found _ _ _ => ?_
        split
        · exact Gives.probe.mono fun _ _ _ _ => trivial
        · exact .pure trivial
      · split
        · exact .pure trivial
        · exact .throw _
    · exact .pure trivial

/-- A public key is a line. -/
lemma publicKeyOf_line {bytes : Bytes} {key : String} (h : keys.publicKeyOf bytes = some key) :
    '\n' ∉ key.toList ∧ key.toList.getLast? ≠ some '\r' := by
  simp only [KeyTypes.publicKeyOf, Option.bind_eq_bind, Option.bind_eq_some_iff, Option.pure_def,
    Option.some.injEq] at h
  obtain ⟨_, _, seed, _, rfl⟩ := h
  have hplain : ∀ c ∈ (keys.address seed).toList, isWhitespace c = false := by
    intro c hc
    obtain ⟨n, hn, rfl⟩ := mem_hexEncode hc
    exact KeyTypes.hexDigit_not_whitespace n hn
  refine ⟨fun hmem => absurd (hplain _ hmem) (by decide), fun hlast => ?_⟩
  exact absurd (hplain _ (List.mem_of_getLast? hlast)) (by decide)

/-! ## Starts -/

/-- A verification returns what the files say. -/
lemma gives_verifyServerNode (hkeys : keys.Lawful env.keypair) :
    Gives (paths.verifyServerNode keys env)
      (fun id after => Identified paths keys after id) files := by
  refine .bind gives_requireExisting fun _ _ _ _ => ?_
  refine .bind gives_requireExisting fun _ _ _ _ => ?_
  refine .bind gives_requireExisting fun _ _ _ _ => ?_
  refine .bind (.check _) fun _ _ _ _ => ?_
  refine .bind KeyTypes.gives_publicKeyFromFile fun validator _ _ hvalidator => ?_
  refine .bind (gives_verifyMarkerIdentity hkeys) ?_
  rintro _ verified hverified ⟨peerId, hmarker, hpeer⟩
  refine .bind (KeyTypes.gives_loadOrCreateNodeKey hkeys) fun loaded after hafter hloaded => ?_
  obtain rfl := (hpeer.mono hafter).unique hloaded
  exact .pure ⟨(hvalidator.mono hverified).mono hafter, hloaded, hmarker.mono hafter⟩

section
variable [Primitives]

lemma gives_createValidatorsConfig {json : List (String × UInt64) → Result String}
    {publicKeys : List String} {votingPower : UInt64} :
    Gives (createValidatorsConfig names json path publicKeys votingPower)
      (fun _ after => path ∈ after) files := by
  refine .bind (.check _) fun _ _ _ _ => ?_
  refine .bind (.check _) fun _ _ _ _ => ?_
  refine .bind (.check _) fun _ _ _ _ => ?_
  refine .bind (.check _) fun _ _ _ _ => ?_
  exact KeyTypes.gives_writeNewFile.mono fun _ _ _ => Finmap.mem_of_lookup_eq_some

lemma gives_prepareValidatorsConfig {allowInsecureTestKeys : Bool} :
    Gives (paths.prepareValidatorsConfig env allowInsecureTestKeys)
      (fun _ after => paths.validatorsConfig ∈ after) files := by
  refine .bind .probe fun found _ hmore hfound => ?_
  split
  next hyes => exact .pure (mem_of_extended hmore (hfound hyes))
  · split
    · exact gives_createValidatorsConfig
    · exact .bind (.check _) fun _ _ _ _ => gives_createValidatorsConfig

lemma gives_prepareKnown (hkeys : keys.Lawful env.keypair) {allowInsecureTestKeys : Bool} :
    Gives (paths.prepareKnown keys env allowInsecureTestKeys)
      (fun _ after => paths.validatorsConfig ∈ after ∧ ∃ id, Identified paths keys after id)
      files := by
  refine .bind gives_requireExisting fun _ _ _ _ => ?_
  refine .bind gives_requireExisting fun _ _ _ _ => ?_
  refine .bind gives_restoreLedgerDir fun _ _ _ _ => ?_
  refine .bind KeyTypes.gives_publicKeyFromFile fun validator _ _ hvalidator => ?_
  refine .bind (gives_verifyMarkerIdentity hkeys) ?_
  rintro _ verified hverified ⟨peerId, hmarker, hpeer⟩
  refine gives_prepareValidatorsConfig.mono fun _ after hafter hconfig => ?_
  exact ⟨hconfig, (validator, peerId), (hvalidator.mono hverified).mono hafter, hpeer.mono hafter,
    hmarker.mono hafter⟩

lemma gives_prepareFirst (hkeys : keys.Lawful env.keypair) (hseed : env.seed.length = 32)
    {allowInsecureTestKeys : Bool} :
    Gives (paths.prepareFirst keys env allowInsecureTestKeys)
      (fun _ after => paths.validatorsConfig ∈ after ∧ ∃ id, Identified paths keys after id)
      files := by
  refine .bind gives_requireKeysOfLedger fun _ _ _ _ => ?_
  refine .bind (.mapError .createDir) fun _ _ _ _ => ?_
  refine .bind (gives_firstValidatorKey hseed) fun validator _ _ hvalidator => ?_
  refine .bind .probe fun _ probed hprobed _ => ?_
  refine .bind (KeyTypes.gives_loadOrCreateNodeKey hkeys) fun peerId loaded hloaded hpeer => ?_
  refine .bind gives_createIfMissing fun _ events hevents _ => ?_
  refine .bind gives_createIfMissing fun _ upgrades hupgrades _ => ?_
  refine .bind .createNew fun _ marked hmarked hmarker => ?_
  refine gives_prepareValidatorsConfig.mono fun _ after hafter hconfig => ?_
  have hsince : Extended loaded after :=
    ((hevents.trans hupgrades).trans hmarked).trans hafter
  have ⟨_, _, hkey⟩ := hvalidator
  have ⟨_, _, hpeerBytes⟩ := hpeer
  refine ⟨hconfig, (validator, peerId), hvalidator.mono ((hprobed.trans hloaded).trans hsince),
    hpeer.mono hsince, ⟨_, hafter _ _ hmarker.2, ?_⟩⟩
  exact markerIdentity_markerText (publicKeyOf_line hkey)
    (hkeys.line _ _ (KeyTypes.toOption_eq_some.mp hpeerBytes))

/-- A start that ends well leaves files that say which node it is. -/
lemma gives_prepareServerFiles (hkeys : keys.Lawful env.keypair) (hseed : env.seed.length = 32)
    {allowInsecureTestKeys : Bool} :
    Gives (paths.prepareServerFiles keys env allowInsecureTestKeys)
      (fun _ after => paths.validatorsConfig ∈ after ∧ ∃ id, Identified paths keys after id)
      files := by
  refine .bind .probe fun found _ _ _ => ?_
  split
  · exact gives_prepareKnown hkeys
  · exact gives_prepareFirst hkeys hseed

/-! ## Runs -/

/-- What happens to the files of a server: a start, with what it draws and the operations that fail
in it, a verification, or a change of a file from outside. -/
inductive ServerStep (P : Type) where
  | prepare (env : StartEnv) (allowInsecureTestKeys : Bool) (faults : ℕ → Option Fault)
  | verify (env : StartEnv) (faults : ℕ → Option Fault)
  | change (path : P) (contents : Option Bytes)

/-- A file is written or removed. -/
def changed (files : HashMap P Bytes) (path : P) : Option Bytes → HashMap P Bytes
  | some bytes => files.insert path bytes
  | none => files.erase path

/-- The keys that the files hold. -/
def identityOf (paths : ServerPaths P) (keys : KeyTypes) (files : HashMap P Bytes) :
    Option (String × String) := do
  let validator ← (files.lookup paths.validatorKey).bind keys.publicKeyOf
  let peerId ← (files.lookup paths.nodeKey).bind keys.peerIdOf
  return (validator, peerId)

/-- The keys under which starts ended well, in a run. -/
def identities (paths : ServerPaths P) (keys : KeyTypes) :
    List (ServerStep P) → HashMap P Bytes → List (Option (String × String))
  | [], _ => []
  | .prepare env allowInsecureTestKeys faults :: rest, files =>
    let done := runOn (paths.prepareServerFiles keys env allowInsecureTestKeys) faults files
    (if isOk done.1 then [identityOf paths keys done.2] else []) ++ identities paths keys rest done.2
  | .verify env faults :: rest, files =>
    let done := runOn (paths.verifyServerNode keys env) faults files
    (if isOk done.1 then [identityOf paths keys done.2] else []) ++ identities paths keys rest done.2
  | .change path contents :: rest, files => identities paths keys rest (changed files path contents)

/-- The generated keys are as they come from their libraries, and the marker is not touched from
outside. -/
def ServerStep.Proper (paths : ServerPaths P) (keys : KeyTypes) : ServerStep P → Prop
  | .prepare env _ _ => keys.Lawful env.keypair ∧ env.seed.length = 32
  | .verify env _ => keys.Lawful env.keypair
  | .change path _ => path ≠ paths.marker

omit [Primitives] in
lemma Identified.identityOf {id : String × String} (h : Identified paths keys files id) :
    identityOf paths keys files = some id := by
  obtain ⟨⟨keyBytes, hkeyBytes, hkey⟩, ⟨peerBytes, hpeerBytes, hpeer⟩, _⟩ := h
  simp only [ServerPaths.identityOf, hkeyBytes, hpeerBytes, Option.bind_some, hkey, hpeer,
    Option.bind_eq_bind, Option.pure_def]

omit [Primitives] in
lemma lookup_changed {path p : P} {contents : Option Bytes} (h : path ≠ p) :
    (changed files path contents).lookup p = files.lookup p := by
  cases contents with
  | none => exact Finmap.lookup_erase_ne h.symm
  | some bytes => exact lookup_insert_of_ne h.symm bytes

/-- A start keeps every file, and where it ends well the files say which node it is. -/
lemma runOn_prepareServerFiles {allowInsecureTestKeys : Bool} {faults : ℕ → Option Fault}
    (hproper : (ServerStep.prepare env allowInsecureTestKeys faults).Proper paths keys)
    (files : HashMap P Bytes) :
    let done := runOn (paths.prepareServerFiles keys env allowInsecureTestKeys) faults files
    Extended files done.2 ∧ (isOk done.1 = true → ∃ id, Identified paths keys done.2 id) := by
  have hgives : Gives (paths.prepareServerFiles keys env allowInsecureTestKeys)
      (fun _ after => paths.validatorsConfig ∈ after ∧ ∃ id, Identified paths keys after id)
      files := gives_prepareServerFiles hproper.1 hproper.2
  obtain ⟨hmore, hok⟩ := hgives.runOn faults
  refine ⟨hmore, fun hyes => ?_⟩
  obtain ⟨u, hu⟩ := isOk_iff.mp hyes
  exact (hok u hu).2

omit [Primitives] in
lemma runOn_verifyServerNode {faults : ℕ → Option Fault}
    (hproper : (ServerStep.verify env faults).Proper paths keys) (files : HashMap P Bytes) :
    let done := runOn (paths.verifyServerNode keys env) faults files
    Extended files done.2 ∧ (isOk done.1 = true → ∃ id, Identified paths keys done.2 id) := by
  have hgives : Gives (paths.verifyServerNode keys env)
      (fun id after => Identified paths keys after id) files := gives_verifyServerNode hproper
  obtain ⟨hmore, hok⟩ := hgives.runOn faults
  refine ⟨hmore, fun hyes => ?_⟩
  obtain ⟨id, hid⟩ := isOk_iff.mp hyes
  exact ⟨id, hok id hid⟩

/-- Once there is a marker, every start that ends well is under the keys it names. -/
lemma identities_of_marker {bytes : Bytes} (steps : List (ServerStep P)) :
    ∀ files : HashMap P Bytes, (∀ step ∈ steps, step.Proper paths keys) →
    files.lookup paths.marker = some bytes →
    ∀ found ∈ identities paths keys steps files, ∃ id, markerIdentity bytes = some id ∧
      found = some id := by
  induction steps with
  | nil => exact fun _ _ _ found hfound => absurd hfound List.not_mem_nil
  | cons step rest ih =>
    intro files hproper hmarker
    obtain ⟨hstep, hrest⟩ := List.forall_mem_cons.mp hproper
    -- a start keeps the marker, and where it ends well the marker names the keys
    have hstart : ∀ {ok : Bool} {after : HashMap P Bytes}, Extended files after →
        (ok = true → ∃ id, Identified paths keys after id) →
        ∀ found ∈ (if ok then [identityOf paths keys after] else [])
          ++ identities paths keys rest after,
          ∃ id, markerIdentity bytes = some id ∧ found = some id := by
      intro ok after hmore hidentified found hfound
      have hkept := hmore _ _ hmarker
      rcases List.mem_append.mp hfound with hfound | hfound
      · split at hfound
        next hok =>
          obtain ⟨id, hid⟩ := hidentified hok
          obtain ⟨bytes', hbytes', hnames⟩ := hid.marker
          rw [hkept] at hbytes'
          obtain rfl := Option.some.inj hbytes'
          exact ⟨id, hnames, (List.mem_singleton.mp hfound).trans hid.identityOf⟩
        next => exact absurd hfound List.not_mem_nil
      · exact ih after hrest hkept found hfound
    cases step with
    | prepare env allowInsecureTestKeys faults =>
      obtain ⟨hmore, hidentified⟩ := runOn_prepareServerFiles hstep files
      exact hstart hmore hidentified
    | verify env faults =>
      obtain ⟨hmore, hidentified⟩ := runOn_verifyServerNode hstep files
      exact hstart hmore hidentified
    | change path contents =>
      exact ih _ hrest (by rw [lookup_changed hstep, hmarker])

/-- **A server never becomes another node.** In every run of starts, in which any operations fail
and all files but the marker may be changed in between, the starts that end well are all under the
same two keys. -/
theorem identity_never_changes (paths : ServerPaths P) (keys : KeyTypes)
    (steps : List (ServerStep P)) (files : HashMap P Bytes)
    (hproper : ∀ step ∈ steps, step.Proper paths keys) :
    ∃ id, ∀ found ∈ identities paths keys steps files, found = some id := by
  have hmarked : ∀ {steps : List (ServerStep P)} {files : HashMap P Bytes} {bytes : Bytes},
      (∀ step ∈ steps, step.Proper paths keys) → files.lookup paths.marker = some bytes →
      ∀ found ∈ identities paths keys steps files,
        found = some ((markerIdentity bytes).getD ("", "")) := by
    intro steps files bytes hproper hmarker found hfound
    obtain ⟨id, hid, rfl⟩ := identities_of_marker steps files hproper hmarker found hfound
    rw [hid]
    rfl
  induction steps generalizing files with
  | nil => exact ⟨("", ""), fun found hfound => absurd hfound List.not_mem_nil⟩
  | cons step rest ih =>
    obtain ⟨hstep, hrest⟩ := List.forall_mem_cons.mp hproper
    -- a start that ends well leaves a marker; before it the run has not begun
    have hstart : ∀ {ok : Bool} {after : HashMap P Bytes},
        (ok = true → ∃ id, Identified paths keys after id) →
        ∃ id, ∀ found ∈ (if ok then [identityOf paths keys after] else [])
          ++ identities paths keys rest after, found = some id := by
      intro ok after hidentified
      cases ok with
      | false => exact ih after hrest
      | true =>
        obtain ⟨id, hid⟩ := hidentified rfl
        obtain ⟨bytes, hbytes, hnames⟩ := hid.marker
        refine ⟨id, fun found hfound => ?_⟩
        rcases List.mem_append.mp hfound with hfound | hfound
        · exact (List.mem_singleton.mp hfound).trans hid.identityOf
        · rw [hmarked hrest hbytes found hfound, hnames]
          rfl
    cases step with
    | prepare env allowInsecureTestKeys faults =>
      exact hstart (runOn_prepareServerFiles hstep files).2
    | verify env faults => exact hstart (runOn_verifyServerNode hstep files).2
    | change path contents => exact ih _ hrest

/-! ## Starting again -/

omit [Primitives] in
lemma reads_requireExisting {name : String} (h : path ∈ files) :
    Reads (paths.requireExisting name path) () files :=
  .bind (.probe h) .pure

omit [Primitives] in
lemma reads_verifyMarkerIdentity {id : String × String} (h : Identified paths keys files id) :
    Reads (paths.verifyMarkerIdentity keys env id.1) () files := by
  obtain ⟨bytes, hbytes, hnames⟩ := h.marker
  simp only [markerIdentity, Option.bind_eq_bind, Option.bind_eq_some_iff, Option.pure_def,
    Option.some.injEq] at hnames
  obtain ⟨text, htext, validator, hvalidator, peerId, hpeer, rfl⟩ := hnames
  refine .bind (.mapError (KeyTypes.reads_readToString ⟨bytes, hbytes, htext⟩)) ?_
  refine .bind (.lift (okOr_eq_ok.mpr hvalidator)) ?_
  refine .bind (.lift (okOr_eq_ok.mpr hpeer)) ?_
  refine .bind (KeyTypes.reads_loadOrCreateNodeKey h.peer) ?_
  exact .bind (.ensure rfl) (.ensure rfl)

/-- Files that say which node it is are read and left as they are. -/
lemma reads_prepareServerFiles {id : String × String} {allowInsecureTestKeys : Bool}
    (h : Identified paths keys files id) (hconfig : paths.validatorsConfig ∈ files) :
    Reads (paths.prepareServerFiles keys env allowInsecureTestKeys) () files := by
  refine .bind (.probe h.marker.mem) ?_
  refine .bind (reads_requireExisting h.validator.mem) ?_
  refine .bind (reads_requireExisting h.peer.mem) ?_
  refine .bind (b := ()) ?_ ?_
  · unfold restoreLedgerDir
    split
    · exact .pure
    · exact .mapError .createDir
  refine .bind (KeyTypes.reads_publicKeyFromFile h.validator) ?_
  exact .bind (reads_verifyMarkerIdentity h) (.bind (.probe hconfig) .pure)

omit [Primitives] in
lemma reads_verifyServerNode {id : String × String} (h : Identified paths keys files id)
    (hledger : env.ledgerDirExists = true) :
    Reads (paths.verifyServerNode keys env) id files := by
  refine .bind (reads_requireExisting h.marker.mem) ?_
  refine .bind (reads_requireExisting h.validator.mem) ?_
  refine .bind (reads_requireExisting h.peer.mem) ?_
  refine .bind (.ensure hledger) ?_
  refine .bind (KeyTypes.reads_publicKeyFromFile h.validator) ?_
  refine .bind (reads_verifyMarkerIdentity h) ?_
  exact .bind (KeyTypes.reads_loadOrCreateNodeKey h.peer) .pure

/-- **A start that ended well can be repeated.** Whatever failed in it, starts after it in which
nothing fails end well, and verifications that find the ledger directory too. They change no
file. -/
theorem restart_succeeds (paths : ServerPaths P) (keys : KeyTypes) (files : HashMap P Bytes)
    (env : StartEnv) (allowInsecureTestKeys : Bool) (faults : ℕ → Option Fault)
    (hkeys : keys.Lawful env.keypair) (hseed : env.seed.length = 32)
    (hok : (runOn (paths.prepareServerFiles keys env allowInsecureTestKeys) faults files).1
      = .ok ()) :
    let after := (runOn (paths.prepareServerFiles keys env allowInsecureTestKeys) faults files).2
    ∃ id, identityOf paths keys after = some id ∧ ∀ later : StartEnv,
      (∀ allow, runOn (paths.prepareServerFiles keys later allow) (fun _ => none) after
        = (.ok (), after)) ∧
      (later.ledgerDirExists = true →
        runOn (paths.verifyServerNode keys later) (fun _ => none) after = (.ok id, after)) := by
  have hgives : Gives (paths.prepareServerFiles keys env allowInsecureTestKeys)
      (fun _ after => paths.validatorsConfig ∈ after ∧ ∃ id, Identified paths keys after id)
      files := gives_prepareServerFiles hkeys hseed
  obtain ⟨hconfig, id, hid⟩ := (hgives.runOn faults).2 () hok
  refine ⟨id, hid.identityOf, fun later => ⟨fun allow => ?_, fun hledger => ?_⟩⟩
  · exact (reads_prepareServerFiles hid hconfig).runOn
  · exact (reads_verifyServerNode hid hledger).runOn

end

section Example

lemma length_zeros : (List.replicate 32 (0 : UInt8)).length = 32 := rfl

/-- Every Ed25519 key is accepted; nothing else is asked for. -/
@[reducible] def primitives : Primitives where
  sha256 _ := ⟨List.replicate 32 0, length_zeros⟩
  keccak256 _ := ⟨List.replicate 32 0, length_zeros⟩
  ed25519Key _ := true
  ed25519Verify _ _ _ := false
  secp256k1Key _ := none
  ecdsaSignature _ := false
  ecdsaVerify _ _ _ := false
  ecdsaRecover _ _ _ := none
  peerKey _ := none
  peerIdOf _ := ""
  peerVerify _ _ _ := false

attribute [local instance] primitives

/-- Peer ids in hexadecimal, and the key of a seed is the seed. -/
def hexKeys : KeyTypes where
  verifyingKey := id
  peerIdOfEncoding bytes := .ok (hexEncode bytes)

/-- Numbered files. -/
def numberedPaths : ServerPaths ℕ where
  names := { display := toString, parent := fun _ => 0 }
  validatorKey := 1
  nodeKey := 2
  validatorsConfig := 3
  eventsConfig := 4
  upgradesConfig := 5
  ledgerDir := 0
  marker := 6
  inLedger := fun p => decide (10 ≤ p)

/-- A start that draws the given bytes. -/
def drawing (seed : Bytes) : StartEnv where
  seed := seed
  keypair := { peerId := hexEncode seed, encoding := .ok seed }
  ledgerDirExists := true
  validatorsJson := fun _ => .ok "[]"
  genesisValidators := .error "원본 제네시스가 없습니다."
  testnetValidators := [hexEncode (List.replicate 32 1)]

lemma lawful_hexKeys (seed : Bytes) : hexKeys.Lawful (drawing seed).keypair where
  reads_back := by
    rintro _ ⟨⟩
    rfl
  line := by
    rintro bytes _ ⟨⟩
    have hplain : ∀ c ∈ (hexEncode bytes).toList, isWhitespace c = false := by
      intro c hc
      obtain ⟨n, hn, rfl⟩ := mem_hexEncode hc
      exact KeyTypes.hexDigit_not_whitespace n hn
    exact ⟨fun hmem => absurd (hplain _ hmem) (by decide),
      fun hlast => absurd (hplain _ (List.mem_of_getLast? hlast)) (by decide)⟩

/-- The keys are removed after the first start; the next one draws others. -/
theorem identity_never_changes_removed :
    ∃ id, ∀ found ∈ identities numberedPaths hexKeys
      [.prepare (drawing (List.replicate 32 7)) true (fun _ => none), .change 1 none,
        .change 2 none, .prepare (drawing (List.replicate 32 8)) true (fun _ => none)] ∅,
      found = some id :=
  identity_never_changes numberedPaths hexKeys _ ∅ (by
    simp only [List.forall_mem_cons, ServerStep.Proper]
    exact ⟨⟨lawful_hexKeys _, rfl⟩, by decide, by decide, ⟨lawful_hexKeys _, rfl⟩, by simp⟩)

/-- A first start in an empty directory, where the ledger directory cannot be listed. -/
def firstStart : Result Unit × HashMap ℕ Bytes :=
  runOn (numberedPaths.prepareServerFiles hexKeys (drawing (List.replicate 32 7)) true)
    (fun n => if n = 1 then some ⟨"Permission denied (os error 13)", none⟩ else none) ∅

set_option maxRecDepth 20000 in
lemma firstStart_ok : firstStart.1 = .ok () := rfl

/-- A first start, and a second one and a verification that would draw other keys. -/
theorem restart_succeeds_first :
    firstStart.1 = .ok () ∧ ∃ id, identityOf numberedPaths hexKeys firstStart.2 = some id ∧
      runOn (numberedPaths.prepareServerFiles hexKeys (drawing (List.replicate 32 8)) false)
        (fun _ => none) firstStart.2 = (.ok (), firstStart.2) ∧
      runOn (numberedPaths.verifyServerNode hexKeys (drawing (List.replicate 32 8)))
        (fun _ => none) firstStart.2 = (.ok id, firstStart.2) := by
  obtain ⟨id, hid, hlater⟩ := restart_succeeds numberedPaths hexKeys ∅ _ true _
    (lawful_hexKeys _) rfl firstStart_ok
  obtain ⟨hstart, hverify⟩ := hlater (drawing (List.replicate 32 8))
  exact ⟨firstStart_ok, id, hid, hstart false, hverify rfl⟩

end Example

end ServerPaths

end IeumChain
