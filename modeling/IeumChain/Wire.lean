import IeumChain.Consensus
import IeumChain.Registration
import IeumChain.RlpTheorems
import IeumChain.TipQuorum

/-!
# Frames of the peer-to-peer messages (`network.rs`)

A message is sent as JSON. Long JSON is compressed and goes behind a header of a magic value and the
length of the JSON, if that makes the message shorter. The receiver tells the two forms apart by the
magic value alone and checks the length against its limit before it decompresses anything
(`wire_round_trip`).
-/

namespace IeumChain

open Lib

/-- The messages that are spread to all peers. -/
inductive WireMessage where
  | block (block : Block)
  | transaction (transaction : Transaction)
  | proposal (proposal : SignedProposal)
  | consensus (message : ConsensusMessage)
  | evidence (evidence : DoubleVoteEvidence)
  | validatorRegistration (registration : ValidatorRegistration)
  | nodeRewardRegistration (registration : NodeRewardRegistration)
  | updateAvailable (version : String)
  | syncRequest (requester : String) (fromHeight : UInt64)
  | syncResponse (requester : String) (tip : SyncTip) (certificates : List FinalityCertificate)
deriving DecidableEq

/-- `COMPRESSED_WIRE_MAGIC`. -/
def compressedWireMagic : Bytes := textBytes "IEUMZ" ++ [1]

/-- `COMPRESSION_THRESHOLD_BYTES`. -/
def compressionThresholdBytes : ℕ := 1024

/-- `WIRE_HEADER_BYTES`. -/
def wireHeaderBytes : ℕ := compressedWireMagic.length + 4

/-- What the frames use of `serde_json` and `zstd`. `compress` is `zstd::bulk::compress` at level 3,
and `decompress` takes the most bytes it may yield. -/
structure WireCodec where
  toVec : WireMessage → Result Bytes
  fromSlice : Bytes → Result WireMessage
  compress : Bytes → Result Bytes
  decompress : Bytes → ℕ → Result Bytes

/-- What the frames rely on: JSON reads back and never begins with the magic value, and what fits
32 bits is compressed into bytes that decompress to it wherever there is room for it. -/
structure WireCodec.Lawful (codec : WireCodec) : Prop where
  reads_back : ∀ m json, codec.toVec m = .ok json → codec.fromSlice json = .ok m
  no_magic : ∀ m json, codec.toVec m = .ok json → ¬ compressedWireMagic <+: json
  compresses : ∀ json, json.length < 2 ^ 32 → ∃ compressed, codec.compress json = .ok compressed
  inverts : ∀ json compressed capacity, codec.compress json = .ok compressed →
    json.length ≤ capacity → codec.decompress compressed capacity = .ok json

namespace WireCodec

/-- `encode_wire_message`. -/
def encodeWireMessage (codec : WireCodec) (message : WireMessage) : Result Bytes := do
  let json ← codec.toVec message
  if json.length < compressionThresholdBytes ∨ 2 ^ 32 - 1 < json.length then return json
  let compressed ← codec.compress json
  if json.length ≤ wireHeaderBytes + compressed.length then return json
  return compressedWireMagic ++ beBytes 4 json.length ++ compressed

/-- The length that the header of a frame declares. -/
def declaredLength (bytes : Bytes) : ℕ :=
  Rlp.beNat ((bytes.drop compressedWireMagic.length).take 4)

/-- The JSON in a frame: the first part of `decode_wire_message`. -/
def unframe (codec : WireCodec) (bytes : Bytes) (maxMessageBytes : ℕ) : Result Bytes :=
  if compressedWireMagic <+: bytes then do
    ensure (wireHeaderBytes ≤ bytes.length) "압축 P2P 메시지 헤더가 잘렸습니다."
    let declared := declaredLength bytes
    ensure (declared ≤ maxMessageBytes)
      s!"압축 해제 크기가 제한을 넘습니다: declared={declared}, max={maxMessageBytes}"
    let decoded ← (codec.decompress (bytes.drop wireHeaderBytes) declared).mapError fun error =>
      s!"zstd 압축 해제 실패: {error}"
    let actual := decoded.length
    ensure (actual = declared)
      s!"압축 해제 크기가 헤더와 다릅니다: declared={declared}, actual={actual}"
    return decoded
  else .ok bytes

/-- `decode_wire_message`. -/
def decodeWireMessage (codec : WireCodec) (bytes : Bytes) (maxMessageBytes : ℕ) :
    Result WireMessage := do
  let json ← codec.unframe bytes maxMessageBytes
  (codec.fromSlice json).mapError fun error => s!"json={error}"

/-! ## Frames -/

variable {codec : WireCodec}

/-- A compressed frame is taken when its header is whole and declares the length that comes out,
within the limit. -/
lemma unframe_eq_ok {bytes json : Bytes} {maxMessageBytes : ℕ}
    (hmagic : compressedWireMagic <+: bytes) :
    codec.unframe bytes maxMessageBytes = .ok json ↔
      wireHeaderBytes ≤ bytes.length ∧ declaredLength bytes ≤ maxMessageBytes ∧
        codec.decompress (bytes.drop wireHeaderBytes) (declaredLength bytes) = .ok json ∧
        json.length = declaredLength bytes := by
  rw [unframe, if_pos hmagic]
  simp only [bind_eq_ok, ensure_eq_ok, mapError_eq_ok, pure_eq_ok]
  constructor
  · rintro ⟨_, hheader, _, hlimit, decoded, hdecoded, _, hlength, rfl⟩
    exact ⟨hheader, hlimit, hdecoded, hlength⟩
  · rintro ⟨hheader, hlimit, hdecoded, hlength⟩
    exact ⟨(), hheader, (), hlimit, json, hdecoded, (), hlength, rfl⟩

/-- The header declares the length that was written into it, and the rest follows it. -/
lemma unframe_frame {json compressed : Bytes} {maxMessageBytes : ℕ} (hcodec : codec.Lawful)
    (hcompressed : codec.compress json = .ok compressed) (hfits : json.length < 2 ^ 32)
    (hlimit : json.length ≤ maxMessageBytes) :
    codec.unframe (compressedWireMagic ++ beBytes 4 json.length ++ compressed) maxMessageBytes
      = .ok json := by
  have hmagic : compressedWireMagic <+: compressedWireMagic ++ beBytes 4 json.length ++ compressed :=
    ⟨beBytes 4 json.length ++ compressed, by rw [List.append_assoc]⟩
  have hheader : (compressedWireMagic ++ beBytes 4 json.length).length = wireHeaderBytes := by
    rw [List.length_append, length_beBytes, wireHeaderBytes]
  have hdeclared : declaredLength (compressedWireMagic ++ beBytes 4 json.length ++ compressed)
      = json.length := by
    rw [declaredLength, List.append_assoc, List.drop_left, List.take_left' (length_beBytes _ _),
      Rlp.beNat_beBytes, Nat.mod_eq_of_lt (show json.length < 256 ^ 4 from hfits)]
  rw [unframe_eq_ok hmagic, hdeclared, List.drop_left' hheader, List.length_append, hheader]
  exact ⟨Nat.le_add_right _ _, hlimit, hcodec.inverts _ _ _ hcompressed le_rfl, rfl⟩

/-- JSON that is sent as it is has no header. -/
lemma unframe_plain {json : Bytes} {maxMessageBytes : ℕ} (h : ¬ compressedWireMagic <+: json) :
    codec.unframe json maxMessageBytes = .ok json := if_neg h

/-- Long JSON that a frame makes shorter is sent in one. -/
lemma encode_frame {m : WireMessage} {json compressed : Bytes} (hjson : codec.toVec m = .ok json)
    (hcompressed : codec.compress json = .ok compressed)
    (hsize : ¬ (json.length < compressionThresholdBytes ∨ 2 ^ 32 - 1 < json.length))
    (hshorter : ¬ json.length ≤ wireHeaderBytes + compressed.length) :
    codec.encodeWireMessage m
      = .ok (compressedWireMagic ++ beBytes 4 json.length ++ compressed) := by
  simp only [encodeWireMessage, hjson, bind, Except.bind]
  rw [if_neg hsize, hcompressed]
  exact if_neg hshorter

/-- Whichever form the encoder chose, the receiver finds the JSON in it. -/
lemma unframe_encode {m : WireMessage} {json : Bytes} {maxMessageBytes : ℕ}
    (hcodec : codec.Lawful) (hjson : codec.toVec m = .ok json)
    (hlimit : json.length ≤ maxMessageBytes) :
    ∃ bytes, codec.encodeWireMessage m = .ok bytes ∧
      codec.unframe bytes maxMessageBytes = .ok json := by
  have hplain : codec.unframe json maxMessageBytes = .ok json :=
    unframe_plain (hcodec.no_magic m json hjson)
  by_cases hsize : json.length < compressionThresholdBytes ∨ 2 ^ 32 - 1 < json.length
  · refine ⟨json, ?_, hplain⟩
    simp only [encodeWireMessage, hjson, bind, Except.bind]
    exact if_pos hsize
  · have hfits : json.length < 2 ^ 32 := by omega
    obtain ⟨compressed, hcompressed⟩ := hcodec.compresses json hfits
    by_cases hlonger : json.length ≤ wireHeaderBytes + compressed.length
    · refine ⟨json, ?_, hplain⟩
      simp only [encodeWireMessage, hjson, bind, Except.bind]
      rw [if_neg hsize, hcompressed]
      exact if_pos hlonger
    · exact ⟨_, encode_frame hjson hcompressed hsize hlonger,
        unframe_frame hcodec hcompressed hfits hlimit⟩

/-- **Frames read back.** A message whose JSON is within the limit of the receiver is received as it
was sent, in whichever form; and a compressed frame that is received decompresses to as many bytes
as its header declares, which the limit allows. -/
theorem wire_round_trip (codec : WireCodec) (hcodec : codec.Lawful) :
    (∀ m json maxMessageBytes, codec.toVec m = .ok json → json.length ≤ maxMessageBytes →
      ∃ bytes, codec.encodeWireMessage m = .ok bytes ∧
        codec.decodeWireMessage bytes maxMessageBytes = .ok m) ∧
      ∀ bytes maxMessageBytes m, compressedWireMagic <+: bytes →
        codec.decodeWireMessage bytes maxMessageBytes = .ok m →
        ∃ decoded, codec.decompress (bytes.drop wireHeaderBytes) (declaredLength bytes)
            = .ok decoded ∧ codec.fromSlice decoded = .ok m ∧
          decoded.length = declaredLength bytes ∧ decoded.length ≤ maxMessageBytes := by
  constructor
  · intro m json maxMessageBytes hjson hlimit
    obtain ⟨bytes, hencode, hunframe⟩ := unframe_encode hcodec hjson hlimit
    refine ⟨bytes, hencode, ?_⟩
    rw [decodeWireMessage, bind_eq_ok]
    exact ⟨json, hunframe, mapError_eq_ok.mpr (hcodec.reads_back m json hjson)⟩
  · intro bytes maxMessageBytes m hmagic hdecode
    rw [decodeWireMessage, bind_eq_ok] at hdecode
    obtain ⟨decoded, hunframe, hparse⟩ := hdecode
    obtain ⟨_, hlimit, hdecompress, hlength⟩ := (unframe_eq_ok hmagic).mp hunframe
    exact ⟨decoded, hdecompress, mapError_eq_ok.mp hparse, hlength, hlength ▸ hlimit⟩

end WireCodec

/-! ## Update notices -/

namespace Notice

/-- A version of some letters, which JSON needs not escape. -/
def letters (count : ℕ) : String := String.ofList (List.replicate count 'a')

/-- The JSON of an update notice. -/
def json (count : ℕ) : Bytes :=
  textBytes "\x7b\"UpdateAvailable\":\x7b\"version\":\"" ++ textBytes (letters count) ++
    textBytes "\"\x7d\x7d"

lemma length_json (count : ℕ) : (json count).length = count + 34 := by
  have hhead : (textBytes "\x7b\"UpdateAvailable\":\x7b\"version\":\"").length = 31 := by
    decide +kernel
  have htail : (textBytes "\"\x7d\x7d").length = 3 := by decide +kernel
  have hletters : (textBytes (letters count)).length = count := by
    rw [letters, textBytes_ofList, List.length_flatMap, List.map_replicate, List.sum_replicate]
    exact Nat.mul_one count
  rw [json, List.length_append, List.length_append, hhead, hletters, htail]
  omega

/-- What `zstd` makes of the JSON with 2048 letters. -/
def compressed : Bytes :=
  [40, 181, 47, 253, 96, 34, 7, 93, 1, 0, 52, 2, 123, 34, 85, 112, 100, 97, 116, 101, 65, 118, 97,
    105, 108, 97, 98, 108, 101, 34, 58, 123, 34, 118, 101, 114, 115, 105, 111, 110, 34, 58, 34, 97,
    34, 125, 125, 1, 0, 224, 255, 7, 79]

/-- The codec on update notices. Of the other bytes it compresses none. -/
def codec : WireCodec where
  toVec
    | .updateAvailable version =>
      if version = letters version.toList.length then .ok (json version.toList.length)
      else .error "not a notice"
    | _ => .error "not a notice"
  fromSlice bytes :=
    if bytes = json (bytes.length - 34) then .ok (.updateAvailable (letters (bytes.length - 34)))
    else .error "expected value at line 1 column 1"
  compress bytes := .ok (Equiv.swap (json 2048) compressed bytes)
  decompress bytes capacity :=
    if (Equiv.swap (json 2048) compressed bytes).length ≤ capacity then
      .ok (Equiv.swap (json 2048) compressed bytes)
    else .error "Destination buffer is too small"

lemma toVec_eq_ok {m : WireMessage} {bytes : Bytes} (h : codec.toVec m = .ok bytes) :
    ∃ count, m = .updateAvailable (letters count) ∧ bytes = json count := by
  cases m with
  | updateAvailable version =>
    simp only [codec] at h
    split at h
    next hletters => exact ⟨_, congrArg _ hletters, (Except.ok.inj h).symm⟩
    next => cases h
  | _ => cases h

lemma codec_lawful : codec.Lawful where
  reads_back := by
    intro m bytes hjson
    obtain ⟨count, rfl, rfl⟩ := toVec_eq_ok hjson
    simp only [codec, length_json, Nat.add_sub_cancel]
    exact if_pos trivial
  no_magic := by
    intro m bytes hjson
    obtain ⟨count, _, rfl⟩ := toVec_eq_ok hjson
    have hmagic : compressedWireMagic = 0x49 :: [0x45, 0x55, 0x4d, 0x5a, 1] := by decide +kernel
    have hhead : ∃ rest, json count = 0x7b :: rest := by
      have hfirst : textBytes "\x7b\"UpdateAvailable\":\x7b\"version\":\""
          = 0x7b :: textBytes "\"UpdateAvailable\":\x7b\"version\":\"" := by decide +kernel
      exact ⟨_, by rw [json, hfirst, List.cons_append, List.cons_append]⟩
    obtain ⟨rest, hrest⟩ := hhead
    rw [hmagic, hrest, List.cons_prefix_cons]
    rintro ⟨hbyte, _⟩
    exact absurd hbyte (by decide)
  compresses _ _ := ⟨_, rfl⟩
  inverts := by
    intro bytes packed capacity hcompressed hcapacity
    obtain rfl := Except.ok.inj hcompressed
    simp only [codec, Equiv.swap_apply_self]
    rw [if_pos hcapacity]

lemma toVec_letters (count : ℕ) :
    codec.toVec (.updateAvailable (letters count)) = .ok (json count) := by
  have hlength : (letters count).toList.length = count := by
    rw [letters, String.toList_ofList, List.length_replicate]
  simp only [codec, hlength]
  exact if_pos trivial

lemma compress_json : codec.compress (json 2048) = .ok compressed := by
  show Except.ok (Equiv.swap (json 2048) compressed (json 2048)) = .ok compressed
  rw [Equiv.swap_apply_left]

lemma encode_compressed : codec.encodeWireMessage (.updateAvailable (letters 2048))
    = .ok (compressedWireMagic ++ beBytes 4 2082 ++ compressed) := by
  have hlength : (json 2048).length = 2082 := length_json 2048
  have hencode := WireCodec.encode_frame (toVec_letters 2048) compress_json
    (by rw [hlength]; decide) (by rw [hlength]; decide)
  rwa [hlength] at hencode

/-- A notice that is sent as JSON and one that is compressed. -/
theorem wire_round_trip_notice :
    (∃ bytes, codec.encodeWireMessage (.updateAvailable (letters 1)) = .ok bytes ∧
      codec.decodeWireMessage bytes 2097152 = .ok (.updateAvailable (letters 1))) ∧
      ∃ bytes decoded, bytes = compressedWireMagic ++ beBytes 4 2082 ++ compressed ∧
        codec.encodeWireMessage (.updateAvailable (letters 2048)) = .ok bytes ∧
        codec.decodeWireMessage bytes 2097152 = .ok (.updateAvailable (letters 2048)) ∧
        codec.decompress (bytes.drop wireHeaderBytes) (WireCodec.declaredLength bytes)
          = .ok decoded ∧ decoded.length = WireCodec.declaredLength bytes := by
  obtain ⟨hround, hframes⟩ := WireCodec.wire_round_trip codec codec_lawful
  have hsmall : (json 1).length ≤ 2097152 := by
    rw [length_json]
    decide
  have hlarge : (json 2048).length ≤ 2097152 := by
    rw [length_json]
    decide
  refine ⟨hround _ (json 1) 2097152 (toVec_letters 1) hsmall, ?_⟩
  obtain ⟨bytes, hbytes, hdecode⟩ := hround _ (json 2048) 2097152 (toVec_letters 2048) hlarge
  have hframe : bytes = compressedWireMagic ++ beBytes 4 2082 ++ compressed := by
    rw [encode_compressed] at hbytes
    exact (Except.ok.inj hbytes).symm
  have hmagic : compressedWireMagic <+: bytes := by
    rw [hframe, List.append_assoc]
    exact List.prefix_append _ _
  obtain ⟨decoded, hdecoded, _, hlength, _⟩ := hframes bytes 2097152 _ hmagic hdecode
  exact ⟨bytes, decoded, hframe, hbytes, hdecode, hdecoded, hlength⟩

end Notice

end IeumChain
