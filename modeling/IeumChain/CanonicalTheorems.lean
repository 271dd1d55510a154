import IeumChain.RawTransactionTheorems

/-!
# Raw transactions with more than one encoding

The decoder reads a length without asking whether a shorter header would do, a byte below `0x80`
behind a header, and an integer with leading zeros. `Canonical` says that no header of a byte
string is longer than needed. This is what an encoded list has (`decodeList_canonical_iff`), and
two raw transactions that have it, with no leading zeros, carry different signed transfers.
-/

namespace IeumChain

open Lib

namespace Rlp

/-! ## Minimal integers -/

lemma beNat_lt (l : Bytes) : beNat l < 256 ^ l.length := by
  induction l with
  | nil => decide
  | cons b l ih =>
    have hb := b.toNat_lt
    rw [beNat_cons, List.length_cons, Nat.pow_succ]
    calc b.toNat * 256 ^ l.length + beNat l
        < b.toNat * 256 ^ l.length + 256 ^ l.length := Nat.add_lt_add_left ih _
      _ = (b.toNat + 1) * 256 ^ l.length := (Nat.succ_mul _ _).symm
      _ ≤ 256 * 256 ^ l.length := Nat.mul_le_mul_right _ hb
      _ = 256 ^ l.length * 256 := Nat.mul_comm _ _

/-- What stands above the width is not written. -/
lemma beBytes_add_mul {width v : ℕ} (h : width ≤ v) (m x : ℕ) :
    beBytes width (m + 256 ^ v * x) = beBytes width m := by
  induction width with
  | zero => rfl
  | succ width ih =>
    have hpow : 256 ^ v = 256 ^ width * (256 * 256 ^ (v - (width + 1))) := by
      rw [← Nat.pow_succ', ← Nat.pow_add]
      congr 1
      omega
    have hdigit : (m + 256 ^ v * x) / 256 ^ width % 256 = m / 256 ^ width % 256 := by
      rw [hpow, Nat.mul_assoc, Nat.add_mul_div_left _ _ (by positivity), Nat.mul_assoc,
        Nat.add_mul_mod_self_left]
    rw [beBytes, beBytes, hdigit, ih (by omega)]

/-- The bytes of an integer at its own width. -/
lemma beBytes_beNat (l : Bytes) : beBytes l.length (beNat l) = l := by
  induction l with
  | nil => rfl
  | cons b l ih =>
    have hlow := beNat_lt l
    have hsum : beNat (b :: l) = beNat l + 256 ^ l.length * b.toNat := by
      rw [beNat_cons]
      ring
    have hdigit : (beNat l + 256 ^ l.length * b.toNat) / 256 ^ l.length % 256 = b.toNat := by
      rw [Nat.add_mul_div_left _ _ (by positivity), Nat.div_eq_of_lt hlow, Nat.zero_add,
        Nat.mod_eq_of_lt b.toNat_lt]
    rw [hsum, List.length_cons, beBytes, hdigit, beBytes_add_mul le_rfl, ih, UInt8.ofNat_toNat]

/-- The bytes of an integer at a larger width. -/
lemma beBytes_beNat_of_le {width : ℕ} {l : Bytes} (h : l.length ≤ width) :
    beBytes width (beNat l) = List.replicate (width - l.length) 0 ++ l := by
  induction width, h using Nat.le_induction with
  | base => rw [beBytes_beNat, Nat.sub_self, List.replicate_zero, List.nil_append]
  | succ width hle ih =>
    have hlow : beNat l < 256 ^ width :=
      lt_of_lt_of_le (beNat_lt l) (Nat.pow_le_pow_right (by decide) hle)
    rw [beBytes, Nat.div_eq_of_lt hlow, ih, Nat.succ_sub hle, List.replicate_succ]
    rfl

/-- The minimal bytes of the integer of a byte string are those behind its leading zeros. -/
lemma minimalBytes_beNat {width : ℕ} {l : Bytes} (h : l.length ≤ width) :
    minimalBytes width (beNat l) = l.dropWhile (· == 0) := by
  rw [minimalBytes, beBytes_beNat_of_le h]
  generalize width - l.length = zeros
  induction zeros with
  | zero => rfl
  | succ zeros ih => rw [List.replicate_succ, List.cons_append, List.dropWhile_cons_of_pos rfl, ih]

/-- A byte string is the minimal one of its integer when it has no leading zero. -/
lemma minimalBytes_eq_iff {width : ℕ} {l : Bytes} (h : l.length ≤ width) :
    minimalBytes width (beNat l) = l ↔ l.head? ≠ some 0 := by
  rw [minimalBytes_beNat h]
  cases l with
  | nil => simp
  | cons b l =>
    by_cases hb : b = 0
    · rw [List.dropWhile_cons_of_pos (by simpa using hb), List.head?_cons, hb]
      refine iff_of_false (fun heq => ?_) (fun hne => hne rfl)
      -- what is left is shorter
      have hlen := (l.length_dropWhile_le (· == 0)).trans_lt (Nat.lt_succ_self _)
      rw [heq, List.length_cons] at hlen
      exact lt_irrefl _ hlen
    · rw [List.dropWhile_cons_of_neg (by simpa using hb), List.head?_cons]
      exact iff_of_true rfl fun heq => hb (Option.some.inj heq)

/-! ## Headers -/

/-- The first byte of a short header of an empty item. -/
def shortBase (isList : Bool) : ℕ := if isList then 0xc0 else 0x80

/-- The first byte of a long header, but for the width of its length field. -/
def longBase (isList : Bool) : ℕ := if isList then 0xf7 else 0xb7

lemma shortBase_string : shortBase false = 0x80 := rfl

lemma shortBase_list : shortBase true = 0xc0 := rfl

lemma longBase_string : longBase false = 0xb7 := rfl

lemma longBase_list : longBase true = 0xf7 := rfl

/-- A header read from the front of the input, in the three forms. -/
inductive Header (first : UInt8) (rest : Bytes) (isList : Bool) : ℕ → ℕ → Prop where
  | byte (h : first.toNat ≤ 0x7f) (hlist : isList = false) : Header first rest isList 0 1
  | short (length : ℕ) (h : length ≤ 55) (hfirst : first = UInt8.ofNat (shortBase isList + length)) :
      Header first rest isList 1 length
  | long (width : ℕ) (hpos : 1 ≤ width) (hwidth : width ≤ 8) (hrest : width ≤ rest.length)
      (hfirst : first = UInt8.ofNat (longBase isList + width)) :
      Header first rest isList (1 + width) (beNat (rest.take width))

lemma readLength_eq_ok {first : UInt8} {rest : Bytes} {width length : ℕ} :
    readLength (first :: rest) width = .ok length ↔
      width ≠ 0 ∧ width ≤ 8 ∧ width ≤ rest.length ∧ length = beNat (rest.take width) := by
  simp only [readLength, bind_eq_ok, ensure_eq_ok, pure_eq_ok, List.length_cons, List.drop_one,
    List.tail_cons]
  constructor
  · rintro ⟨_, ⟨hne, hwidth, hlen⟩, rfl⟩
    exact ⟨hne, hwidth, by omega, rfl⟩
  · rintro ⟨hne, hwidth, hlen, rfl⟩
    exact ⟨(), ⟨hne, hwidth, by omega⟩, rfl⟩

lemma itemHeader_eq_ok {input : Bytes} {isList : Bool} {start length : ℕ}
    (h : itemHeader input = .ok (isList, start, length)) :
    ∃ first rest, input = first :: rest ∧ Header first rest isList start length := by
  simp only [itemHeader, bind_eq_ok, okOr_eq_ok] at h
  obtain ⟨first, hfirst, h⟩ := h
  obtain ⟨rest, rfl⟩ := List.head?_eq_some_iff.mp hfirst
  have hbyte := first.toNat_lt
  -- a first byte is the byte of its value
  have hself : ∀ n, first.toNat = n → first = UInt8.ofNat n := by
    rintro n rfl
    exact (UInt8.ofNat_toNat).symm
  refine ⟨first, rest, rfl, ?_⟩
  split_ifs at h with h1 h2 h3 h4
  · simp only [pure_eq_ok, Prod.mk.injEq] at h
    obtain ⟨rfl, rfl, rfl⟩ := h
    exact .byte h1 rfl
  · simp only [pure_eq_ok, Prod.mk.injEq] at h
    obtain ⟨rfl, rfl, rfl⟩ := h
    refine .short _ (by omega) (hself _ ?_)
    rw [shortBase_string]
    omega
  · simp only [bind_eq_ok, pure_eq_ok, Prod.mk.injEq, readLength_eq_ok] at h
    obtain ⟨_, ⟨hne, hwidth, hlen, hvalue⟩, hkind, hstart, hlength⟩ := h
    have hfirst : first.toNat = 0xb7 + (first.toNat - 0xb7) := by omega
    generalize first.toNat - 0xb7 = width at *
    subst hvalue hkind hstart hlength
    exact .long width (Nat.one_le_iff_ne_zero.mpr hne) hwidth hlen (hself _ hfirst)
  · simp only [pure_eq_ok, Prod.mk.injEq] at h
    obtain ⟨rfl, rfl, rfl⟩ := h
    refine .short _ (by omega) (hself _ ?_)
    rw [shortBase_list]
    omega
  · simp only [bind_eq_ok, pure_eq_ok, Prod.mk.injEq, readLength_eq_ok] at h
    obtain ⟨_, ⟨hne, hwidth, hlen, hvalue⟩, hkind, hstart, hlength⟩ := h
    have hfirst : first.toNat = 0xf7 + (first.toNat - 0xf7) := by omega
    generalize first.toNat - 0xf7 = width at *
    subst hvalue hkind hstart hlength
    exact .long width (Nat.one_le_iff_ne_zero.mpr hne) hwidth hlen (hself _ hfirst)

/-- The header that announces the item is no longer than needed: a byte below `0x80` stands
without one, a length up to 55 in the first byte, and a longer one without leading zeros. -/
def ShortestHeader (input : Bytes) : Prop :=
  match itemHeader input with
  | .error _ => True
  | .ok (isList, start, length) =>
    (start = 1 → isList = false → length = 1 → ∀ b ∈ (input.drop 1).head?, 0x80 ≤ b) ∧
      (1 < start → 55 < length ∧ (input.drop 1).head? ≠ some 0)

/-- The length of a header with a length field that is written as the encoder does. -/
lemma encodeLength_eq_iff {first : UInt8} {rest : Bytes} {isList : Bool} {width : ℕ}
    (hpos : 1 ≤ width) (hwidth : width ≤ 8) (hrest : width ≤ rest.length)
    (hfirst : first = UInt8.ofNat (longBase isList + width)) :
    encodeLength (beNat (rest.take width)) (shortBase isList) (longBase isList)
        = first :: rest.take width ↔
      55 < beNat (rest.take width) ∧ rest.head? ≠ some 0 := by
  have hlength : (rest.take width).length = width := List.length_take_of_le hrest
  have hhead : (rest.take width).head? = rest.head? := by
    rw [List.head?_take, if_neg (by omega)]
  by_cases hshort : beNat (rest.take width) ≤ 55
  · rw [encodeLength_short _ _ hshort]
    refine iff_of_false (fun heq => ?_) (fun hlong => absurd hshort (by omega))
    have hlen := congrArg List.length heq
    rw [List.length_singleton, List.length_cons, hlength] at hlen
    omega
  · have hminimal := @minimalBytes_eq_iff 8 _ (hlength.trans_le hwidth)
    rw [hhead] at hminimal
    rw [encodeLength_long _ _ hshort, ← hminimal, List.cons.injEq]
    constructor
    · exact fun heq => ⟨by omega, heq.2⟩
    · intro heq
      rw [heq.2, hlength]
      exact ⟨hfirst.symm, rfl⟩

/-- A header is the one the encoder writes for its length when it is no longer than needed. -/
lemma Header.encodeLength_iff {first : UInt8} {rest : Bytes} {isList : Bool} {start length : ℕ}
    (h : Header first rest isList start length) (hstart : 0 < start) :
    encodeLength length (shortBase isList) (longBase isList) = (first :: rest).take start ↔
      (1 < start → 55 < length ∧ rest.head? ≠ some 0) := by
  cases h with
  | byte => exact absurd hstart (lt_irrefl 0)
  | short _ hlength hfirst =>
    rw [encodeLength_short _ _ hlength, hfirst]
    exact iff_of_true rfl (absurd · (lt_irrefl 1))
  | long width hpos hwidth hrest hfirst =>
    have htake : (first :: rest).take (1 + width) = first :: rest.take width := by
      rw [Nat.add_comm, List.take_succ_cons]
    rw [htake, encodeLength_eq_iff hpos hwidth hrest hfirst]
    exact ⟨fun hshortest _ => hshortest, fun hshortest => hshortest (by omega)⟩

/-! ## Items -/

/-- A decoded item stands behind its header. -/
lemma decodeItem_eq_ok {input value : Bytes} {isList : Bool} {size : ℕ}
    (h : decodeItem input isList = .ok (value, size)) :
    ∃ first rest start length, input = first :: rest ∧
      itemHeader input = .ok (isList, start, length) ∧ Header first rest isList start length ∧
      value = (input.drop start).take length ∧ value.length = length ∧ size = start + length ∧
      size ≤ input.length ∧ start + length < 2 ^ 64 := by
  simp only [decodeItem, bind_eq_ok, ensure_eq_ok, pure_eq_ok, Prod.mk.injEq] at h
  obtain ⟨⟨kind, start, length⟩, hheader, _, hkind, _, hsum, _, hfits, hvalue, hsize⟩ := h
  obtain rfl : isList = kind := hkind
  obtain ⟨first, rest, rfl, hform⟩ := itemHeader_eq_ok hheader
  have hlen : length ≤ ((first :: rest).drop start).length := by
    rw [List.length_drop]
    exact Nat.le_sub_of_add_le' hfits
  refine ⟨first, rest, start, length, rfl, hheader, hform, hvalue.symm, ?_, hsize.symm, ?_,
    hsum⟩
  · rw [← hvalue]
    exact List.length_take_of_le hlen
  · exact hsize.symm.trans_le hfits

lemma encodeBytes_of_small {b : UInt8} (hb : b < 0x80) : encodeBytes [b] = [b] := if_pos hb

lemma encodeBytes_of_not_small {value : Bytes} (h : ∀ b, value = [b] → ¬ b < 0x80) :
    encodeBytes value = encodeLength value.length 0x80 0xb7 ++ value := by
  fun_cases encodeBytes value with
  | case1 b hb => exact absurd hb (h b rfl)
  | case2 b hb => rfl
  | case3 hne => rfl

/-- The content of a list stands behind the header the encoder writes when its own is no longer
than needed. -/
lemma encodeLength_append_iff {input value : Bytes} {size : ℕ}
    (h : decodeItem input true = .ok (value, size)) :
    encodeLength value.length 0xc0 0xf7 ++ value = input.take size ↔ ShortestHeader input := by
  obtain ⟨first, rest, start, length, rfl, hheader, hform, rfl, hlen, rfl, hsize, _⟩ :=
    decodeItem_eq_ok h
  have hstart : 0 < start := by
    cases hform with
    | byte _ hstring => cases hstring
    | short => decide
    | long width => omega
  have hiff := hform.encodeLength_iff hstart
  rw [shortBase_list, longBase_list] at hiff
  rw [hlen, List.take_add, List.append_left_inj, hiff, ShortestHeader, hheader]
  exact ⟨fun hlong => ⟨by simp, hlong⟩, fun hshortest => hshortest.2⟩

/-- A string is written as it was read when its header is no longer than needed. -/
lemma encodeBytes_eq_iff {input value : Bytes} {size : ℕ}
    (h : decodeItem input false = .ok (value, size)) :
    encodeBytes value = input.take size ↔ ShortestHeader input := by
  obtain ⟨first, rest, start, length, rfl, hheader, hform, rfl, hlen, rfl, hsize, _⟩ :=
    decodeItem_eq_ok h
  rw [ShortestHeader, hheader]
  rcases Nat.eq_zero_or_pos start with rfl | hstart
  · -- the byte stands for itself
    have hbyte : first.toNat ≤ 0x7f ∧ length = 1 := by
      generalize hzero : 0 = start at hform
      cases hform with
      | byte hbyte _ => exact ⟨hbyte, rfl⟩
      | short => cases hzero
      | long width => omega
    obtain ⟨hbyte, rfl⟩ := hbyte
    refine iff_of_true (encodeBytes_of_small ?_) ⟨by simp, by simp⟩
    exact UInt8.lt_iff_toNat_lt.mpr (Nat.lt_succ_of_le hbyte)
  -- the value stands behind a header
  have hiff := hform.encodeLength_iff hstart
  rw [shortBase_string, longBase_string] at hiff
  -- a single small byte is its own encoding, and must not have one
  by_cases hsmall : ∃ b, ((first :: rest).drop start).take length = [b] ∧ b < 0x80
  · obtain ⟨b, hvalue, hb⟩ := hsmall
    rw [hvalue] at hlen
    obtain rfl : length = 1 := hlen.symm
    rw [hvalue, encodeBytes_of_small hb]
    refine iff_of_false (fun heq => ?_) (fun ⟨hbyte, hlong⟩ => ?_)
    · have hlength := congrArg List.length heq
      rw [List.length_take_of_le hsize, List.length_singleton] at hlength
      omega
    · rcases Nat.lt_or_ge 1 start with hlt | hle
      · exact absurd (hlong hlt).1 (by decide)
      · -- the byte behind a short header
        obtain rfl : start = 1 := by omega
        have hhead : ((first :: rest).drop 1).head? = some b := by
          have htake := congrArg List.head? hvalue
          rwa [List.head?_take, if_neg one_ne_zero] at htake
        have hnot := hbyte rfl rfl rfl b hhead
        exact absurd hb (UInt8.not_lt.mpr hnot)
  · have hnot : ∀ b, ((first :: rest).drop start).take length = [b] → ¬ b < 0x80 :=
      fun b hvalue hb => hsmall ⟨b, hvalue, hb⟩
    rw [encodeBytes_of_not_small hnot, hlen, List.take_add, List.append_left_inj, hiff]
    refine ⟨fun hlong => ⟨?_, hlong⟩, fun hshortest => hshortest.2⟩
    rintro rfl - rfl b hb
    apply UInt8.not_lt.mp
    apply hnot b
    cases hrest : (first :: rest).drop 1 with
    | nil => rw [hrest] at hb; cases hb
    | cons b' rest' =>
      rw [hrest] at hb
      obtain rfl := Option.some.inj hb
      rfl

/-- A decoded item is short enough to be encoded again. -/
lemma length_of_decodeItem {input value : Bytes} {isList : Bool} {size : ℕ}
    (h : decodeItem input isList = .ok (value, size)) : value.length + 9 < 2 ^ 64 := by
  obtain ⟨first, rest, start, length, _, _, hform, _, hlen, _, _, hsum⟩ := decodeItem_eq_ok h
  rw [hlen]
  cases hform with
  | byte => decide
  | short _ hshort => omega
  | long width _ hwidth =>
    rcases Nat.lt_or_ge width 8 with hlt | hge
    · -- seven bytes of length at most
      have hvalue : beNat (rest.take width) < 256 ^ 7 :=
        calc beNat (rest.take width) < 256 ^ (rest.take width).length := beNat_lt _
          _ ≤ 256 ^ 7 := Nat.pow_le_pow_right (by decide)
            ((List.length_take_le width rest).trans (by omega))
      omega
    · omega

/-! ## Lists -/

/-- No item of a list's content has a header longer than needed. -/
def ShortestItems : ℕ → Bytes → Prop
  | _, [] => True
  | 0, _ :: _ => True
  | fuel + 1, b :: bs =>
    ShortestHeader (b :: bs) ∧
      match decodeItem (b :: bs) false with
      | .error _ => True
      | .ok (_, size) => ShortestItems fuel ((b :: bs).drop size)

/-- Neither the list nor one of its items has a header longer than needed. -/
def ShortestHeaders (input : Bytes) : Prop :=
  ShortestHeader input ∧
    match decodeItem input true with
    | .error _ => True
    | .ok (payload, _) => ShortestItems payload.length payload

/-- The first string of the content is encoded as it was read, and so are the others. -/
lemma encodeBytes_append_iff {input value rest : Bytes} {size : ℕ}
    (h : decodeItem input false = .ok (value, size)) :
    encodeBytes value ++ rest = input ↔ ShortestHeader input ∧ rest = input.drop size := by
  rw [← encodeBytes_eq_iff h]
  constructor
  · rintro rfl
    have hitem := decodeItem_encodeBytes rest
      ((length_encodeBytes_le value).trans_lt (length_of_decodeItem h))
    obtain rfl : size = (encodeBytes value).length :=
      (Prod.mk.inj (Except.ok.inj (h.symm.trans hitem))).2
    rw [List.take_left, List.drop_left]
    exact ⟨rfl, rfl⟩
  · rintro ⟨hvalue, rfl⟩
    rw [hvalue, List.take_append_drop]

lemma decodeItems_eq_iff {fuel : ℕ} {input : Bytes} {values : List Bytes}
    (h : decodeItems fuel input = .ok values) :
    (values.map encodeBytes).flatten = input ↔ ShortestItems fuel input := by
  induction fuel, input using decodeItems.induct generalizing values with
  | case1 fuel =>
    rw [decodeItems] at h
    obtain rfl := Except.ok.inj h
    rw [ShortestItems]
    exact iff_of_true rfl trivial
  | case2 b bs =>
    rw [decodeItems] at h
    cases h
  | case3 fuel b bs ih =>
    simp only [decodeItems, bind_eq_ok, pure_eq_ok] at h
    obtain ⟨⟨value, size⟩, hitem, rest, hrest, rfl⟩ := h
    rw [List.map_cons, List.flatten_cons, encodeBytes_append_iff hitem, ih _ hrest,
      ShortestItems, hitem]

/-- The content of a list that is encoded as it was read is what was read. -/
lemma payload_of_encodeLength {input payload content : Bytes}
    (h : decodeItem input true = .ok (payload, input.length))
    (heq : encodeLength content.length 0xc0 0xf7 ++ content = input) : content = payload := by
  obtain ⟨first, rest, start, length, _, _, _, _, _, hsize, _, hsum⟩ := decodeItem_eq_ok h
  have hlength := congrArg List.length heq
  rw [List.length_append] at hlength
  have hheader := itemHeader_list (n := content.length) (by omega) (content ++ [])
  have hitem := decodeItem_of_itemHeader hheader (by omega)
  rw [List.append_nil, heq, h] at hitem
  exact (Prod.mk.inj (Except.ok.inj hitem)).1.symm

/-- **A list is encoded as it was read exactly when no header in it is longer than needed.** -/
theorem encodeList_eq_iff {input : Bytes} {values : List Bytes}
    (h : decodeList input = .ok values) :
    encodeList (values.map encodeBytes) = input ↔ ShortestHeaders input := by
  simp only [decodeList, bind_eq_ok, ensure_eq_ok] at h
  obtain ⟨⟨payload, consumed⟩, hitem, _, hall, hitems⟩ := h
  obtain rfl : consumed = input.length := hall
  have hheader := encodeLength_append_iff hitem
  rw [List.take_length] at hheader
  rw [ShortestHeaders, hitem]
  show _ ↔ _ ∧ ShortestItems payload.length payload
  rw [← decodeItems_eq_iff hitems, encodeList, ← hheader]
  constructor
  · intro heq
    have hcontent := payload_of_encodeLength hitem heq
    rw [hcontent] at heq
    exact ⟨heq, hcontent⟩
  · rintro ⟨heq, hcontent⟩
    rw [hcontent]
    exact heq

end Rlp

/-! ## Signed transfers -/

/-- A transfer with its signature, as the numbers that are signed and that sign. -/
structure SignedTransfer where
  nonce : ℕ
  gasPrice : ℕ
  gasLimit : ℕ
  receiver : Bytes
  amount : ℕ
  v : ℕ
  r : ℕ
  s : ℕ
deriving DecidableEq

/-- The nine strings of a legacy transaction. -/
structure LegacyStrings where
  nonce : Bytes
  gasPrice : Bytes
  gasLimit : Bytes
  receiver : Bytes
  amount : Bytes
  data : Bytes
  v : Bytes
  r : Bytes
  s : Bytes

namespace LegacyStrings
variable (f : LegacyStrings)

def list : List Bytes :=
  [f.nonce, f.gasPrice, f.gasLimit, f.receiver, f.amount, f.data, f.v, f.r, f.s]

/-- The strings that are integers. -/
def integers : List Bytes := [f.nonce, f.gasPrice, f.gasLimit, f.amount, f.v, f.r, f.s]

def transfer : SignedTransfer where
  nonce := Rlp.beNat f.nonce
  gasPrice := Rlp.beNat f.gasPrice
  gasLimit := Rlp.beNat f.gasLimit
  receiver := f.receiver
  amount := Rlp.beNat f.amount
  v := Rlp.beNat f.v
  r := Rlp.beNat f.r
  s := Rlp.beNat f.s

/-- The widths the decoder asks for. -/
structure Fits : Prop where
  nonce : f.nonce.length ≤ 8
  gasPrice : f.gasPrice.length ≤ 8
  gasLimit : f.gasLimit.length ≤ 8
  receiver : f.receiver.length = 20
  amount : f.amount.length ≤ 16
  data : f.data = []
  v : f.v.length ≤ 8
  r : f.r.length ≤ 32
  s : f.s.length ≤ 32

/-- No integer starts with a zero byte. -/
def NoLeadingZero : Prop := ∀ value ∈ f.integers, value.head? ≠ some 0

end LegacyStrings

/-- A raw transaction in the one form the encoder writes: no header is longer than needed, and no
integer starts with a zero byte. -/
def Canonical (raw : Bytes) (f : LegacyStrings) : Prop :=
  Rlp.ShortestHeaders raw ∧ f.NoLeadingZero

/-- The strings of a signed transfer without leading zeros. -/
def SignedTransfer.strings (t : SignedTransfer) : LegacyStrings where
  nonce := Rlp.minimalBytes 32 t.nonce
  gasPrice := Rlp.minimalBytes 32 t.gasPrice
  gasLimit := Rlp.minimalBytes 32 t.gasLimit
  receiver := t.receiver
  amount := Rlp.minimalBytes 32 t.amount
  data := []
  v := Rlp.minimalBytes 32 t.v
  r := Rlp.minimalBytes 32 t.r
  s := Rlp.minimalBytes 32 t.s

/-- The raw transaction the encoder writes for a signed transfer. -/
def SignedTransfer.raw (t : SignedTransfer) : Bytes :=
  Rlp.encodeList (t.strings.list.map Rlp.encodeBytes)

namespace LegacyStrings
variable {f : LegacyStrings}

lemma Fits.integers_le (h : f.Fits) : ∀ value ∈ f.integers, value.length ≤ 32 := by
  simp only [integers, List.forall_mem_cons]
  exact ⟨h.nonce.trans (by decide), h.gasPrice.trans (by decide), h.gasLimit.trans (by decide),
    h.amount.trans (by decide), h.v.trans (by decide), h.r, h.s, List.forall_mem_nil _⟩

/-- The integers are written minimally when none of them starts with a zero byte. -/
lemma Fits.minimal_iff (h : f.Fits) :
    (∀ value ∈ f.integers, Rlp.minimalBytes 32 (Rlp.beNat value) = value) ↔ f.NoLeadingZero :=
  forall₂_congr fun value hvalue => Rlp.minimalBytes_eq_iff (h.integers_le value hvalue)

/-- The strings of the signed transfer are those that were read, if they are minimal. -/
lemma Fits.strings_eq (h : f.Fits)
    (hminimal : ∀ value ∈ f.integers, Rlp.minimalBytes 32 (Rlp.beNat value) = value) :
    f.transfer.strings = f := by
  simp only [integers, List.forall_mem_cons] at hminimal
  obtain ⟨h0, h1, h2, h4, h6, h7, h8, -⟩ := hminimal
  simp only [SignedTransfer.strings, transfer, h0, h1, h2, h4, h6, h7, h8, ← h.data]

/-- Without its leading zeros an integer stays as wide as it was at most, and the same. -/
lemma minimal_of_le {value : Bytes} (h : value.length ≤ 32) :
    (Rlp.minimalBytes 32 (Rlp.beNat value)).length ≤ value.length ∧
      Rlp.beNat (Rlp.minimalBytes 32 (Rlp.beNat value)) = Rlp.beNat value := by
  rw [Rlp.minimalBytes_beNat h, Rlp.beNat_dropWhile]
  exact ⟨value.length_dropWhile_le _, rfl⟩

lemma Fits.strings (h : f.Fits) :
    f.transfer.strings.Fits ∧ f.transfer.strings.transfer = f.transfer := by
  have hle := h.integers_le
  simp only [integers, List.forall_mem_cons] at hle
  obtain ⟨h0, h1, h2, h4, h6, h7, h8, -⟩ := hle
  constructor
  · exact
      { nonce := (minimal_of_le h0).1.trans h.nonce
        gasPrice := (minimal_of_le h1).1.trans h.gasPrice
        gasLimit := (minimal_of_le h2).1.trans h.gasLimit
        receiver := h.receiver
        amount := (minimal_of_le h4).1.trans h.amount
        data := rfl
        v := (minimal_of_le h6).1.trans h.v
        r := (minimal_of_le h7).1.trans h.r
        s := (minimal_of_le h8).1.trans h.s }
  · simp only [SignedTransfer.strings, transfer, minimal_of_le h0, minimal_of_le h1,
      minimal_of_le h2, minimal_of_le h4, minimal_of_le h6, minimal_of_le h7, minimal_of_le h8]

lemma Fits.length_le (h : f.Fits) : ∀ value ∈ f.list, value.length ≤ 32 := by
  simp only [list, List.forall_mem_cons]
  exact ⟨h.nonce.trans (by decide), h.gasPrice.trans (by decide), h.gasLimit.trans (by decide),
    h.receiver.trans_le (by decide), h.amount.trans (by decide), h.data ▸ Nat.zero_le _,
    h.v.trans (by decide), h.r, h.s, List.forall_mem_nil _⟩

/-- What the encoder writes for fitting strings is read back. -/
lemma Fits.decodeList (h : f.Fits) :
    Rlp.decodeList (Rlp.encodeList (f.list.map Rlp.encodeBytes)) = .ok f.list := by
  have hshort := h.length_le
  apply Rlp.decodeList_encodeList
  have hlen := Rlp.length_encodeList_le hshort
  have hnine : f.list.length = 9 := rfl
  rw [hnine] at hlen
  omega

end LegacyStrings

lemma LegacyStrings.list_inj {f g : LegacyStrings} (h : f.list = g.list) : f = g := by
  cases f
  cases g
  simp only [list, List.cons.injEq, and_true] at h
  simp only [h]

/-- A canonical raw transaction is determined by the signed transfer. -/
lemma Canonical.raw_eq {raw : Bytes} {f : LegacyStrings} (h : Canonical raw f) (hfits : f.Fits)
    (hdecode : Rlp.decodeList raw = .ok f.list) : raw = f.transfer.raw := by
  have hstrings := hfits.strings_eq (hfits.minimal_iff.mpr h.2)
  rw [SignedTransfer.raw, hstrings]
  exact ((Rlp.encodeList_eq_iff hdecode).mpr h.1).symm

/-- Every signed transfer that fits has a canonical raw transaction. -/
lemma canonical_raw {f : LegacyStrings} (h : f.Fits) :
    Canonical f.transfer.raw f.transfer.strings := by
  obtain ⟨hfits, htransfer⟩ := h.strings
  refine ⟨(Rlp.encodeList_eq_iff hfits.decodeList).mp rfl, ?_⟩
  apply hfits.minimal_iff.mp
  have hself : f.transfer.strings.transfer.strings = f.transfer.strings := by rw [htransfer]
  simp only [SignedTransfer.strings, LegacyStrings.transfer, LegacyStrings.mk.injEq] at hself
  obtain ⟨h0, h1, h2, -, h4, -, h6, h7, h8⟩ := hself
  simp only [LegacyStrings.integers, SignedTransfer.strings, LegacyStrings.transfer,
    List.forall_mem_cons]
  exact ⟨h0, h1, h2, h4, h6, h7, h8, List.forall_mem_nil _⟩

/-! ## What the decoder makes of a signed transfer -/

lemma valueU64_eq_ok {value : Bytes} {name : String} {n : UInt64} :
    valueU64 value name = .ok n ↔ value.length ≤ 8 ∧ n = UInt64.ofNat (Rlp.beNat value) := by
  simp only [valueU64, bind_eq_ok, ensure_eq_ok, pure_eq_ok, exists_const]
  exact and_congr_right fun _ => eq_comm

lemma valueU128_eq_ok {value : Bytes} {name : String} {n : U128} :
    valueU128 value name = .ok n ↔
      value.length ≤ 16 ∧ n = BitVec.ofNat 128 (Rlp.beNat value) := by
  simp only [valueU128, bind_eq_ok, ensure_eq_ok, pure_eq_ok, exists_const]
  exact and_congr_right fun _ => eq_comm

lemma paddedScalar_eq_ok {value scalar : Bytes} {name : String} :
    paddedScalar value name = .ok scalar ↔
      value.length ≤ 32 ∧ scalar = beBytes 32 (Rlp.beNat value) := by
  simp only [paddedScalar, bind_eq_ok, ensure_eq_ok, pure_eq_ok, exists_const]
  refine and_congr_right fun hlen => ?_
  rw [Rlp.beBytes_beNat_of_le hlen]
  exact eq_comm

lemma legacyFields_eq_ok {fields : List Bytes} {message : String}
    {f0 f1 f2 f3 f4 f5 f6 f7 f8 : Bytes} :
    legacyFields fields message = .ok (f0, f1, f2, f3, f4, f5, f6, f7, f8) ↔
      fields = [f0, f1, f2, f3, f4, f5, f6, f7, f8] := by
  fun_cases legacyFields fields message with
  | case1 => simp only [Except.ok.injEq, Prod.mk.injEq, List.cons.injEq, and_true]
  | case2 fields h =>
    refine iff_of_false (fun h => by cases h) ?_
    rintro rfl
    exact h _ _ _ _ _ _ _ _ _ rfl

section
variable [Primitives]

/-- The signed transfer is accepted on the chain and stands for the ledger transaction that carries
the raw one. -/
def SignedTransfer.Grants (t : SignedTransfer) (chainId : UInt64) (raw : Bytes)
    (tx : Transaction) : Prop :=
  let nonce := UInt64.ofNat t.nonce
  let gasPrice := UInt64.ofNat t.gasPrice
  let gasLimit := UInt64.ofNat t.gasLimit
  let amount := BitVec.ofNat 128 t.amount
  let v := UInt64.ofNat t.v
  let signature := beBytes 32 t.r ++ beBytes 32 t.s
  35 ≤ v ∧ (v - 35) / 2 = chainId ∧ Primitives.ecdsaSignature signature = true ∧
    ∃ point, Primitives.ecdsaRecover
        (keccak256 (legacySigning nonce gasPrice gasLimit t.receiver amount chainId)).val signature
        ((v - 35) % 2).toNat = some point ∧
      ∃ fee, U128.checkedMul (BitVec.ofNat 128 gasPrice.toNat) (BitVec.ofNat 128 gasLimit.toNat)
          = some fee ∧
        tx = { sender := ethereumAddress point, receiver := "0x" ++ hexEncode t.receiver, amount,
               fee, nonce, signature := "ethraw:" ++ hexEncode raw }

/-- A raw transaction is accepted for its nine strings: they fit, and the signed transfer is
accepted. -/
lemma decodeLegacy_eq_ok {rawHex : String} {chainId : UInt64} {tx : Transaction} :
    decodeLegacy rawHex chainId = .ok tx ↔
      ∃ raw f, hexDecode (trimStart0x rawHex) = some raw ∧
        Rlp.decodeList raw = .ok (LegacyStrings.list f) ∧ f.Fits ∧
        f.transfer.Grants chainId raw tx := by
  simp only [decodeLegacy, bind_eq_ok, okOr_eq_ok, ensure_eq_ok, pure_eq_ok, valueU64_eq_ok,
    valueU128_eq_ok, paddedScalar_eq_ok, and_assoc, exists_and_left, exists_eq_left, exists_const]
  constructor
  · rintro ⟨raw, hraw, fields, hfields, ⟨f0, f1, f2, f3, f4, f5, f6, f7, f8⟩, hnine, h0, h1, h2, h3,
      h4, h5, h6, hv, hchain, h7, h8, hsignature, point, hpoint, fee, hfee, htx⟩
    rw [legacyFields_eq_ok.mp hnine] at hfields
    refine ⟨raw, hraw, ⟨f0, f1, f2, f3, f4, f5, f6, f7, f8⟩, hfields,
      ⟨h0, h1, h2, h3, h4, h5, h6, h7, h8⟩, hv, hchain, hsignature, point, ?_, fee, hfee,
      htx.symm⟩
    rw [← hchain]
    exact hpoint
  · rintro ⟨raw, hraw, ⟨f0, f1, f2, f3, f4, f5, f6, f7, f8⟩, hfields,
      ⟨h0, h1, h2, h3, h4, h5, h6, h7, h8⟩, hv, hchain, hsignature, point, hpoint, fee, hfee, htx⟩
    rw [← hchain] at hpoint
    exact ⟨raw, hraw, _, hfields, ⟨f0, f1, f2, f3, f4, f5, f6, f7, f8⟩, legacyFields_eq_ok.mpr rfl,
      h0, h1, h2, h3, h4, h5, h6, hv, hchain, h7, h8, hsignature, point, hpoint, fee, hfee,
      htx.symm⟩

namespace SignedTransfer
variable {t : SignedTransfer} {chainId chainId' : UInt64} {raw raw' : Bytes} {tx tx' : Transaction}

/-- A signed transfer is accepted on one chain and stands for one ledger transaction there. -/
lemma Grants.unique (h : t.Grants chainId raw tx) (h' : t.Grants chainId' raw tx') : tx' = tx := by
  obtain ⟨-, hchain, -, point, hpoint, fee, hfee, rfl⟩ := h
  obtain ⟨-, hchain', -, point', hpoint', fee', hfee', rfl⟩ := h'
  obtain rfl := hchain.symm.trans hchain'
  obtain rfl := Option.some.inj (hpoint.symm.trans hpoint')
  obtain rfl := Option.some.inj (hfee.symm.trans hfee')
  rfl

/-- Whether it is accepted does not depend on how it is written. -/
lemma Grants.carry (h : t.Grants chainId raw tx) (raw' : Bytes) : ∃ tx', t.Grants chainId raw' tx' := by
  obtain ⟨hv, hchain, hsignature, point, hpoint, fee, hfee, -⟩ := h
  exact ⟨_, hv, hchain, hsignature, point, hpoint, fee, hfee, rfl⟩

end SignedTransfer

/-- The decoder takes the hex text of the raw transaction `raw` with the strings `f` for `tx`. -/
structure Accepted (rawHex : String) (chainId : UInt64) (raw : Bytes) (f : LegacyStrings)
    (tx : Transaction) : Prop where
  decodes : decodeLegacy rawHex chainId = .ok tx
  hex : hexDecode (trimStart0x rawHex) = some raw
  strings : Rlp.decodeList raw = .ok f.list

lemma Accepted.grants {rawHex : String} {chainId : UInt64} {raw : Bytes} {f : LegacyStrings}
    {tx : Transaction} (h : Accepted rawHex chainId raw f tx) :
    f.Fits ∧ f.transfer.Grants chainId raw tx := by
  obtain ⟨raw', f', hhex, hstrings, hfits, hgrants⟩ := decodeLegacy_eq_ok.mp h.decodes
  obtain rfl := Option.some.inj (h.hex.symm.trans hhex)
  obtain rfl := LegacyStrings.list_inj (Except.ok.inj (h.strings.symm.trans hstrings))
  exact ⟨hfits, hgrants⟩

/-- The canonical raw transaction of an accepted one is accepted too. -/
lemma Accepted.canonical {rawHex : String} {chainId : UInt64} {raw : Bytes} {f : LegacyStrings}
    {tx : Transaction} (h : Accepted rawHex chainId raw f tx) :
    ∃ tx', Accepted (hexEncode f.transfer.raw) chainId f.transfer.raw f.transfer.strings tx' ∧
      f.transfer.strings.transfer = f.transfer := by
  obtain ⟨hfits, hgrants⟩ := h.grants
  obtain ⟨hfits', htransfer⟩ := hfits.strings
  obtain ⟨tx', hgrants'⟩ := hgrants.carry f.transfer.raw
  have hhex : hexDecode (trimStart0x (hexEncode f.transfer.raw)) = some f.transfer.raw := by
    rw [trimStart0x_hexEncode, hexDecode_hexEncode]
  refine ⟨tx', ⟨?_, hhex, hfits'.decodeList⟩, htransfer⟩
  exact decodeLegacy_eq_ok.mpr
    ⟨_, _, hhex, hfits'.decodeList, hfits', htransfer.symm ▸ hgrants'⟩

/-- **Which encodings are the only ones.** A decoded list is encoded as it was read exactly when
no header in it is longer than needed. The integers of an accepted raw transaction are minimal
exactly when none starts with a zero byte, and a raw transaction is the only canonical one of its
signed transfer, with the only id, exactly when it is canonical itself. -/
theorem raw_transaction_canonical_iff :
    (∀ input values, Rlp.decodeList input = .ok values →
      (Rlp.encodeList (values.map Rlp.encodeBytes) = input ↔ Rlp.ShortestHeaders input)) ∧
    ∀ rawHex chainId raw f tx, Accepted rawHex chainId raw f tx →
      ((∀ value ∈ f.integers, Rlp.minimalBytes 32 (Rlp.beNat value) = value) ↔
        f.NoLeadingZero) ∧
      ((∀ rawHex' chainId' raw' f' tx', Accepted rawHex' chainId' raw' f' tx' →
          f'.transfer = f.transfer → Canonical raw' f' → raw' = raw ∧ tx'.id = tx.id) ↔
        Canonical raw f) := by
  refine ⟨fun input values => Rlp.encodeList_eq_iff, fun rawHex chainId raw f tx h => ?_⟩
  obtain ⟨hfits, hgrants⟩ := h.grants
  refine ⟨hfits.minimal_iff, fun hunique => ?_, fun hcanonical => ?_⟩
  · -- the encoder's own form is one of the others
    obtain ⟨tx', haccepted, htransfer⟩ := h.canonical
    have hform := canonical_raw hfits
    obtain ⟨hraw, -⟩ := hunique _ _ _ _ _ haccepted htransfer hform
    have hstrings := haccepted.strings
    rw [hraw, h.strings] at hstrings
    rw [hraw, ← LegacyStrings.list_inj (Except.ok.inj hstrings)] at hform
    exact hform
  · intro rawHex' chainId' raw' f' tx' h' htransfer hcanonical'
    obtain ⟨hfits', hgrants'⟩ := h'.grants
    have hraw : raw' = raw := by
      rw [hcanonical.raw_eq hfits h.strings, hcanonical'.raw_eq hfits' h'.strings, htransfer]
    rw [htransfer, hraw] at hgrants'
    exact ⟨hraw, congrArg Transaction.id (hgrants.unique hgrants')⟩

end

/-! ### Two spellings of the transfer of the key 1 -/

namespace KeyOne

attribute [local instance] primitives

/-- The scalar `r` without its zero byte. -/
def trimmed : Bytes := transfer.r.dropWhile (· == 0)

/-- The strings of the transfer, with `r` as it is written. -/
def strings (r : Bytes) : LegacyStrings :=
  ⟨[], [1], [0x52, 0x08], transfer.receiver, [100], [], [0xf4, 0xf6], r, transfer.s⟩

lemma accepted {r : Bytes} (hr : Written transfer.r r) :
    Accepted (hexEncode (transfer.raw r transfer.s)) 31337 (transfer.raw r transfer.s) (strings r)
      (transfer.transaction point r transfer.s) := by
  have hhex : hexDecode (trimStart0x (hexEncode (transfer.raw r transfer.s)))
      = some (transfer.raw r transfer.s) := by
    rw [trimStart0x_hexEncode, hexDecode_hexEncode]
  exact ⟨transfer.decodeLegacy_raw signedBy hr (.inl rfl) hhex, hhex,
    transfer.decodeList_raw hr (.inl rfl)⟩

/-- With its zero byte the scalar is not minimal, and there is another canonical raw transaction of
the signed transfer. -/
theorem raw_transaction_canonical_iff_padded :
    ¬ (strings transfer.r).NoLeadingZero ∧
      Rlp.minimalBytes 32 (Rlp.beNat transfer.r) ≠ transfer.r ∧
      ¬ Canonical (transfer.raw transfer.r transfer.s) (strings transfer.r) := by
  have hzero : ¬ (strings transfer.r).NoLeadingZero := fun h =>
    h transfer.r (by simp [strings, LegacyStrings.integers]) (by decide)
  have hiff := (raw_transaction_canonical_iff.2 _ _ _ _ _ (accepted (.inl rfl))).1
  refine ⟨hzero, fun hminimal => ?_, fun h => hzero h.2⟩
  apply hzero
  apply hiff.mp
  simp only [strings, LegacyStrings.integers, List.forall_mem_cons]
  exact ⟨by decide, by decide, by decide, by decide, by decide, hminimal, by decide,
    List.forall_mem_nil _⟩

/-- The byte 5 behind a needless header is decoded, and is written without it. Of the transfer
there are two raw transactions, and two ledger transactions that differ in what is hashed. -/
theorem decoding_not_canonical :
    (Rlp.decodeList [0xc2, 0x81, 0x05] = .ok [[0x05]] ∧
      Rlp.encodeList ([[0x05]].map Rlp.encodeBytes) ≠ [0xc2, 0x81, 0x05]) ∧
    ∃ tx tx', decodeLegacy (hexEncode (transfer.raw transfer.r transfer.s)) 31337 = .ok tx ∧
      decodeLegacy (hexEncode (transfer.raw trimmed transfer.s)) 31337 = .ok tx' ∧
      Rlp.minimalBytes 32 (Rlp.beNat transfer.r) ≠ transfer.r ∧
      tx' = { tx with signature := tx'.signature } ∧ tx'.signature ≠ tx.signature := by
  have hraw : transfer.raw trimmed transfer.s ≠ transfer.raw transfer.r transfer.s := by decide
  refine ⟨by decide, _, _, (accepted (.inl rfl)).decodes, (accepted (.inr rfl)).decodes, by decide,
    rfl, fun h => hraw ?_⟩
  -- the raw transaction is what stands behind the mark
  have hstrip := congrArg (stripPrefix · "ethraw:") h
  simp only [Eip155.transaction, stripPrefix_append] at hstrip
  exact hexEncode_inj (Option.some.inj hstrip)

end KeyOne

end IeumChain
