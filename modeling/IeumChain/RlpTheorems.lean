import IeumChain.RawTransaction
import Mathlib.Data.List.TakeWhile

/-!
# The RLP codec reads back what it writes

Lengths and integers are written big-endian without leading zeros (`minimalBytes`). `decodeItem`
finds the header `encodeLength` wrote in front of a string or a list, short or long, and
`decodeList` returns the strings an encoded list was made of (`decodeList_encodeList`).
-/

namespace IeumChain

open Lib

namespace Rlp

/-! ## Integers -/

lemma foldl_beNat (l : Bytes) (acc : ℕ) :
    l.foldl (fun acc byte => acc * 256 + byte.toNat) acc = acc * 256 ^ l.length + beNat l := by
  induction l generalizing acc with
  | nil => simp [beNat]
  | cons b l ih =>
    rw [beNat, List.foldl_cons, List.foldl_cons, ih, ih (0 * 256 + b.toNat), List.length_cons]
    ring

lemma beNat_cons (b : UInt8) (l : Bytes) : beNat (b :: l) = b.toNat * 256 ^ l.length + beNat l := by
  rw [beNat, List.foldl_cons, foldl_beNat]
  simp

lemma beNat_beBytes (width n : ℕ) : beNat (beBytes width n) = n % 256 ^ width := by
  induction width with
  | zero => simp [beBytes, beNat, Nat.mod_one]
  | succ width ih =>
    rw [beBytes, beNat_cons, ih, length_beBytes, Nat.mod_pow_succ, UInt8.toNat_ofNat',
      Nat.mod_mod, Nat.mul_comm, Nat.add_comm]

/-- Leading zeros do not count. -/
lemma beNat_dropWhile (l : Bytes) : beNat (l.dropWhile (· == 0)) = beNat l := by
  induction l with
  | nil => rfl
  | cons b l ih =>
    by_cases hb : b = 0
    · rw [List.dropWhile_cons_of_pos (by simpa using hb), ih, beNat_cons, hb]
      simp
    · rw [List.dropWhile_cons_of_neg (by simpa using hb)]

/-- The big-endian bytes of an integer below `256 ^ width`, without leading zeros. -/
def minimalBytes (width n : ℕ) : Bytes := (beBytes width n).dropWhile (· == 0)

lemma length_minimalBytes (width n : ℕ) : (minimalBytes width n).length ≤ width :=
  (List.dropWhile_sublist _).length_le.trans (length_beBytes width n).le

lemma beNat_minimalBytes {width n : ℕ} (h : n < 256 ^ width) : beNat (minimalBytes width n) = n := by
  rw [minimalBytes, beNat_dropWhile, beNat_beBytes, Nat.mod_eq_of_lt h]

lemma minimalBytes_ne_nil {width n : ℕ} (h : n < 256 ^ width) (hn : n ≠ 0) :
    minimalBytes width n ≠ [] := by
  intro hnil
  have hvalue := beNat_minimalBytes h
  rw [hnil] at hvalue
  exact hn hvalue.symm

lemma minimalBytes_zero (width : ℕ) : minimalBytes width 0 = [] := by
  rw [minimalBytes, List.dropWhile_eq_nil_iff]
  intro b hb
  induction width with
  | zero => cases hb
  | succ width ih =>
    rw [beBytes, Nat.zero_div] at hb
    rcases List.mem_cons.mp hb with rfl | hb
    · rfl
    · exact ih hb

/-- Zero is not special: its minimal bytes are none. -/
lemma encodeNat_eq (width n : ℕ) : encodeNat width n = encodeBytes (minimalBytes width n) := by
  unfold encodeNat
  split
  next h => rw [h, minimalBytes_zero]
  next => rfl

/-! ## Headers -/

lemma encodeLength_short {n : ℕ} (short long : ℕ) (h : n ≤ 55) :
    encodeLength n short long = [UInt8.ofNat (short + n)] := if_pos h

lemma encodeLength_long {n : ℕ} (short long : ℕ) (h : ¬ n ≤ 55) :
    encodeLength n short long
      = UInt8.ofNat (long + (minimalBytes 8 n).length) :: minimalBytes 8 n := if_neg h

lemma length_encodeLength (n short long : ℕ) :
    0 < (encodeLength n short long).length ∧ (encodeLength n short long).length ≤ 9 := by
  by_cases h : n ≤ 55
  · rw [encodeLength_short _ _ h, List.length_singleton]
    omega
  · rw [encodeLength_long _ _ h, List.length_cons]
    have hlen := length_minimalBytes 8 n
    omega

lemma readLength_append {first : UInt8} {encoded : Bytes} (rest : Bytes)
    (hpos : encoded ≠ []) (hlen : encoded.length ≤ 8) :
    readLength (first :: (encoded ++ rest)) encoded.length = .ok (beNat encoded) := by
  rw [readLength, bind_eq_ok]
  refine ⟨(), ensure_eq_ok.mpr ⟨?_, hlen, ?_⟩, ?_⟩
  · exact fun h => hpos (List.length_eq_zero_iff.mp h)
  · rw [List.length_cons, List.length_append]
    omega
  · rw [List.drop_one, List.tail_cons, List.take_left, pure_eq_ok]

lemma toNat_ofNat_of_lt {n : ℕ} (h : n < 256) : (UInt8.ofNat n).toNat = n := by
  rw [UInt8.toNat_ofNat', Nat.mod_eq_of_lt h]

/-- The length written in front of a string is read back. -/
lemma itemHeader_string {n : ℕ} (hn : n < 2 ^ 64) (rest : Bytes) :
    itemHeader (encodeLength n 0x80 0xb7 ++ rest)
      = .ok (false, (encodeLength n 0x80 0xb7).length, n) := by
  by_cases h : n ≤ 55
  · rw [encodeLength_short _ _ h]
    simp only [itemHeader, List.singleton_append, List.head?_cons, okOr, bind, Except.bind,
      toNat_ofNat_of_lt (show 0x80 + n < 256 by omega)]
    rw [if_neg (by omega), if_pos (by omega), Nat.add_sub_cancel_left]
    rfl
  · have hlen := length_minimalBytes 8 n
    have hne : minimalBytes 8 n ≠ [] := minimalBytes_ne_nil hn (by omega)
    have hpos := List.length_pos_iff.mpr hne
    rw [encodeLength_long _ _ h]
    simp only [itemHeader, List.cons_append, List.head?_cons, okOr, bind, Except.bind,
      toNat_ofNat_of_lt (show 0xb7 + (minimalBytes 8 n).length < 256 by omega)]
    rw [if_neg (by omega), if_neg (by omega), if_pos (by omega), Nat.add_sub_cancel_left,
      readLength_append rest hne hlen, beNat_minimalBytes hn, List.length_cons, Nat.add_comm]
    rfl

/-- The length written in front of a list is read back. -/
lemma itemHeader_list {n : ℕ} (hn : n < 2 ^ 64) (rest : Bytes) :
    itemHeader (encodeLength n 0xc0 0xf7 ++ rest)
      = .ok (true, (encodeLength n 0xc0 0xf7).length, n) := by
  by_cases h : n ≤ 55
  · rw [encodeLength_short _ _ h]
    simp only [itemHeader, List.singleton_append, List.head?_cons, okOr, bind, Except.bind,
      toNat_ofNat_of_lt (show 0xc0 + n < 256 by omega)]
    rw [if_neg (by omega), if_neg (by omega), if_neg (by omega), if_pos (by omega),
      Nat.add_sub_cancel_left]
    rfl
  · have hlen := length_minimalBytes 8 n
    have hne : minimalBytes 8 n ≠ [] := minimalBytes_ne_nil hn (by omega)
    have hpos := List.length_pos_iff.mpr hne
    rw [encodeLength_long _ _ h]
    simp only [itemHeader, List.cons_append, List.head?_cons, okOr, bind, Except.bind,
      toNat_ofNat_of_lt (show 0xf7 + (minimalBytes 8 n).length < 256 by omega)]
    rw [if_neg (by omega), if_neg (by omega), if_neg (by omega), if_neg (by omega),
      Nat.add_sub_cancel_left, readLength_append rest hne hlen, beNat_minimalBytes hn,
      List.length_cons, Nat.add_comm]
    rfl

/-! ## Items -/

/-- Behind a header that announces it, the content is cut out. -/
lemma decodeItem_of_itemHeader {header content rest : Bytes} {isList : Bool}
    (hheader : itemHeader (header ++ (content ++ rest)) = .ok (isList, header.length, content.length))
    (hlen : header.length + content.length < 2 ^ 64) :
    decodeItem (header ++ (content ++ rest)) isList
      = .ok (content, header.length + content.length) := by
  have hfits : header.length + content.length ≤ (header ++ (content ++ rest)).length := by
    simp only [List.length_append]
    omega
  simp only [decodeItem, bind_eq_ok, hheader, ensure_eq_ok]
  refine ⟨_, rfl, (), rfl, (), hlen, (), hfits, ?_⟩
  rw [List.drop_left, List.take_left]
  rfl

/-- A byte below `0x80` is its own encoding; every other string stands behind its length. -/
lemma encodeBytes_cases (value : Bytes) :
    (∃ b : UInt8, b.toNat ≤ 0x7f ∧ value = [b] ∧ encodeBytes value = [b]) ∨
      encodeBytes value = encodeLength value.length 0x80 0xb7 ++ value := by
  fun_cases encodeBytes value with
  | case1 b hb => exact .inl ⟨b, Nat.le_of_lt_succ (UInt8.lt_iff_toNat_lt.mp hb), rfl, rfl⟩
  | case2 b hb => exact .inr rfl
  | case3 hne => exact .inr rfl

/-- The encoding of a string is decoded from the front of the input. -/
lemma decodeItem_encodeBytes {value : Bytes} (rest : Bytes)
    (hlen : (encodeBytes value).length < 2 ^ 64) :
    decodeItem (encodeBytes value ++ rest) false = .ok (value, (encodeBytes value).length) := by
  rcases encodeBytes_cases value with ⟨b, hb, rfl, hencode⟩ | hencode
  · have hheader : itemHeader ([] ++ ([b] ++ rest)) = .ok (false, ([] : Bytes).length, 1) := by
      simp only [itemHeader, List.nil_append, List.singleton_append, List.head?_cons, okOr, bind,
        Except.bind]
      rw [if_pos hb]
      rfl
    rw [hencode]
    exact decodeItem_of_itemHeader hheader (by simp)
  · rw [hencode, List.length_append] at hlen
    rw [hencode, List.append_assoc, List.length_append]
    exact decodeItem_of_itemHeader (itemHeader_string (by omega) _) hlen

lemma encodeBytes_ne_nil (value : Bytes) : encodeBytes value ≠ [] := by
  rcases encodeBytes_cases value with ⟨b, _, _, hencode⟩ | hencode
  · rw [hencode]
    exact List.cons_ne_nil _ _
  · intro h
    have hpos := (length_encodeLength value.length 0x80 0xb7).1
    rw [hencode] at h
    rw [(List.append_eq_nil_iff.mp h).1] at hpos
    exact absurd hpos (by decide)

/-- One string is taken off the front of a list's content. -/
lemma decodeItems_append {fuel : ℕ} {value rest : Bytes}
    (hlen : (encodeBytes value).length < 2 ^ 64) :
    decodeItems (fuel + 1) (encodeBytes value ++ rest)
      = (decodeItems fuel rest >>= fun values => .ok (value :: values)) := by
  have hitem := decodeItem_encodeBytes rest hlen
  have hdrop : (encodeBytes value ++ rest).drop (encodeBytes value).length = rest :=
    List.drop_left
  obtain ⟨b, bs, hcons⟩ := List.exists_cons_of_ne_nil (encodeBytes_ne_nil value)
  rw [hcons, List.cons_append] at hitem hdrop ⊢
  rw [decodeItems, hitem]
  simp only [bind, Except.bind] at hdrop ⊢
  rw [hdrop]
  rfl

/-- The strings of a list's content are read back, given a step for every byte. -/
lemma decodeItems_encode {values : List Bytes}
    (hlen : (values.map encodeBytes).flatten.length < 2 ^ 64) :
    ∀ {fuel : ℕ}, (values.map encodeBytes).flatten.length ≤ fuel →
      decodeItems fuel (values.map encodeBytes).flatten = .ok values := by
  induction values with
  | nil =>
    intro fuel _
    simp [decodeItems]
  | cons v values ih =>
    intro fuel hfuel
    rw [List.map_cons, List.flatten_cons, List.length_append] at hfuel hlen
    have hpos := List.length_pos_iff.mpr (encodeBytes_ne_nil v)
    obtain ⟨fuel, rfl⟩ : ∃ n, fuel = n + 1 := ⟨fuel - 1, by omega⟩
    rw [List.map_cons, List.flatten_cons, decodeItems_append (by omega), ih (by omega) (by omega)]
    rfl

lemma length_encodeBytes_le (value : Bytes) : (encodeBytes value).length ≤ value.length + 9 := by
  rcases encodeBytes_cases value with ⟨b, _, rfl, hencode⟩ | hencode
  · rw [hencode]
    simp
  · have hsize := (length_encodeLength value.length 0x80 0xb7).2
    rw [hencode, List.length_append]
    omega

/-- The content of a list of short strings is not long. -/
lemma length_flatten_encode_le {values : List Bytes} {n : ℕ} (h : ∀ v ∈ values, v.length ≤ n) :
    (values.map encodeBytes).flatten.length ≤ values.length * (n + 9) := by
  induction values with
  | nil => simp
  | cons v values ih =>
    obtain ⟨hv, hvalues⟩ := List.forall_mem_cons.mp h
    have hfirst := length_encodeBytes_le v
    have hrest := ih hvalues
    rw [List.map_cons, List.flatten_cons, List.length_append, List.length_cons, Nat.succ_mul]
    omega

lemma length_encodeList_le {values : List Bytes} {n : ℕ} (h : ∀ v ∈ values, v.length ≤ n) :
    (encodeList (values.map encodeBytes)).length ≤ values.length * (n + 9) + 9 := by
  have hcontent := length_flatten_encode_le h
  have hheader := (length_encodeLength (values.map encodeBytes).flatten.length 0xc0 0xf7).2
  rw [encodeList, List.length_append]
  omega

/-- **An encoded list is decoded to its strings.** -/
theorem decodeList_encodeList {values : List Bytes}
    (hlen : (encodeList (values.map encodeBytes)).length < 2 ^ 64) :
    decodeList (encodeList (values.map encodeBytes)) = .ok values := by
  rw [encodeList, List.length_append] at hlen
  have hitem := decodeItem_of_itemHeader
    (itemHeader_list (by omega) ((values.map encodeBytes).flatten ++ [])) hlen
  rw [List.append_nil] at hitem
  rw [decodeList, encodeList, hitem]
  simp only [bind, Except.bind]
  rw [ensure, if_pos (List.length_append.symm)]
  exact decodeItems_encode (by omega) le_rfl

end Rlp

end IeumChain
