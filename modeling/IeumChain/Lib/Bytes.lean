import Mathlib.Data.String.Basic
import Mathlib.Tactic

/-!
# Byte strings: text, big-endian integers, hexadecimal

The encodings a program concatenates into a hash or signature preimage, each with the fact that
makes it readable back:

* `textBytes`, the UTF-8 bytes of a string (injective, a homomorphism for concatenation);
* `beBytes`, fixed-width big-endian integers (injective below the width);
* concatenations of fields, which can be taken apart when the lengths of the fields are known
  (`flatMap_append_inj`);
* `pushText`, a text behind its 8-byte length (`pushText_append_inj`: it can be cut off the
  front of any byte string in one way only);
* `hexEncode` / `hexDecode`, hexadecimal text of a byte string.
-/

namespace Lib

/-- A byte string. -/
abbrev Bytes := List UInt8

/-! ## Text -/

/-- The UTF-8 bytes of a string. -/
def textBytes (s : String) : Bytes := s.toByteArray.data.toList

/-- The length of a text in bytes, as `str::len` counts it. -/
def textLen (s : String) : ℕ := (textBytes s).length

lemma textBytes_inj {s t : String} : textBytes s = textBytes t ↔ s = t := by
  unfold textBytes
  rw [Array.toList_inj, ← ByteArray.ext_iff, String.toByteArray_inj]

@[simp] lemma textBytes_append (s t : String) :
    textBytes (s ++ t) = textBytes s ++ textBytes t := by
  simp [textBytes, String.toByteArray_append]

lemma textBytes_ofList (cs : List Char) :
    textBytes (String.ofList cs) = cs.flatMap String.utf8EncodeChar := by
  rw [textBytes, String.toByteArray_ofList, List.utf8Encode, List.toList_data_toByteArray]

/-- The text whose UTF-8 bytes these are, if there is one. -/
def decodeText (bytes : Bytes) : Option String := String.fromUTF8? ⟨bytes.toArray⟩

lemma decodeText_eq_some {bytes : Bytes} {s : String} :
    decodeText bytes = some s ↔ textBytes s = bytes := by
  unfold decodeText String.fromUTF8? textBytes
  split
  next h =>
    rw [Option.some.injEq, ← String.toByteArray_inj, ByteArray.ext_iff, ← Array.toList_inj]
    exact eq_comm
  next h =>
    simp only [reduceCtorEq, false_iff]
    rintro rfl
    exact h s.isValidUTF8

@[simp] lemma decodeText_textBytes (s : String) : decodeText (textBytes s) = some s :=
  decodeText_eq_some.mpr rfl

/-! ## Big-endian integers -/

/-- The `width` low bytes of `n`, most significant first. -/
def beBytes : ℕ → ℕ → Bytes
  | 0, _ => []
  | width + 1, n => UInt8.ofNat (n / 256 ^ width % 256) :: beBytes width n

@[simp] lemma length_beBytes (width n : ℕ) : (beBytes width n).length = width := by
  induction width with
  | zero => rfl
  | succ width ih => rw [beBytes, List.length_cons, ih]

/-- Equal encodings have equal residues: the leading byte gives the top digit, the rest the
remainder. -/
lemma mod_eq_of_beBytes_eq {width m n : ℕ} (h : beBytes width m = beBytes width n) :
    m % 256 ^ width = n % 256 ^ width := by
  induction width with
  | zero => simp [Nat.mod_one]
  | succ width ih =>
    rw [beBytes, beBytes, List.cons.injEq] at h
    have htop := congrArg UInt8.toNat h.1
    simp only [UInt8.toNat_ofNat', Nat.reducePow, Nat.mod_mod] at htop
    rw [Nat.mod_pow_succ, Nat.mod_pow_succ, ih h.2, htop]

lemma beBytes_inj {width m n : ℕ} (hm : m < 256 ^ width) (hn : n < 256 ^ width)
    (h : beBytes width m = beBytes width n) : m = n := by
  have hmod := mod_eq_of_beBytes_eq h
  rwa [Nat.mod_eq_of_lt hm, Nat.mod_eq_of_lt hn] at hmod

/-- Big-endian 64-bit integers determine their value. -/
lemma beBytes_uint64_inj {a b : UInt64} (h : beBytes 8 a.toNat = beBytes 8 b.toNat) : a = b :=
  UInt64.toNat_inj.mp (beBytes_inj a.toNat_lt b.toNat_lt h)

/-- Big-endian 32-bit integers determine their value. -/
lemma beBytes_uint32_inj {a b : UInt32} (h : beBytes 4 a.toNat = beBytes 4 b.toNat) : a = b :=
  UInt32.toNat_inj.mp (beBytes_inj a.toNat_lt b.toNat_lt h)

/-- Big-endian 128-bit integers determine their value. -/
lemma beBytes_bitVec_inj {a b : BitVec 128} (h : beBytes 16 a.toNat = beBytes 16 b.toNat) :
    a = b :=
  BitVec.eq_of_toNat_eq (beBytes_inj a.isLt b.isLt h)

/-! ## Length-prefixed text -/

/-- A text behind its byte length in eight bytes. -/
def pushText (s : String) : Bytes := beBytes 8 (textLen s) ++ textBytes s

/-- The length of the text fits its eight-byte length field. Every string a machine holds does:
its length is a `usize`, and no allocation exceeds `isize::MAX` bytes. -/
def Fits (s : String) : Prop := textLen s < 2 ^ 64

instance (s : String) : Decidable (Fits s) := inferInstanceAs (Decidable (_ < _))

/-- Two byte strings that start with fields of the same length split alike. -/
lemma append_inj_of_length {a b r r' : Bytes} (hlen : a.length = b.length)
    (h : a ++ r = b ++ r') : a = b ∧ r = r' := List.append_inj h hlen

/-- Two concatenations of fields whose lengths agree one by one have the same fields. -/
lemma flatMap_append_inj {α : Type} {f g : α → Bytes} (len : α → ℕ)
    (hlen : ∀ a b, len a = len b → (f a).length = (g b).length)
    (hinj : ∀ a b, len a = len b → f a = g b → a = b) {r r' : Bytes} :
    ∀ {l l' : List α}, l.map len = l'.map len → l.flatMap f ++ r = l'.flatMap g ++ r' →
      l = l' ∧ (∀ a ∈ l, f a = g a) ∧ r = r' := by
  intro l
  induction l with
  | nil =>
    intro l' hlens h
    obtain rfl := List.map_eq_nil_iff.mp hlens.symm
    exact ⟨rfl, fun a ha => absurd ha List.not_mem_nil, h⟩
  | cons a l ih =>
    intro l' hlens h
    obtain ⟨b, l', rfl, hb, hl'⟩ := List.map_eq_cons_iff.mp hlens.symm
    rw [List.flatMap_cons, List.flatMap_cons, List.append_assoc, List.append_assoc] at h
    obtain ⟨hfield, hrest⟩ := append_inj_of_length (hlen a b hb.symm) h
    obtain rfl := hinj a b hb.symm hfield
    obtain ⟨rfl, hall, hr⟩ := ih hl'.symm hrest
    exact ⟨rfl, List.forall_mem_cons.mpr ⟨hfield, hall⟩, hr⟩

/-- A length-prefixed text is cut off the front of a byte string in one way. -/
lemma pushText_append_inj {s t : String} {r r' : Bytes} (hs : Fits s) (ht : Fits t)
    (h : pushText s ++ r = pushText t ++ r') : s = t ∧ r = r' := by
  unfold pushText at h
  rw [List.append_assoc, List.append_assoc] at h
  obtain ⟨hlen, hrest⟩ := append_inj_of_length (by simp) h
  have htext : textLen s = textLen t := beBytes_inj hs ht hlen
  obtain ⟨hbytes, hr⟩ := append_inj_of_length htext hrest
  exact ⟨textBytes_inj.mp hbytes, hr⟩

/-! ## Hexadecimal -/

/-- The lower-case digit of a value below 16. -/
def hexDigit (n : ℕ) : Char := if n < 10 then Char.ofNat (48 + n) else Char.ofNat (87 + n)

/-- The value of a hexadecimal digit, in either case. -/
def hexValue (c : Char) : Option ℕ :=
  if 48 ≤ c.toNat ∧ c.toNat ≤ 57 then some (c.toNat - 48)
  else if 97 ≤ c.toNat ∧ c.toNat ≤ 102 then some (c.toNat - 87)
  else if 65 ≤ c.toNat ∧ c.toNat ≤ 70 then some (c.toNat - 55)
  else none

/-- The two digits of a byte. -/
def hexPair (b : UInt8) : List Char := [hexDigit (b.toNat / 16), hexDigit (b.toNat % 16)]

/-- `hex::encode`: lower-case hexadecimal text. -/
def hexEncode (bs : Bytes) : String := String.ofList (bs.flatMap hexPair)

/-- The bytes of a list of hexadecimal digits, which must be even in number. -/
def hexDecodeChars : List Char → Option Bytes
  | [] => some []
  | [_] => none
  | hi :: lo :: rest => do
    let h ← hexValue hi
    let l ← hexValue lo
    let bs ← hexDecodeChars rest
    return UInt8.ofNat (16 * h + l) :: bs

/-- `hex::decode`: the bytes of a hexadecimal text, digits in either case. -/
def hexDecode (s : String) : Option Bytes := hexDecodeChars s.toList

lemma hexValue_hexDigit : ∀ n < 16, hexValue (hexDigit n) = some n := by
  decide

lemma hexDecode_hexEncode (bs : Bytes) : hexDecode (hexEncode bs) = some bs := by
  have hchars : ∀ bs : Bytes, hexDecodeChars (bs.flatMap hexPair) = some bs := by
    intro bs
    induction bs with
    | nil => rfl
    | cons b bs ih =>
      have hb := b.toNat_lt
      rw [List.flatMap_cons, hexPair, List.cons_append, List.cons_append, List.nil_append,
        hexDecodeChars, hexValue_hexDigit _ (by omega), hexValue_hexDigit _ (by omega), ih]
      simp only [Option.bind_eq_bind, Option.bind_some, Option.pure_def]
      have hsum : 16 * (b.toNat / 16) + b.toNat % 16 = b.toNat := Nat.div_add_mod _ _
      rw [hsum, UInt8.ofNat_toNat]
  rw [hexDecode, hexEncode, String.toList_ofList, hchars]

lemma hexEncode_inj {as bs : Bytes} (h : hexEncode as = hexEncode bs) : as = bs := by
  have hdecode := hexDecode_hexEncode as
  rw [h, hexDecode_hexEncode] at hdecode
  exact (Option.some.inj hdecode).symm

/-- A hexadecimal digit, in either case, is one byte of text. -/
lemma length_utf8EncodeChar_of_hexValue {c : Char} {n : ℕ} (h : hexValue c = some n) :
    (String.utf8EncodeChar c).length = 1 := by
  have hc : c.toNat ≤ 127 := by
    unfold hexValue at h
    split_ifs at h <;> omega
  have hsize : c.utf8Size = 1 := Char.utf8Size_eq_one_iff.mpr (UInt32.le_iff_toNat_le.mpr hc)
  rw [String.length_utf8EncodeChar, hsize]

/-- A text that decodes has two bytes per byte. -/
lemma textLen_of_hexDecode {s : String} {bs : Bytes} (h : hexDecode s = some bs) :
    textLen s = 2 * bs.length := by
  have hchars : ∀ (cs : List Char) (bs : Bytes), hexDecodeChars cs = some bs →
      (cs.flatMap String.utf8EncodeChar).length = 2 * bs.length := by
    intro cs
    fun_induction hexDecodeChars cs with
    | case1 => simp
    | case2 => simp
    | case3 hi lo rest ih =>
      intro bs h
      simp only [Option.bind_eq_bind, Option.bind_eq_some_iff, Option.pure_def,
        Option.some.injEq] at h
      obtain ⟨_, hhi, _, hlo, bs', hrest, rfl⟩ := h
      have hlen := ih bs' hrest
      simp only [List.flatMap_cons, List.length_append, List.length_cons, hlen,
        length_utf8EncodeChar_of_hexValue hhi, length_utf8EncodeChar_of_hexValue hlo]
      omega
  rw [textLen, ← String.ofList_toList (s := s), textBytes_ofList]
  exact hchars _ _ h

/-- Is the byte a lower-case hexadecimal digit? -/
def isHexByte (b : UInt8) : Bool := (48 ≤ b && b ≤ 57) || (97 ≤ b && b ≤ 102)

lemma utf8EncodeChar_hexDigit : ∀ n < 16, ∃ b : UInt8,
    String.utf8EncodeChar (hexDigit n) = [b] ∧ isHexByte b = true := by
  have h : ∀ n : Fin 16, ∃ b : UInt8,
      String.utf8EncodeChar (hexDigit n) = [b] ∧ isHexByte b = true := by
    intro n
    refine ⟨(String.utf8EncodeChar (hexDigit n)).headD 0, ?_⟩
    revert n
    decide
  intro n hn
  exact h ⟨n, hn⟩

/-- The two digits of a byte are two bytes of text, both hexadecimal. -/
lemma utf8_hexPair (b : UInt8) : ∃ hi lo : UInt8,
    (hexPair b).flatMap String.utf8EncodeChar = [hi, lo] ∧ isHexByte hi = true ∧
      isHexByte lo = true := by
  have hb := b.toNat_lt
  obtain ⟨hi, hhi, hihex⟩ := utf8EncodeChar_hexDigit (b.toNat / 16) (by omega)
  obtain ⟨lo, hlo, lohex⟩ := utf8EncodeChar_hexDigit (b.toNat % 16) (by omega)
  exact ⟨hi, lo, by simp [hexPair, hhi, hlo], hihex, lohex⟩

lemma textBytes_hexEncode_nil : textBytes (hexEncode []) = [] := by
  rw [hexEncode, textBytes_ofList]
  rfl

lemma textBytes_hexEncode_cons (b : UInt8) (bs : Bytes) :
    textBytes (hexEncode (b :: bs))
      = (hexPair b).flatMap String.utf8EncodeChar ++ textBytes (hexEncode bs) := by
  simp only [hexEncode, textBytes_ofList, List.flatMap_cons, List.flatMap_append]

/-- Hexadecimal text has two bytes per byte. -/
@[simp] lemma textLen_hexEncode (bs : Bytes) : textLen (hexEncode bs) = 2 * bs.length := by
  unfold textLen
  induction bs with
  | nil => rw [textBytes_hexEncode_nil]; rfl
  | cons b bs ih =>
    obtain ⟨hi, lo, hpair, -⟩ := utf8_hexPair b
    rw [textBytes_hexEncode_cons, hpair, List.length_append, ih]
    simp only [List.length_cons, List.length_nil]
    omega

/-- Every byte of a hexadecimal text is a lower-case digit. -/
lemma isHexByte_of_mem_hexEncode {bs : Bytes} {b : UInt8} (h : b ∈ textBytes (hexEncode bs)) :
    isHexByte b = true := by
  induction bs with
  | nil => rw [textBytes_hexEncode_nil] at h; cases h
  | cons a bs ih =>
    obtain ⟨hi, lo, hpair, hhi, hlo⟩ := utf8_hexPair a
    rw [textBytes_hexEncode_cons, hpair, List.mem_append] at h
    rcases h with h | h
    · rcases List.mem_cons.mp h with rfl | h
      · exact hhi
      · rw [List.mem_singleton.mp h]
        exact hlo
    · exact ih h

end Lib
