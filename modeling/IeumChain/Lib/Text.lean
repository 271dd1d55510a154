import IeumChain.Lib.Bytes

/-!
# Text tests

The string tests of the standard library a program branches on, over the characters of a string
or over its bytes, with the behaviour their documentation gives.
-/

namespace Lib

/-- `str::starts_with`. -/
def startsWith (s pre : String) : Bool := pre.toList.isPrefixOf s.toList

/-- `str::ends_with`. -/
def endsWith (s post : String) : Bool := post.toList.isSuffixOf s.toList

/-- `str::strip_prefix`: what follows the prefix, if the text has it. -/
def stripPrefix (s pre : String) : Option String :=
  if startsWith s pre then some (String.ofList (s.toList.drop pre.toList.length)) else none

lemma startsWith_append (pre s : String) : startsWith (pre ++ s) pre = true := by
  rw [startsWith, String.toList_append, List.isPrefixOf_iff_prefix]
  exact List.prefix_append _ _

lemma stripPrefix_append (pre s : String) : stripPrefix (pre ++ s) pre = some s := by
  rw [stripPrefix, if_pos (startsWith_append pre s), String.toList_append, List.drop_left,
    String.ofList_toList]

lemma stripPrefix_eq_some {s pre rest : String} (h : stripPrefix s pre = some rest) :
    s = pre ++ rest := by
  unfold stripPrefix at h
  split at h
  next hstarts =>
    obtain ⟨tail, htail⟩ := List.isPrefixOf_iff_prefix.mp hstarts
    rw [← Option.some.inj h, ← htail, List.drop_left, ← String.toList_inj, String.toList_append,
      String.toList_ofList]
    exact htail.symm
  next => cases h

/-- The characters after every leading `0x`. -/
def trim0xChars : List Char → List Char
  | '0' :: 'x' :: rest => trim0xChars rest
  | cs => cs

/-- `str::trim_start_matches("0x")`: the prefix is removed as often as it occurs. -/
def trimStart0x (s : String) : String := String.ofList (trim0xChars s.toList)

lemma hexDigit_ne_x : ∀ n < 16, hexDigit n ≠ 'x' := by
  decide

lemma mem_hexEncode {bs : Bytes} {c : Char} (h : c ∈ (hexEncode bs).toList) :
    ∃ n < 16, c = hexDigit n := by
  rw [hexEncode, String.toList_ofList, List.mem_flatMap] at h
  obtain ⟨b, _, hc⟩ := h
  have hb := b.toNat_lt
  rcases List.mem_cons.mp hc with rfl | hc
  · exact ⟨b.toNat / 16, by omega, rfl⟩
  · exact ⟨b.toNat % 16, by omega, List.mem_singleton.mp hc⟩

/-- Hexadecimal text has no `0x` to remove. -/
lemma trimStart0x_hexEncode (bs : Bytes) : trimStart0x (hexEncode bs) = hexEncode bs := by
  cases bs with
  | nil => rfl
  | cons b bs =>
    have hx : hexDigit (b.toNat % 16) ≠ 'x' := hexDigit_ne_x _ (Nat.mod_lt _ (by decide))
    simp only [trimStart0x, hexEncode, List.flatMap_cons, hexPair, String.toList_ofList,
      List.cons_append, List.nil_append]
    rw [trim0xChars.eq_2]
    intro rest heq
    exact hx (List.cons.inj (List.cons.inj heq).2).1

lemma trimStart0x_append (s : String) : trimStart0x ("0x" ++ s) = trimStart0x s := by
  rw [trimStart0x, String.toList_append]
  rfl

/-- Hexadecimal text does not start with a text whose second character is no digit. -/
lemma startsWith_hexEncode {bs : Bytes} (a : Char) {b : Char} (rest : List Char)
    (h : ∀ n < 16, hexDigit n ≠ b) :
    startsWith (hexEncode bs) (String.ofList (a :: b :: rest)) = false := by
  cases bs with
  | nil => simp [startsWith, hexEncode]
  | cons c bs =>
    have hb : hexDigit (c.toNat % 16) ≠ b := h _ (Nat.mod_lt _ (by decide))
    simp [startsWith, hexEncode, hexPair, List.isPrefixOf, Ne.symm hb]

/-- `str::to_ascii_lowercase`. -/
def toAsciiLowercase (s : String) : String := String.ofList (s.toList.map Char.toLower)

lemma toLower_toLower (c : Char) : c.toLower.toLower = c.toLower := by
  unfold Char.toLower
  split
  next h =>
    rw [dif_neg]
    intro h'
    have hlow := UInt32.le_iff_toNat_le.mp h.1
    have hhigh := UInt32.le_iff_toNat_le.mp h'.2
    have hshift : ('a'.val - 'A'.val).toNat = 32 := rfl
    have hA : 'A'.val.toNat = 65 := rfl
    have hZ : 'Z'.val.toNat = 90 := rfl
    have htop := UInt32.le_iff_toNat_le.mp h.2
    simp only [UInt32.toNat_add] at hhigh
    omega
  next => rfl

lemma toLower_eq_x {c : Char} (h : c.toLower = 'x') : c = 'x' ∨ c = 'X' := by
  unfold Char.toLower at h
  split at h
  next hc =>
    right
    have hvalue := congrArg (fun c : Char => c.val.toNat) h
    have hshift : ('a'.val - 'A'.val).toNat = 32 := rfl
    have hx : 'x'.val.toNat = 120 := rfl
    have hX : 'X'.val.toNat = 88 := rfl
    have hZ : 'Z'.val.toNat = 90 := rfl
    have htop := UInt32.le_iff_toNat_le.mp hc.2
    simp only [UInt32.toNat_add] at hvalue
    apply Char.ext
    apply UInt32.toNat_inj.mp
    omega
  next => exact .inl h

lemma toAsciiLowercase_toAsciiLowercase (s : String) :
    toAsciiLowercase (toAsciiLowercase s) = toAsciiLowercase s := by
  simp only [toAsciiLowercase, String.toList_ofList, List.map_map, Function.comp_def,
    toLower_toLower]

/-- The lower-case letter of a hexadecimal digit is the one that its value is written with. -/
lemma toLower_of_hexValue {c : Char} {n : ℕ} (h : hexValue c = some n) :
    n < 16 ∧ c.toLower = hexDigit n := by
  have hdigits : ∀ k < 103, (hexValue (Char.ofNat k)).all fun n =>
      decide (n < 16 ∧ (Char.ofNat k).toLower = hexDigit n) := by
    decide
  have hc : c.toNat < 103 := by
    unfold hexValue at h
    split_ifs at h <;> omega
  have hdigit := hdigits c.toNat hc
  rw [Char.ofNat_toNat, h] at hdigit
  exact of_decide_eq_true hdigit

/-- A text that decodes is, in lower case, the encoding of what it decodes to. -/
lemma toAsciiLowercase_of_hexDecode {s : String} {bs : Bytes} (h : hexDecode s = some bs) :
    toAsciiLowercase s = hexEncode bs := by
  have hchars : ∀ (cs : List Char) (bs : Bytes), hexDecodeChars cs = some bs →
      cs.map Char.toLower = bs.flatMap hexPair := by
    intro cs
    fun_induction hexDecodeChars cs with
    | case1 =>
      rintro bs h
      obtain rfl : [] = bs := Option.some.inj h
      rfl
    | case2 => simp
    | case3 hi lo rest ih =>
      intro bs h
      simp only [Option.bind_eq_bind, Option.bind_eq_some_iff, Option.pure_def,
        Option.some.injEq] at h
      obtain ⟨x, hx, y, hy, bs', hrest, rfl⟩ := h
      obtain ⟨hx16, hhi⟩ := toLower_of_hexValue hx
      obtain ⟨hy16, hlo⟩ := toLower_of_hexValue hy
      have hbyte : (UInt8.ofNat (16 * x + y)).toNat = 16 * x + y := by
        rw [UInt8.toNat_ofNat']
        omega
      have hhigh : (16 * x + y) / 16 = x := by omega
      have hlow : (16 * x + y) % 16 = y := by omega
      rw [List.map_cons, List.map_cons, hhi, hlo, ih bs' hrest, List.flatMap_cons, hexPair, hbyte,
        hhigh, hlow, List.cons_append, List.cons_append, List.nil_append]
  rw [toAsciiLowercase, hexEncode, hchars _ _ h]

/-- Two texts that decode have the same bytes exactly when they differ in case alone. -/
lemma hexDecode_eq_iff {s t : String} (hs : (hexDecode s).isSome) (ht : (hexDecode t).isSome) :
    hexDecode s = hexDecode t ↔ toAsciiLowercase s = toAsciiLowercase t := by
  obtain ⟨as, has⟩ := Option.isSome_iff_exists.mp hs
  obtain ⟨bs, hbs⟩ := Option.isSome_iff_exists.mp ht
  rw [toAsciiLowercase_of_hexDecode has, toAsciiLowercase_of_hexDecode hbs, has, hbs,
    Option.some_inj]
  exact ⟨congrArg hexEncode, hexEncode_inj⟩

/-- `u8::is_ascii_hexdigit`. -/
def isAsciiHexDigit (b : UInt8) : Bool :=
  (48 ≤ b && b ≤ 57) || (65 ≤ b && b ≤ 70) || (97 ≤ b && b ≤ 102)

/-! ## Text without the letter x -/

/-- The letter x does not occur, in either case. So it is in hexadecimal text. -/
def NoX (s : String) : Prop := 'x' ∉ s.toList ∧ 'X' ∉ s.toList

lemma NoX.startsWith {s : String} (h : NoX s) : startsWith s "0x" = false := by
  rw [← Bool.not_eq_true, Lib.startsWith, List.isPrefixOf_iff_prefix]
  intro hpre
  exact h.1 (hpre.subset (by decide))

lemma NoX.trimStart0x {s : String} (h : NoX s) : trimStart0x s = s := by
  have hchars : trim0xChars s.toList = s.toList := by
    rw [trim0xChars.eq_2]
    intro rest heq
    exact h.1 (heq ▸ by simp)
  rw [Lib.trimStart0x, hchars, String.ofList_toList]

lemma NoX.toAsciiLowercase {s : String} (h : NoX s) : NoX (toAsciiLowercase s) := by
  simp only [NoX, Lib.toAsciiLowercase, String.toList_ofList]
  constructor
  · intro hmem
    obtain ⟨c, hc, hx⟩ := List.mem_map.mp hmem
    rcases toLower_eq_x hx with rfl | rfl
    · exact h.1 hc
    · exact h.2 hc
  · intro hmem
    obtain ⟨c, _, hX⟩ := List.mem_map.mp hmem
    have hlower := toLower_toLower c
    rw [hX] at hlower
    exact absurd hlower (by decide)

/-- Text that decodes as hexadecimal has no x. -/
lemma noX_of_hexDecode {s : String} {bs : Bytes} (h : hexDecode s = some bs) : NoX s := by
  have hdigits : ∀ (cs : List Char) (bs : Bytes), hexDecodeChars cs = some bs →
      ∀ c ∈ cs, hexValue c ≠ none := by
    intro cs
    fun_induction hexDecodeChars cs with
    | case1 => simp
    | case2 => simp
    | case3 hi lo rest ih =>
      intro bs h
      simp only [Option.bind_eq_bind, Option.bind_eq_some_iff, Option.pure_def,
        Option.some.injEq] at h
      obtain ⟨_, hhi, _, hlo, bs', hrest, _⟩ := h
      simp only [List.forall_mem_cons]
      exact ⟨by simp [hhi], by simp [hlo], ih bs' hrest⟩
  have hall := hdigits _ _ h
  exact ⟨fun hx => hall _ hx (by decide), fun hX => hall _ hX (by decide)⟩

/-- Text of hexadecimal bytes has no x. -/
lemma noX_of_all_hex {s : String} (h : (textBytes s).all isAsciiHexDigit = true) : NoX s := by
  have hbyte : ∀ (c : Char) (b : UInt8), String.utf8EncodeChar c = [b] → c ∈ s.toList →
      isAsciiHexDigit b = true := by
    intro c b hc hmem
    rw [← String.ofList_toList (s := s), textBytes_ofList, List.all_flatMap,
      List.all_eq_true] at h
    simpa [hc] using h c hmem
  exact ⟨fun hx => absurd (hbyte 'x' 0x78 (by decide) hx) (by decide),
    fun hX => absurd (hbyte 'X' 0x58 (by decide) hX) (by decide)⟩

/-! ## Hexadecimal text in lower case -/

/-- A character of which every byte is a hexadecimal digit is one byte, and so is its lower-case
form. -/
lemma utf8EncodeChar_toLower {c : Char}
    (h : (String.utf8EncodeChar c).all isAsciiHexDigit = true) :
    (String.utf8EncodeChar c.toLower).length = (String.utf8EncodeChar c).length ∧
      (String.utf8EncodeChar c.toLower).all isHexByte = true := by
  have hsmall : ∀ n : Fin 128, isAsciiHexDigit (UInt8.ofNat n) = true →
      (String.utf8EncodeChar (Char.ofNat n).toLower).length = 1 ∧
        (String.utf8EncodeChar (Char.ofNat n).toLower).all isHexByte = true := by
    decide
  -- the first byte of a longer encoding is above all letters
  have hhigh : ∀ n, 192 ≤ n → n < 256 → isAsciiHexDigit (UInt8.ofNat n) = false := by
    intro n hlow hn
    have hbyte : (UInt8.ofNat n).toNat = n := UInt8.toNat_ofNat_of_lt' hn
    simp only [isAsciiHexDigit, Bool.or_eq_false_iff, Bool.and_eq_false_iff,
      decide_eq_false_iff_not, UInt8.le_iff_toNat_le, hbyte, UInt8.reduceToNat]
    omega
  by_cases hc : c.toNat ≤ 127
  · have hone : String.utf8EncodeChar c = [UInt8.ofNat c.toNat] := if_pos hc
    rw [hone, List.all_cons, List.all_nil, Bool.and_true] at h
    have hlower := hsmall ⟨c.toNat, Nat.lt_succ_of_le hc⟩ h
    rw [Char.ofNat_toNat] at hlower
    rw [hone]
    exact hlower
  · exfalso
    unfold String.utf8EncodeChar at h
    dsimp only at h
    rw [if_neg (show ¬ c.val.toNat ≤ 0x7f from hc)] at h
    split_ifs at h <;> rw [List.all_cons, hhigh _ (by omega) (by omega)] at h <;> cases h

/-- Hexadecimal text in lower case has as many digits, all of them in lower case. -/
lemma hex_toAsciiLowercase {s : String} (h : (textBytes s).all isAsciiHexDigit = true) :
    textLen (toAsciiLowercase s) = textLen s ∧
      (textBytes (toAsciiLowercase s)).all isHexByte = true := by
  have hchars : ∀ cs : List Char, (cs.flatMap String.utf8EncodeChar).all isAsciiHexDigit = true →
      ((cs.map Char.toLower).flatMap String.utf8EncodeChar).length
          = (cs.flatMap String.utf8EncodeChar).length ∧
        ((cs.map Char.toLower).flatMap String.utf8EncodeChar).all isHexByte = true := by
    intro cs
    induction cs with
    | nil => exact fun _ => ⟨rfl, rfl⟩
    | cons c cs ih =>
      intro hall
      rw [List.flatMap_cons, List.all_append, Bool.and_eq_true] at hall
      obtain ⟨hlength, hhex⟩ := utf8EncodeChar_toLower hall.1
      obtain ⟨hrest, hrestHex⟩ := ih hall.2
      rw [List.map_cons, List.flatMap_cons, List.flatMap_cons, List.length_append,
        List.length_append, List.all_append, hlength, hrest, hhex, hrestHex]
      exact ⟨rfl, rfl⟩
  rw [← String.ofList_toList (s := s), textBytes_ofList] at h
  obtain ⟨hlength, hhex⟩ := hchars s.toList h
  have hself : textLen s = (s.toList.flatMap String.utf8EncodeChar).length := by
    rw [← textBytes_ofList, String.ofList_toList, textLen]
  rw [textLen, hself, toAsciiLowercase, textBytes_ofList]
  exact ⟨hlength, hhex⟩

/-- Text that decodes as hexadecimal has hexadecimal bytes. -/
lemma all_hex_of_hexDecode {s : String} {bs : Bytes} (h : hexDecode s = some bs) :
    (textBytes s).all isAsciiHexDigit = true := by
  have hdigit : ∀ {c : Char} {n : ℕ}, hexValue c = some n →
      (String.utf8EncodeChar c).all isAsciiHexDigit = true := by
    intro c n hc
    unfold hexValue at hc
    have hsmall : c.toNat ≤ 127 := by split_ifs at hc <;> omega
    have hone : String.utf8EncodeChar c = [UInt8.ofNat c.toNat] := if_pos hsmall
    have hbyte : (UInt8.ofNat c.toNat).toNat = c.toNat :=
      UInt8.toNat_ofNat_of_lt' (Nat.lt_succ_of_le (hsmall.trans (by decide)))
    rw [hone]
    simp only [List.all_cons, List.all_nil, isAsciiHexDigit, Bool.and_true, Bool.or_eq_true,
      Bool.and_eq_true, decide_eq_true_eq, UInt8.le_iff_toNat_le, hbyte, UInt8.reduceToNat]
    split_ifs at hc <;> omega
  have hchars : ∀ (cs : List Char) (bs : Bytes), hexDecodeChars cs = some bs →
      (cs.flatMap String.utf8EncodeChar).all isAsciiHexDigit = true := by
    intro cs
    fun_induction hexDecodeChars cs with
    | case1 => exact fun _ _ => rfl
    | case2 => simp
    | case3 hi lo rest ih =>
      intro bs h
      simp only [Option.bind_eq_bind, Option.bind_eq_some_iff, Option.pure_def,
        Option.some.injEq] at h
      obtain ⟨_, hhi, _, hlo, bs', hrest, _⟩ := h
      rw [List.flatMap_cons, List.flatMap_cons, List.all_append, List.all_append, hdigit hhi,
        hdigit hlo, ih bs' hrest]
      rfl
  rw [← String.ofList_toList (s := s), textBytes_ofList]
  exact hchars _ _ h

/-- `char::is_whitespace`: the Unicode `White_Space` property. -/
def isWhitespace (c : Char) : Bool :=
  let n := c.toNat
  (9 ≤ n && n ≤ 13) || n == 0x20 || n == 0x85 || n == 0xa0 || n == 0x1680 ||
    (0x2000 ≤ n && n ≤ 0x200a) || n == 0x2028 || n == 0x2029 || n == 0x202f || n == 0x205f ||
    n == 0x3000

/-- `str::trim`. -/
def trim (s : String) : String :=
  String.ofList ((s.toList.dropWhile isWhitespace).reverse.dropWhile isWhitespace).reverse

/-- A text without white space at its ends is kept. -/
lemma trim_of_forall {s : String} (h : ∀ c ∈ s.toList, isWhitespace c = false) : trim s = s := by
  have hkeep : ∀ l : List Char, (∀ c ∈ l, isWhitespace c = false) →
      l.dropWhile isWhitespace = l := by
    intro l hl
    cases l with
    | nil => rfl
    | cons c l => rw [List.dropWhile_cons_of_neg (by simp [hl c List.mem_cons_self])]
  rw [trim, hkeep _ h, hkeep _ fun c hc => h c (List.mem_reverse.mp hc), List.reverse_reverse,
    String.ofList_toList]

lemma textLen_trim_le (s : String) : textLen (trim s) ≤ textLen s := by
  have hsublist : ((s.toList.dropWhile isWhitespace).reverse.dropWhile isWhitespace).reverse.Sublist
      s.toList := by
    have hinner : ((s.toList.dropWhile isWhitespace).reverse.dropWhile isWhitespace).reverse.Sublist
        (s.toList.dropWhile isWhitespace).reverse.reverse := (List.dropWhile_sublist _).reverse
    rw [List.reverse_reverse] at hinner
    exact hinner.trans (List.dropWhile_sublist _)
  have hs : textBytes s = s.toList.flatMap String.utf8EncodeChar := by
    rw [← textBytes_ofList, String.ofList_toList]
  rw [textLen, textLen, trim, textBytes_ofList, hs]
  exact (hsublist.flatMap _).length_le

/-- `str::trim` leaves nothing. -/
def isBlank (s : String) : Bool := s.toList.all isWhitespace

/-! ## Lines -/

/-- A line that a line feed ended, without the carriage return before it. The characters stand in
reverse. -/
def dropReturn : List Char → List Char
  | '\r' :: rest => rest
  | cs => cs

/-- The lines of a text of which the characters in `current`, in reverse, are read already. What
follows the last line feed is a line when it is not empty, with the carriage return it may have. -/
def linesFrom (current : List Char) : List Char → List String
  | [] => if current = [] then [] else [String.ofList current.reverse]
  | c :: rest =>
    if c = '\n' then String.ofList (dropReturn current).reverse :: linesFrom [] rest
    else linesFrom (c :: current) rest

/-- `str::lines`. -/
def lines (s : String) : List String := linesFrom [] s.toList

/-- A text without line feed is one line. -/
lemma linesFrom_of_notMem {cs : List Char} (h : '\n' ∉ cs) : ∀ current : List Char,
    linesFrom current cs
      = if current = [] ∧ cs = [] then [] else [String.ofList (current.reverse ++ cs)] := by
  induction cs with
  | nil =>
    intro current
    simp [linesFrom]
  | cons c cs ih =>
    intro current
    rw [List.mem_cons, not_or] at h
    rw [linesFrom, if_neg (Ne.symm h.1), ih h.2]
    simp

/-- A line feed ends a line. -/
lemma linesFrom_append {cs : List Char} (h : '\n' ∉ cs) (rest : List Char) :
    ∀ current : List Char, linesFrom current (cs ++ '\n' :: rest)
      = String.ofList (dropReturn (cs.reverse ++ current)).reverse :: linesFrom [] rest := by
  induction cs with
  | nil =>
    intro current
    rfl
  | cons c cs ih =>
    intro current
    rw [List.mem_cons, not_or] at h
    rw [List.cons_append, linesFrom, if_neg (Ne.symm h.1), ih h.2]
    simp

/-- A line that ends in no carriage return is read back. -/
lemma lines_append {line : String} (h : '\n' ∉ line.toList) (hlast : line.toList.getLast? ≠ some '\r')
    (rest : String) : lines (line ++ "\n" ++ rest) = line :: lines rest := by
  have hkeep : dropReturn line.toList.reverse = line.toList.reverse := by
    rw [dropReturn.eq_2]
    intro tail heq
    rw [← List.head?_reverse, heq] at hlast
    exact hlast rfl
  have hchars : (line ++ "\n" ++ rest).toList = line.toList ++ '\n' :: rest.toList := by
    simp [String.toList_append]
  rw [lines, hchars, linesFrom_append h, List.append_nil, hkeep, List.reverse_reverse,
    String.ofList_toList, lines]

/-- What no line feed ended is the last line. -/
lemma lines_of_notMem {line : String} (h : '\n' ∉ line.toList) (hne : line ≠ "") :
    lines line = [line] := by
  have hchars : ¬ (([] : List Char) = [] ∧ line.toList = []) := fun hnil =>
    hne (String.toList_inj.mp hnil.2)
  rw [lines, linesFrom_of_notMem h, if_neg hchars, List.reverse_nil, List.nil_append,
    String.ofList_toList]

/-- `u8::is_ascii_alphanumeric`. -/
def isAsciiAlphanumeric (b : UInt8) : Bool :=
  (48 ≤ b && b ≤ 57) || (65 ≤ b && b ≤ 90) || (97 ≤ b && b ≤ 122)

end Lib
