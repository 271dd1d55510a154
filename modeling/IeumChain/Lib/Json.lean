import IeumChain.Lib.Bytes

/-!
# JSON text of records

The compact JSON text a serializer writes for strings, integers and arrays, and the two facts
about it that a hash preimage relies on:

* `PrefixFree`: a text can be read back from the front. Strings end at their closing quote,
  integers at the delimiter that follows, arrays at their closing bracket, so the pieces of a
  record written one after the other determine the record.
* `Marker`: an automaton that looks for an opening brace followed by a quote and one given byte.
  No string contains that sequence, since a quote inside a string is escaped. A record that
  starts with it and has it nowhere else is therefore found again from the end of a longer text.
-/

namespace Lib

/-! ## Self-delimiting encodings -/

/-- The encoding of a value can be cut off the front of a byte string in one way. -/
def PrefixFree {α : Type} (enc : α → Bytes) : Prop :=
  ∀ ⦃a b : α⦄ ⦃r s : Bytes⦄, enc a ++ r = enc b ++ s → a = b ∧ r = s

namespace Json

/-- The byte as it stands in a JSON string: quotes, backslashes and control characters are
escaped, everything else is kept. -/
def escapeByte (b : UInt8) : Bytes :=
  if b = 0x22 then [0x5c, 0x22]
  else if b = 0x5c then [0x5c, 0x5c]
  else if b = 0x08 then [0x5c, 0x62]
  else if b = 0x09 then [0x5c, 0x74]
  else if b = 0x0a then [0x5c, 0x6e]
  else if b = 0x0c then [0x5c, 0x66]
  else if b = 0x0d then [0x5c, 0x72]
  else if b < 0x20 then [0x5c, 0x75, 0x30, 0x30] ++ textBytes (hexEncode [b])
  else [b]

/-- The content of a JSON string, without its quotes. -/
def escaped (bs : Bytes) : Bytes := bs.flatMap escapeByte

/-- A JSON string. -/
def quoted (s : String) : Bytes := 0x22 :: (escaped (textBytes s) ++ [0x22])

/-- A JSON integer. -/
def decimal (n : ℕ) : Bytes := textBytes (toString n)

/-- The elements of an array after the first, and its closing bracket. -/
def arrayTail {α : Type} (enc : α → Bytes) : List α → Bytes
  | [] => [0x5d]
  | a :: l => 0x2c :: (enc a ++ arrayTail enc l)

/-- A JSON array. -/
def array {α : Type} (enc : α → Bytes) : List α → Bytes
  | [] => [0x5b, 0x5d]
  | a :: l => 0x5b :: (enc a ++ arrayTail enc l)

/-! ## Strings -/

/-- A byte is kept, when it is no quote, or stands behind a backslash, with no brace in sight. -/
lemma escapeByte_cases (b : UInt8) :
    (escapeByte b = [b] ∧ b ≠ 0x22) ∨ ∃ t, escapeByte b = 0x5c :: t ∧ 0x7b ∉ t := by
  fun_cases escapeByte b with
  | case8 =>
    refine Or.inr ⟨_, rfl, ?_⟩
    have hhex : (0x7b : UInt8) ∉ textBytes (hexEncode [b]) := fun hmem =>
      absurd (isHexByte_of_mem_hexEncode hmem) (by decide)
    intro hmem
    rcases List.mem_append.mp hmem with hmem | hmem
    · exact absurd hmem (by decide)
    · exact hhex hmem
  | case9 hquote => exact Or.inl ⟨rfl, hquote⟩
  | _ => exact Or.inr ⟨_, rfl, by decide⟩

/-- No escaped byte starts with a quote. -/
lemma escapeByte_head (b : UInt8) : ∃ c t, escapeByte b = c :: t ∧ c ≠ 0x22 := by
  rcases escapeByte_cases b with ⟨h, hb⟩ | ⟨t, h, -⟩
  · exact ⟨b, [], h, hb⟩
  · exact ⟨0x5c, t, h, by decide⟩

/-- The byte at the front of a string's content, read back from its escaped form. -/
def unescape : Bytes → Option UInt8
  | [] => none
  | b :: rest =>
    if b ≠ 0x5c then some b
    else match rest with
      | 0x62 :: _ => some 0x08
      | 0x74 :: _ => some 0x09
      | 0x6e :: _ => some 0x0a
      | 0x66 :: _ => some 0x0c
      | 0x72 :: _ => some 0x0d
      | 0x75 :: _ :: _ :: hi :: lo :: _ =>
        some (UInt8.ofNat (16 * (hi.toNat - 48) + (lo.toNat - if lo < 58 then 48 else 87)))
      | c :: _ => some c
      | [] => none

lemma unescape_control : ∀ n : Fin 32, ∃ hi lo : UInt8,
    textBytes (hexEncode [UInt8.ofNat n]) = [hi, lo] ∧
      16 * (hi.toNat - 48) + (lo.toNat - if lo < 58 then 48 else 87) = n.val := by
  intro n
  refine ⟨(textBytes (hexEncode [UInt8.ofNat n])).headD 0,
    ((textBytes (hexEncode [UInt8.ofNat n])).drop 1).headD 0, ?_⟩
  revert n
  decide

lemma unescape_escapeByte (b : UInt8) (r : Bytes) : unescape (escapeByte b ++ r) = some b := by
  fun_cases escapeByte b with
  | case8 _ _ _ _ _ _ _ hcontrol =>
    have hlt : b.toNat < 32 := UInt8.lt_iff_toNat_lt.mp hcontrol
    obtain ⟨hi, lo, htext, hval⟩ := unescape_control ⟨b.toNat, hlt⟩
    simp only [UInt8.ofNat_toNat] at htext hval
    rw [htext]
    show some (UInt8.ofNat (16 * (hi.toNat - 48) + (lo.toNat - if lo < 58 then 48 else 87)))
      = some b
    rw [hval, UInt8.ofNat_toNat]
  | case9 _ hslash => exact if_pos hslash
  | _ =>
    subst b
    rfl

lemma prefixFree_escapeByte : PrefixFree escapeByte := by
  intro a b r s h
  have hab : a = b := by
    have hread := congrArg unescape h
    rwa [unescape_escapeByte, unescape_escapeByte, Option.some.injEq] at hread
  subst hab
  exact ⟨rfl, List.append_cancel_left h⟩

/-- The content of a string ends at the first quote that is not escaped. -/
lemma escaped_append_quote_inj {as bs r s : Bytes}
    (h : escaped as ++ 0x22 :: r = escaped bs ++ 0x22 :: s) : as = bs ∧ r = s := by
  induction as generalizing bs with
  | nil =>
    cases bs with
    | nil => exact ⟨rfl, (List.cons.inj h).2⟩
    | cons b bs =>
      obtain ⟨c, t, hb, hc⟩ := escapeByte_head b
      simp only [escaped, List.flatMap_nil, List.nil_append, List.flatMap_cons, hb,
        List.cons_append, List.cons.injEq] at h
      exact absurd h.1.symm hc
  | cons a as ih =>
    cases bs with
    | nil =>
      obtain ⟨c, t, ha, hc⟩ := escapeByte_head a
      simp only [escaped, List.flatMap_nil, List.nil_append, List.flatMap_cons, ha,
        List.cons_append, List.cons.injEq] at h
      exact absurd h.1 hc
    | cons b bs =>
      simp only [escaped, List.flatMap_cons, List.append_assoc] at h
      obtain ⟨hab, hrest⟩ := prefixFree_escapeByte h
      obtain ⟨hs, hr⟩ := ih (by simpa only [escaped] using hrest)
      exact ⟨by rw [hab, hs], hr⟩

theorem prefixFree_quoted : PrefixFree quoted := by
  intro a b r s h
  simp only [quoted, List.cons_append, List.append_assoc, List.nil_append, List.cons.injEq,
    true_and] at h
  obtain ⟨hab, hr⟩ := escaped_append_quote_inj h
  exact ⟨textBytes_inj.mp hab, hr⟩

/-! ## Integers -/

/-- Is the byte a decimal digit? -/
def isDigit (b : UInt8) : Bool := 48 ≤ b && b ≤ 57

/-- Every byte of an integer is a digit. -/
lemma isDigit_of_mem_decimal {n : ℕ} {b : UInt8} (h : b ∈ decimal n) : isDigit b = true := by
  have hdigit : ∀ c : Char, c.isDigit = true →
      ∃ b : UInt8, String.utf8EncodeChar c = [b] ∧ isDigit b = true := by
    intro c hc
    have hall : ∀ k : Fin 10, String.utf8EncodeChar (Char.ofNat (48 + k)) = [UInt8.ofNat (48 + k)] ∧
        isDigit (UInt8.ofNat (48 + k)) = true := by decide
    have hrange : 48 ≤ c.toNat ∧ c.toNat ≤ 57 := by
      simp only [Char.isDigit, Bool.and_eq_true, decide_eq_true_eq, ge_iff_le] at hc
      exact ⟨by simpa using UInt32.le_iff_toNat_le.mp hc.1,
        by simpa using UInt32.le_iff_toNat_le.mp hc.2⟩
    have hc' : c = Char.ofNat (48 + (c.toNat - 48)) := by
      rw [show 48 + (c.toNat - 48) = c.toNat by omega, Char.ofNat_toNat]
    have hk := hall ⟨c.toNat - 48, by omega⟩
    simp only at hk
    rw [← hc'] at hk
    exact ⟨_, hk.1, hk.2⟩
  have htext : decimal n = (Nat.toDigits 10 n).flatMap String.utf8EncodeChar := by
    rw [decimal, Nat.toString_eq_ofList_toDigits, textBytes_ofList]
  rw [htext, List.mem_flatMap] at h
  obtain ⟨c, hc, hb⟩ := h
  obtain ⟨d, hd, hdig⟩ := hdigit c (Nat.isDigit_of_mem_toDigits (by omega) (by omega) hc)
  rw [hd, List.mem_singleton] at hb
  rw [hb]
  exact hdig

lemma takeWhile_decimal (n : ℕ) {c : UInt8} (hc : isDigit c = false) (r : Bytes) :
    (decimal n ++ c :: r).takeWhile isDigit = decimal n := by
  rw [List.takeWhile_append_of_pos (fun b hb => isDigit_of_mem_decimal hb),
    List.takeWhile_cons_of_neg (by rw [hc]; exact Bool.false_ne_true), List.append_nil]

lemma decimal_inj {m n : ℕ} (h : decimal m = decimal n) : m = n := by
  have hdigits : Nat.toDigits 10 m = Nat.toDigits 10 n := by
    have htext : toString m = toString n := textBytes_inj.mp h
    rw [Nat.toString_eq_ofList_toDigits, Nat.toString_eq_ofList_toDigits] at htext
    exact String.ofList_injective htext
  rw [← Nat.ofDigitChars_ten_toDigits (n := m), hdigits, Nat.ofDigitChars_ten_toDigits]

/-- An integer ends where its digits do. -/
lemma decimal_append_inj {m n : ℕ} {c : UInt8} (hc : isDigit c = false) {r s : Bytes}
    (h : decimal m ++ c :: r = decimal n ++ c :: s) : m = n ∧ r = s := by
  have hdigits := congrArg (List.takeWhile isDigit) h
  rw [takeWhile_decimal m hc, takeWhile_decimal n hc] at hdigits
  have hmn := decimal_inj hdigits
  subst hmn
  exact ⟨rfl, (List.cons.inj (List.append_cancel_left h)).2⟩

/-! ## Arrays -/

/-- The encodings of an element type that start with an opening brace. -/
def IsObject {α : Type} (enc : α → Bytes) : Prop := ∀ a, ∃ t, enc a = 0x7b :: t

lemma prefixFree_arrayTail {α : Type} {enc : α → Bytes} (h : PrefixFree enc) :
    PrefixFree (arrayTail enc) := by
  intro l
  induction l with
  | nil =>
    intro l' r s heq
    cases l' with
    | nil => exact ⟨rfl, (List.cons.inj heq).2⟩
    | cons b l' => exact absurd (List.cons.inj heq).1 (by decide)
  | cons a l ih =>
    intro l' r s heq
    cases l' with
    | nil => exact absurd (List.cons.inj heq).1 (by decide)
    | cons b l' =>
      simp only [arrayTail, List.cons_append, List.append_assoc, List.cons.injEq, true_and] at heq
      obtain ⟨hab, hrest⟩ := h heq
      obtain ⟨hl, hr⟩ := ih hrest
      exact ⟨by rw [hab, hl], hr⟩

theorem prefixFree_array {α : Type} {enc : α → Bytes} (h : PrefixFree enc)
    (hobj : IsObject enc) : PrefixFree (array enc) := by
  intro l l' r s heq
  cases l with
  | nil =>
    cases l' with
    | nil => exact ⟨rfl, List.append_cancel_left heq⟩
    | cons b l' =>
      -- the empty array closes where the other one opens an object
      obtain ⟨t, ht⟩ := hobj b
      rw [array, array, ht] at heq
      exact absurd (List.cons.inj (List.cons.inj heq).2).1 (by decide)
  | cons a l =>
    cases l' with
    | nil =>
      obtain ⟨t, ht⟩ := hobj a
      rw [array, array, ht] at heq
      exact absurd (List.cons.inj (List.cons.inj heq).2).1 (by decide)
    | cons b l' =>
      simp only [array, List.cons_append, List.append_assoc, List.cons.injEq, true_and] at heq
      obtain ⟨hab, hrest⟩ := h heq
      obtain ⟨hl, hr⟩ := prefixFree_arrayTail h hrest
      exact ⟨by rw [hab, hl], hr⟩

/-! ## Finding a record from its end -/

/-- How much of the sequence opening brace, quote, `key` has just been read. -/
inductive Marker where
  | clear
  | brace
  | braceQuote
  | found
deriving DecidableEq

namespace Marker

/-- Read one byte. A sequence once found stays found. -/
def step (key : UInt8) : Marker → UInt8 → Marker
  | .found, _ => .found
  | .braceQuote, b => if b = key then .found else if b = 0x7b then .brace else .clear
  | .brace, b => if b = 0x22 then .braceQuote else if b = 0x7b then .brace else .clear
  | .clear, b => if b = 0x7b then .brace else .clear

/-- Read a byte string. -/
def run (key : UInt8) (q : Marker) (bs : Bytes) : Marker := bs.foldl (step key) q

variable {key : UInt8}

@[simp] lemma run_nil (q : Marker) : run key q [] = q := rfl

@[simp] lemma run_cons (q : Marker) (b : UInt8) (bs : Bytes) :
    run key q (b :: bs) = run key (step key q b) bs := rfl

lemma run_append (q : Marker) (as bs : Bytes) :
    run key q (as ++ bs) = run key (run key q as) bs := List.foldl_append

lemma run_found (bs : Bytes) : run key .found bs = .found := by
  induction bs with
  | nil => rfl
  | cons b bs ih => exact ih

/-- The sequence is found wherever it stands. -/
lemma run_marker (q : Marker) (hkey : key ≠ 0x7b) (bs : Bytes) :
    run key q (0x7b :: 0x22 :: key :: bs) = .found := by
  have hbrace : step key q 0x7b = .found ∨ step key q 0x7b = .brace := by
    cases q with
    | clear => exact .inr rfl
    | brace => exact .inr rfl
    | braceQuote => exact .inr (if_neg hkey.symm)
    | found => exact .inl rfl
  rw [run_cons]
  rcases hbrace with h | h
  · rw [h, run_found]
  · rw [h, run_cons, run_cons]
    simp only [step, if_true]
    exact run_found bs

/-- Without a brace nothing is begun. -/
lemma run_clear {bs : Bytes} (h : 0x7b ∉ bs) : run key .clear bs = .clear := by
  induction bs with
  | nil => rfl
  | cons b bs ih =>
    rw [List.mem_cons, not_or] at h
    rw [run_cons, step, if_neg (Ne.symm h.1)]
    exact ih h.2

/-- Inside a string no quote stands unescaped, so the automaton gets no further than a brace. -/
lemma run_escaped (bs : Bytes) {q : Marker} (hq : q = .clear ∨ q = .brace) :
    run key q (escaped bs) = .clear ∨ run key q (escaped bs) = .brace := by
  induction bs generalizing q with
  | nil => exact hq
  | cons b bs ih =>
    rw [escaped, List.flatMap_cons, run_append]
    apply ih
    rcases escapeByte_cases b with ⟨h, hb⟩ | ⟨t, h, ht⟩
    · rw [h, run_cons, run_nil]
      rcases hq with rfl | rfl
      · simp only [step]
        split <;> simp
      · simp only [step, if_neg hb]
        split <;> simp
    · have hslash : step key q 0x5c = .clear := by
        rcases hq with rfl | rfl <;> rfl
      rw [h, run_cons, hslash, run_clear ht]
      exact Or.inl rfl

/-- After a string and a delimiter nothing is begun. -/
lemma run_quoted (s : String) {c : UInt8} (hc : c = 0x2c ∨ c = 0x7d) (hkey : c ≠ key)
    (r : Bytes) : run key .clear (quoted s ++ c :: r) = run key .clear r := by
  rw [quoted, List.cons_append, run_cons, List.append_assoc, run_append]
  have hopen : step key .clear 0x22 = .clear := rfl
  have hend : ∀ q : Marker, q = .clear ∨ q = .brace →
      run key q ([0x22] ++ c :: r) = run key .clear r := by
    intro q hq
    rw [List.singleton_append, run_cons, run_cons]
    rcases hq with rfl | rfl <;> rcases hc with rfl | rfl <;> simp [step, hkey]
  rw [hopen]
  exact hend _ (run_escaped _ (Or.inl rfl))

/-- Integers contain no brace. -/
lemma run_decimal (n : ℕ) (r : Bytes) :
    run key .clear (decimal n ++ r) = run key .clear r := by
  rw [run_append, run_clear]
  intro h
  exact absurd (isDigit_of_mem_decimal h) (by decide)

/-- An array whose elements leave nothing begun leaves nothing begun. -/
lemma run_array {α : Type} {enc : α → Bytes}
    (h : ∀ a r, run key .clear (enc a ++ r) = run key .clear r) (l : List α) (r : Bytes) :
    run key .clear (array enc l ++ r) = run key .clear r := by
  have htail : ∀ l : List α, run key .clear (arrayTail enc l ++ r) = run key .clear r := by
    intro l
    induction l with
    | nil => rfl
    | cons a l ih =>
      rw [arrayTail, List.cons_append, run_cons, List.append_assoc]
      exact (h a _).trans ih
  cases l with
  | nil => rfl
  | cons a l =>
    rw [array, List.cons_append, run_cons, List.append_assoc]
    exact (h a _).trans (htail l)

end Marker

/-- A text that starts with the sequence and has it nowhere else. -/
structure IsRecord (key : UInt8) (x : Bytes) : Prop where
  starts : ∃ t, x = 0x7b :: 0x22 :: key :: t
  once : Marker.run key .clear x.tail ≠ .found

/-- A record at the end of a text that ends with a record is that record. -/
lemma IsRecord.eq_of_append {key : UInt8} (hkey : key ≠ 0x7b) {c x y : Bytes}
    (hx : IsRecord key x) (hy : IsRecord key y) (h : x = c ++ y) : c = [] := by
  cases c with
  | nil => rfl
  | cons b c =>
    obtain ⟨t, ht⟩ := hy.starts
    have hfound : Marker.run key .clear x.tail = .found := by
      rw [h, List.cons_append, List.tail_cons, Marker.run_append, ht]
      exact Marker.run_marker _ hkey t
    exact absurd hfound hx.once

/-- A record is found again from the end of a text, whatever precedes it. -/
theorem IsRecord.append_inj {key : UInt8} (hkey : key ≠ 0x7b) {u v x y : Bytes}
    (hx : IsRecord key x) (hy : IsRecord key y) (h : u ++ x = v ++ y) : u = v ∧ x = y := by
  rcases List.append_eq_append_iff.mp h with ⟨c, hv, hxy⟩ | ⟨c, hu, hyx⟩
  · have hc := hx.eq_of_append hkey hy hxy
    subst hc
    rw [List.append_nil] at hv
    exact ⟨hv.symm, hxy⟩
  · have hc := hy.eq_of_append hkey hx hyx
    subst hc
    rw [List.append_nil] at hu
    exact ⟨hu, hyx.symm⟩

end Json
end Lib
