import IeumChain.Lib.ParseDecimal
import IeumChain.Lib.Result

/-!
# Amounts of coins (`main.rs`)

A user types an amount in coins, with at most 18 digits after the dot; the chain counts the units
of which 10^18 make a coin. `AmountText` says which texts are amounts and what they are worth, and
`parse_ieum_amount_exact` that `parse_ieum_amount` returns the units of exactly these.
-/

namespace IeumChain

open Lib

/-- `str::parse::<u128>`. -/
def parseU128 (s : String) : Option U128 := (parseDecimal 128 s).map (BitVec.ofNat 128)

/-- The fraction formatted as `0<18`: zeros after the digits, up to 18 characters. -/
def padFraction (fraction : String) : String :=
  String.ofList (fraction.toList.rightpad 18 '0')

/-- `parse_ieum_amount`. -/
def parseIeumAmount (value : String) : Result U128 := do
  let (whole, fraction) := (splitOnce value '.').getD (value, "")
  ensure (¬ (whole = "" ∨ 18 < textLen fraction ∨
      ¬ (textBytes whole).all Json.isDigit = true ∨
      ¬ (textBytes fraction).all Json.isDigit = true))
    "IEUM 금액은 소수점 이하 최대 18자리 숫자여야 합니다."
  let whole ← okOr (parseU128 whole) "IEUM 금액이 너무 큽니다."
  let fraction ← okOr (parseU128 (padFraction fraction)) "IEUM 소수 금액이 올바르지 않습니다."
  okOr ((U128.checkedMul whole (BitVec.ofNat 128 (10 ^ 18))).bind fun value =>
    U128.checkedAdd value fraction) "IEUM 금액이 너무 큽니다."

/-! ## What an amount is worth -/

/-- An amount as it is typed: some digits, and at most 18 more after the dot. -/
structure AmountText where
  whole : List Char
  fraction : List Char
  whole_ne_nil : whole ≠ []
  whole_digits : ∀ c ∈ whole, c.isDigit
  fraction_digits : ∀ c ∈ fraction, c.isDigit
  length_fraction_le : fraction.length ≤ 18

namespace AmountText

/-- Is the amount typed so? Without digits after the dot the dot may be missing. -/
def Spells (t : AmountText) (value : String) : Prop :=
  value.toList = t.whole ++ '.' :: t.fraction ∨ t.fraction = [] ∧ value.toList = t.whole

/-- The amount in coins. -/
def coins (t : AmountText) : ℚ :=
  Nat.ofDigitChars 10 t.whole 0 + Nat.ofDigitChars 10 t.fraction 0 / 10 ^ t.fraction.length

/-- The amount in units. -/
def units (t : AmountText) : ℕ :=
  Nat.ofDigitChars 10 t.whole 0 * 10 ^ 18 +
    10 ^ (18 - t.fraction.length) * Nat.ofDigitChars 10 t.fraction 0

lemma units_eq (t : AmountText) : (t.units : ℚ) = t.coins * 10 ^ 18 := by
  have hpower : (10 : ℚ) ^ 18 = 10 ^ (18 - t.fraction.length) * 10 ^ t.fraction.length := by
    rw [← pow_add, Nat.sub_add_cancel t.length_fraction_le]
  have hpos : (10 : ℚ) ^ t.fraction.length ≠ 0 := pow_ne_zero _ (by norm_num)
  rw [units, coins, Nat.cast_add, Nat.cast_mul, Nat.cast_mul, Nat.cast_pow, Nat.cast_pow, add_mul]
  congr 1
  rw [hpower, Nat.cast_ofNat]
  field_simp

lemma dot_notMem {cs : List Char} (h : ∀ c ∈ cs, c.isDigit) : '.' ∉ cs := by
  intro hdot
  exact absurd (h '.' hdot) (by decide)

/-! ## The parts of an amount -/

/-- The two parts the text is split into. -/
lemma Spells.parts {t : AmountText} {value : String} (h : t.Spells value) :
    (splitOnce value '.').getD (value, "") = (String.ofList t.whole, String.ofList t.fraction) := by
  rcases h with hdot | ⟨hnone, hwhole⟩
  · have hsplit : splitOnce value '.' = some (String.ofList t.whole, String.ofList t.fraction) := by
      rw [splitOnce_eq_some, String.toList_ofList, String.toList_ofList]
      exact ⟨dot_notMem t.whole_digits, hdot⟩
    rw [hsplit, Option.getD_some]
  · have hsplit : splitOnce value '.' = none :=
      splitOnce_of_notMem (hwhole ▸ dot_notMem t.whole_digits)
    rw [hsplit, Option.getD_none, hnone, ← hwhole, String.ofList_toList]

/-- Parts that pass the check are those of an amount. -/
lemma exists_spells {value whole fraction : String}
    (hparts : (splitOnce value '.').getD (value, "") = (whole, fraction))
    (hwhole : whole ≠ "") (hlength : textLen fraction ≤ 18)
    (hwholeDigits : (textBytes whole).all Json.isDigit = true)
    (hfractionDigits : (textBytes fraction).all Json.isDigit = true) :
    ∃ t : AmountText, t.Spells value := by
  rw [all_isDigit_textBytes] at hwholeDigits hfractionDigits
  rw [textLen_of_all_isDigit hfractionDigits] at hlength
  have hne : whole.toList ≠ [] := fun hnil => hwhole (String.toList_eq_nil_iff.mp hnil)
  refine ⟨⟨whole.toList, fraction.toList, hne, List.all_eq_true.mp hwholeDigits,
    List.all_eq_true.mp hfractionDigits, hlength⟩, ?_⟩
  cases hsplit : splitOnce value '.' with
  | none =>
    rw [hsplit, Option.getD_none, Prod.mk.injEq] at hparts
    obtain ⟨rfl, rfl⟩ := hparts
    exact .inr ⟨rfl, rfl⟩
  | some parts =>
    rw [hsplit, Option.getD_some] at hparts
    rw [hparts, splitOnce_eq_some] at hsplit
    exact .inl hsplit.2

/-! ## The conversions -/

/-- Digits as a 128-bit number, if it fits. -/
lemma parseU128_eq_some {cs : List Char} (hne : cs ≠ []) (hcs : ∀ c ∈ cs, c.isDigit) {a : U128} :
    parseU128 (String.ofList cs) = some a ↔ a.toNat = Nat.ofDigitChars 10 cs 0 := by
  rw [parseU128, Option.map_eq_some_iff]
  constructor
  · rintro ⟨n, hn, rfl⟩
    rw [parseDecimal_eq_some (by rwa [String.toList_ofList]) (by rwa [String.toList_ofList]),
      String.toList_ofList] at hn
    rw [BitVec.toNat_ofNat, Nat.mod_eq_of_lt hn.2, hn.1]
  · intro ha
    refine ⟨a.toNat, ?_, by rw [BitVec.ofNat_toNat, BitVec.setWidth_eq]⟩
    rw [parseDecimal_eq_some (by rwa [String.toList_ofList]) (by rwa [String.toList_ofList]),
      String.toList_ofList]
    exact ⟨ha, a.isLt⟩

/-- The padded fraction counts units and always fits. -/
lemma parse_padFraction (t : AmountText) : ∃ a : U128,
    parseU128 (padFraction (String.ofList t.fraction)) = some a ∧
      a.toNat = 10 ^ (18 - t.fraction.length) * Nat.ofDigitChars 10 t.fraction 0 := by
  have hdigits : ∀ c ∈ t.fraction.rightpad 18 '0', c.isDigit := by
    intro c hc
    rcases List.mem_append.mp hc with hc | hc
    · exact t.fraction_digits c hc
    · rw [List.eq_of_mem_replicate hc]
      rfl
  have hlength : (t.fraction.rightpad 18 '0').length = 18 := by
    rw [List.length_rightpad, Nat.max_eq_left t.length_fraction_le]
  have hne : t.fraction.rightpad 18 '0' ≠ [] := by
    intro hnil
    rw [hnil] at hlength
    cases hlength
  have hvalue : Nat.ofDigitChars 10 (t.fraction.rightpad 18 '0') 0
      = 10 ^ (18 - t.fraction.length) * Nat.ofDigitChars 10 t.fraction 0 := by
    rw [List.rightpad, Nat.ofDigitChars_append, Nat.ofDigitChars_replicate_zero]
  have hfits : Nat.ofDigitChars 10 (t.fraction.rightpad 18 '0') 0 < 2 ^ 128 := by
    have hlt := ofDigitChars_lt hdigits
    rw [hlength] at hlt
    omega
  refine ⟨BitVec.ofNat 128 (Nat.ofDigitChars 10 (t.fraction.rightpad 18 '0') 0), ?_, ?_⟩
  · rw [padFraction, String.toList_ofList, parseU128_eq_some hne hdigits, BitVec.toNat_ofNat,
      Nat.mod_eq_of_lt hfits]
  · rw [BitVec.toNat_ofNat, Nat.mod_eq_of_lt hfits, hvalue]

/-- A typed amount is parsed as its units, if they fit. -/
lemma Spells.parse {t : AmountText} {value : String} (h : t.Spells value) {amount : U128} :
    parseIeumAmount value = .ok amount ↔ amount.toNat = t.units := by
  have hcheck : ¬ (String.ofList t.whole = "" ∨ 18 < textLen (String.ofList t.fraction) ∨
      ¬ (textBytes (String.ofList t.whole)).all Json.isDigit = true ∨
      ¬ (textBytes (String.ofList t.fraction)).all Json.isDigit = true) := by
    have hwhole := List.all_eq_true.mpr t.whole_digits
    have hfraction : (String.ofList t.fraction).toList.all Char.isDigit = true := by
      rw [String.toList_ofList]
      exact List.all_eq_true.mpr t.fraction_digits
    rw [all_isDigit_textBytes, all_isDigit_textBytes, textLen_of_all_isDigit hfraction,
      String.toList_ofList, String.toList_ofList, ← String.toList_eq_nil_iff, String.toList_ofList]
    rintro (hnil | hlong | hdigit | hdigit)
    · exact t.whole_ne_nil hnil
    · exact absurd hlong (Nat.not_lt.mpr t.length_fraction_le)
    · exact hdigit hwhole
    · exact hdigit (List.all_eq_true.mpr t.fraction_digits)
  obtain ⟨fraction, hfraction, hunits⟩ := t.parse_padFraction
  have hscale : (BitVec.ofNat 128 (10 ^ 18)).toNat = 10 ^ 18 := rfl
  rw [parseIeumAmount, h.parts]
  simp only [bind_eq_ok, ensure_eq_ok, okOr_eq_ok, Option.bind_eq_some_iff, hfraction,
    parseU128_eq_some t.whole_ne_nil t.whole_digits, U128.checkedMul_eq_some,
    U128.checkedAdd_eq_some, hscale, units, ← hunits]
  constructor
  · rintro ⟨_, _, whole, hwhole, _, hsame, scaled, hscaled, hsum⟩
    rw [hsum, hscaled, hwhole, Option.some.inj hsame]
  · intro hamount
    -- a sum that fits has terms that fit
    have hlt := amount.isLt
    have hwhole : Nat.ofDigitChars 10 t.whole 0 < 2 ^ 128 := by omega
    have hscaled : Nat.ofDigitChars 10 t.whole 0 * 10 ^ 18 < 2 ^ 128 := by omega
    refine ⟨(), hcheck, BitVec.ofNat 128 (Nat.ofDigitChars 10 t.whole 0), ?_, fraction, rfl,
      BitVec.ofNat 128 (Nat.ofDigitChars 10 t.whole 0 * 10 ^ 18), ?_, ?_⟩
    · rw [BitVec.toNat_ofNat, Nat.mod_eq_of_lt hwhole]
    · rw [BitVec.toNat_ofNat, BitVec.toNat_ofNat, Nat.mod_eq_of_lt hwhole,
        Nat.mod_eq_of_lt hscaled]
    · rw [BitVec.toNat_ofNat, Nat.mod_eq_of_lt hscaled, hamount]

/-- Only typed amounts are parsed. -/
lemma exists_spells_of_parse {value : String} {amount : U128}
    (h : parseIeumAmount value = .ok amount) : ∃ t : AmountText, t.Spells value := by
  obtain ⟨⟨whole, fraction⟩, hparts⟩ : ∃ parts, (splitOnce value '.').getD (value, "") = parts :=
    ⟨_, rfl⟩
  rw [parseIeumAmount, hparts] at h
  simp only [bind_eq_ok, ensure_eq_ok] at h
  obtain ⟨_, hcheck, _⟩ := h
  push Not at hcheck
  obtain ⟨hwhole, hlength, hwholeDigits, hfractionDigits⟩ := hcheck
  exact exists_spells hparts hwhole hlength hwholeDigits hfractionDigits

end AmountText

/-- **Amounts parse exactly.** -/
theorem parse_ieum_amount_exact (value : String) (n : ℕ) :
    (∃ amount, parseIeumAmount value = .ok amount ∧ amount.toNat = n) ↔
      ∃ t : AmountText, t.Spells value ∧ t.coins * 10 ^ 18 = n ∧ n < 2 ^ 128 := by
  constructor
  · rintro ⟨amount, hparse, rfl⟩
    obtain ⟨t, ht⟩ := AmountText.exists_spells_of_parse hparse
    refine ⟨t, ht, ?_, amount.isLt⟩
    rw [← t.units_eq, ht.parse.mp hparse]
  · rintro ⟨t, ht, hn, hfits⟩
    have hunits : t.units = n := by
      rw [← t.units_eq] at hn
      exact_mod_cast hn
    have hamount : (BitVec.ofNat 128 n).toNat = n := by
      rw [BitVec.toNat_ofNat, Nat.mod_eq_of_lt hfits]
    exact ⟨BitVec.ofNat 128 n, ht.parse.mpr (hamount.trans hunits.symm), hamount⟩

/-- An empty fraction, zeros in front, and the largest amount. -/
example : parseIeumAmount "007." = .ok (7 * 10 ^ 18) ∧
    parseIeumAmount "340282366920938463463.374607431768211455" = .ok (BitVec.allOnes 128) ∧
    ¬ isOk (parseIeumAmount "340282366920938463463.374607431768211456") := by decide +kernel

end IeumChain
