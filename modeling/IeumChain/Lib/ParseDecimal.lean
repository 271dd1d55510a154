import IeumChain.Lib.Decimal
import IeumChain.Lib.Json
import IeumChain.Lib.Text
import Mathlib.Data.List.TakeWhile

/-!
# Reading decimal numbers

`str::split_once` for one character, `str::parse` for unsigned types and the test whether all bytes
of a text are ASCII digits, with what they return on digits: the number the digits spell, as long as
it fits the type (`parseDecimal_eq_some`).
-/

namespace Lib

/-! ## Splitting -/

/-- `str::split_once`: what stands before and after the first separator. -/
def splitOnce (s : String) (separator : Char) : Option (String × String) :=
  match s.toList.dropWhile (· ≠ separator) with
  | [] => none
  | _ :: rest => some (String.ofList (s.toList.takeWhile (· ≠ separator)), String.ofList rest)

lemma splitOnce_of_notMem {s : String} {separator : Char} (h : separator ∉ s.toList) :
    splitOnce s separator = none := by
  have hrest : s.toList.dropWhile (· ≠ separator) = [] := by
    rw [List.dropWhile_eq_nil_iff]
    intro c hc
    exact decide_eq_true fun heq => h (heq ▸ hc)
  rw [splitOnce, hrest]

lemma splitOnce_eq_some {s before after : String} {separator : Char} :
    splitOnce s separator = some (before, after) ↔
      separator ∉ before.toList ∧ s.toList = before.toList ++ separator :: after.toList := by
  constructor
  · intro h
    have hsplit := List.takeWhile_append_dropWhile (p := (· ≠ separator)) (l := s.toList)
    cases hrest : s.toList.dropWhile (· ≠ separator) with
    | nil =>
      rw [splitOnce, hrest] at h
      cases h
    | cons c rest =>
      rw [splitOnce, hrest, Option.some.injEq, Prod.mk.injEq] at h
      obtain ⟨rfl, rfl⟩ := h
      have hc : c = separator := by
        have hhead := List.head?_dropWhile_not (· ≠ separator) s.toList
        rw [hrest] at hhead
        simpa using hhead
      rw [String.toList_ofList, String.toList_ofList]
      refine ⟨fun hmem => ?_, ?_⟩
      · have hne := List.mem_takeWhile_imp hmem
        simp at hne
      · rw [hrest, hc] at hsplit
        exact hsplit.symm
  · rintro ⟨hbefore, hs⟩
    have hkeep : ∀ c ∈ before.toList, (decide (c ≠ separator)) = true := by
      intro c hc
      exact decide_eq_true fun heq => hbefore (heq ▸ hc)
    rw [splitOnce, hs, List.dropWhile_append_of_pos hkeep, List.takeWhile_append_of_pos hkeep]
    simp

/-! ## Digits -/

/-- A character of which every byte is an ASCII digit is one. -/
lemma all_isDigit_utf8EncodeChar (c : Char) :
    (String.utf8EncodeChar c).all Json.isDigit = c.isDigit := by
  have hsmall : ∀ n : Fin 128,
      (String.utf8EncodeChar (Char.ofNat n)).all Json.isDigit = (Char.ofNat n).isDigit := by
    decide
  -- the first byte of a longer encoding is above all digits
  have hhigh : ∀ n, 192 ≤ n → n < 256 → Json.isDigit (UInt8.ofNat n) = false := by
    intro n hlow hn
    have hbyte : (UInt8.ofNat n).toNat = n := UInt8.toNat_ofNat_of_lt' hn
    simp only [Json.isDigit, Bool.and_eq_false_iff, decide_eq_false_iff_not,
      UInt8.le_iff_toNat_le, hbyte, UInt8.reduceToNat]
    omega
  by_cases hc : c.toNat ≤ 127
  · have hself := hsmall ⟨c.toNat, Nat.lt_succ_of_le hc⟩
    rwa [Char.ofNat_toNat] at hself
  · have hdigit : c.isDigit = false := by
      rw [← Bool.not_eq_true, Char.isDigit_iff_toNat]
      have hnine : '9'.toNat = 57 := rfl
      omega
    rw [hdigit]
    unfold String.utf8EncodeChar
    dsimp only
    rw [if_neg (show ¬ c.val.toNat ≤ 0x7f from hc)]
    split_ifs <;> rw [List.all_cons, hhigh _ (by omega) (by omega), Bool.false_and]

/-- Every byte of a text is an ASCII digit when every character is one. -/
lemma all_isDigit_textBytes (s : String) :
    (textBytes s).all Json.isDigit = s.toList.all Char.isDigit := by
  rw [← String.ofList_toList (s := s), textBytes_ofList, String.toList_ofList, List.all_flatMap]
  exact congrArg s.toList.all (funext all_isDigit_utf8EncodeChar)

/-- Digits are one byte each. -/
lemma textLen_of_all_isDigit {s : String} (h : s.toList.all Char.isDigit = true) :
    textLen s = s.toList.length := by
  have hone : ∀ c ∈ s.toList, (String.utf8EncodeChar c).length = 1 := by
    intro c hc
    obtain ⟨_, hhigh⟩ := digit_bounds (List.all_eq_true.mp h c hc)
    have hlow : c.toNat ≤ 127 := by omega
    rw [show String.utf8EncodeChar c = [UInt8.ofNat c.toNat] from if_pos hlow]
    rfl
  rw [textLen, ← String.ofList_toList (s := s), textBytes_ofList, String.toList_ofList,
    List.length_flatMap, List.map_congr_left hone, List.map_const', List.sum_replicate]
  simp

/-! ## Numbers -/

/-- One digit of `str::parse`: a number that does not fit is refused. -/
def pushDecimal (bits value : ℕ) (c : Char) : Option ℕ :=
  if c.isDigit ∧ 10 * value + (c.toNat - '0'.toNat) < 2 ^ bits then
    some (10 * value + (c.toNat - '0'.toNat))
  else none

/-- `str::parse` for an unsigned type. One leading plus sign is allowed. -/
def parseDecimal (bits : ℕ) (s : String) : Option ℕ :=
  let digits := match s.toList with
    | '+' :: rest => rest
    | cs => cs
  if digits = [] then none else digits.foldlM (pushDecimal bits) 0

lemma le_ofDigitChars (cs : List Char) (value : ℕ) : value ≤ Nat.ofDigitChars 10 cs value := by
  induction cs generalizing value with
  | nil => rfl
  | cons c cs ih =>
    rw [Nat.ofDigitChars_cons]
    calc value ≤ 10 * value + (c.toNat - '0'.toNat) := by omega
      _ ≤ _ := ih _

/-- The digits of a number are pushed one after the other; the number only grows. -/
lemma foldlM_pushDecimal {bits : ℕ} {cs : List Char} (hcs : ∀ c ∈ cs, c.isDigit) :
    ∀ {value n : ℕ}, value < 2 ^ bits →
      (cs.foldlM (pushDecimal bits) value = some n ↔
        n = Nat.ofDigitChars 10 cs value ∧ n < 2 ^ bits) := by
  induction cs with
  | nil =>
    intro value n hvalue
    rw [List.foldlM_nil, Option.pure_def, Option.some.injEq, Nat.ofDigitChars_nil]
    constructor
    · rintro rfl
      exact ⟨rfl, hvalue⟩
    · rintro ⟨rfl, _⟩
      rfl
  | cons c cs ih =>
    intro value n hvalue
    have hc : c.isDigit := hcs c List.mem_cons_self
    rw [List.foldlM_cons, Nat.ofDigitChars_cons, pushDecimal]
    by_cases hfits : 10 * value + (c.toNat - '0'.toNat) < 2 ^ bits
    · rw [if_pos ⟨hc, hfits⟩, Option.bind_eq_bind, Option.bind_some]
      exact ih (fun d hd => hcs d (List.mem_cons_of_mem _ hd)) hfits
    · rw [if_neg fun h => hfits h.2, Option.bind_eq_bind, Option.bind_none]
      have hgrows := le_ofDigitChars cs (10 * value + (c.toNat - '0'.toNat))
      constructor
      · intro h
        cases h
      · rintro ⟨rfl, hn⟩
        omega

/-- Digits are parsed as the number they spell, if it fits. -/
lemma parseDecimal_eq_some {bits n : ℕ} {s : String} (hne : s.toList ≠ [])
    (hs : ∀ c ∈ s.toList, c.isDigit) :
    parseDecimal bits s = some n ↔ n = Nat.ofDigitChars 10 s.toList 0 ∧ n < 2 ^ bits := by
  have hdigits : (match s.toList with
      | '+' :: rest => rest
      | cs => cs) = s.toList := by
    split
    next rest hplus =>
      have hsign : ('+').isDigit = true := hs '+' (by rw [hplus]; exact List.mem_cons_self)
      exact absurd hsign (by decide)
    next => rfl
  rw [parseDecimal, hdigits, if_neg hne]
  exact foldlM_pushDecimal hs (Nat.two_pow_pos bits)

end Lib
