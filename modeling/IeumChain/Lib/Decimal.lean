import Mathlib.Data.String.Basic
import Mathlib.Tactic

/-!
# Decimal numbers of a fixed width

The digits of a number with zeros in front, as names of files have them. The number can be read back
(`padded_inj`), and numbers that fit the width stand in the order of their texts
(`padded_append_lt`).
-/

namespace Lib

/-- The digits of `n`, with zeros in front up to a width. -/
def padded (width n : ℕ) : List Char := (Nat.toDigits 10 n).leftpad width '0'

/-- The number of some digits. -/
lemma ofDigitChars_padded (width n : ℕ) : Nat.ofDigitChars 10 (padded width n) 0 = n := by
  rw [padded, List.leftpad, Nat.ofDigitChars_append, Nat.ofDigitChars_replicate_zero, Nat.mul_zero,
    Nat.ofDigitChars_ten_toDigits]

lemma padded_inj {width m n : ℕ} (h : padded width m = padded width n) : m = n := by
  rw [← ofDigitChars_padded width m, h, ofDigitChars_padded]

lemma isDigit_of_mem_padded {width n : ℕ} {c : Char} (h : c ∈ padded width n) : c.isDigit := by
  rcases List.mem_append.mp h with h | h
  · rw [List.eq_of_mem_replicate h]
    rfl
  · exact Nat.isDigit_of_mem_toDigits (by decide) (by decide) h

lemma length_padded {width n : ℕ} (hwidth : 0 < width) (h : n < 10 ^ width) :
    (padded width n).length = width := by
  have hle := (Nat.length_toDigits_le_iff (by decide) hwidth).mpr h
  rw [padded, List.length_leftpad, Nat.max_eq_left hle]

/-! ## Order -/

/-- The value of a digit. -/
lemma digit_bounds {c : Char} (h : c.isDigit) : 48 ≤ c.toNat ∧ c.toNat ≤ 57 := by
  obtain ⟨hlow, hhigh⟩ := Char.isDigit_iff_toNat.mp h
  exact ⟨hlow, hhigh⟩

lemma ofDigitChars_lt {cs : List Char} (h : ∀ c ∈ cs, c.isDigit) :
    Nat.ofDigitChars 10 cs 0 < 10 ^ cs.length := by
  induction cs with
  | nil => exact Nat.one_pos
  | cons c cs ih =>
    have hrest := ih fun d hd => h d (List.mem_cons_of_mem _ hd)
    obtain ⟨_, hdigit⟩ := digit_bounds (h c List.mem_cons_self)
    rw [Nat.ofDigitChars_cons, Nat.ofDigitChars_eq_ofDigitChars_zero, List.length_cons, pow_succ]
    have hvalue : 10 * 0 + (c.toNat - '0'.toNat) ≤ 9 := by
      have hzero : '0'.toNat = 48 := rfl
      omega
    nlinarith

/-- Of two digit lists of one length, the one with the smaller number comes first. -/
lemma lt_of_ofDigitChars_lt {s t : List Char} :
    ∀ {a b : List Char}, a.length = b.length → (∀ c ∈ a, c.isDigit) → (∀ c ∈ b, c.isDigit) →
      Nat.ofDigitChars 10 a 0 < Nat.ofDigitChars 10 b 0 → a ++ s < b ++ t := by
  intro a
  induction a with
  | nil =>
    intro b hlength _ _ hlt
    rw [List.eq_nil_of_length_eq_zero hlength.symm] at hlt
    exact absurd hlt (Nat.lt_irrefl _)
  | cons c a ih =>
    intro b hlength ha hb hlt
    match b with
    | d :: b =>
      have hlength' : a.length = b.length := Nat.succ.inj hlength
      have ha' : ∀ c ∈ a, c.isDigit := fun c hc => ha c (List.mem_cons_of_mem _ hc)
      have hb' : ∀ c ∈ b, c.isDigit := fun c hc => hb c (List.mem_cons_of_mem _ hc)
      obtain ⟨hc, _⟩ := digit_bounds (ha c List.mem_cons_self)
      obtain ⟨hd, _⟩ := digit_bounds (hb d List.mem_cons_self)
      have hbelow := ofDigitChars_lt hb'
      rw [Nat.ofDigitChars_cons, Nat.ofDigitChars_cons, Nat.ofDigitChars_eq_ofDigitChars_zero,
        Nat.ofDigitChars_eq_ofDigitChars_zero (l := b), hlength'] at hlt
      have hzero : '0'.toNat = 48 := rfl
      rw [hzero, Nat.mul_zero, Nat.zero_add, Nat.zero_add] at hlt
      have hle : c.toNat ≤ d.toNat := by
        by_contra hgt
        have hmore : d.toNat - 48 + 1 ≤ c.toNat - 48 := by omega
        have hscaled := Nat.mul_le_mul_left (10 ^ b.length) hmore
        rw [Nat.mul_add, Nat.mul_one] at hscaled
        omega
      rw [List.cons_append, List.cons_append, List.cons_lt_cons_iff]
      rcases Nat.lt_or_eq_of_le hle with hless | hsame
      · exact .inl hless
      · have hchar : c = d := Char.toNat_inj.mp hsame
        rw [hsame] at hlt
        exact .inr ⟨hchar, ih hlength' ha' hb' (Nat.add_lt_add_iff_left.mp hlt)⟩

/-- Numbers that fit the width stand in the order of their texts, whatever follows. -/
theorem padded_append_lt {width m n : ℕ} (h : m < n) (hn : n < 10 ^ width) (s t : List Char) :
    padded width m ++ s < padded width n ++ t := by
  have hwidth : 0 < width := by
    rcases Nat.eq_zero_or_pos width with rfl | hpos
    · rw [pow_zero] at hn
      omega
    · exact hpos
  apply lt_of_ofDigitChars_lt
  · rw [length_padded hwidth (h.trans hn), length_padded hwidth hn]
  · exact fun c => isDigit_of_mem_padded
  · exact fun c => isDigit_of_mem_padded
  · rw [ofDigitChars_padded, ofDigitChars_padded]
    exact h

end Lib
