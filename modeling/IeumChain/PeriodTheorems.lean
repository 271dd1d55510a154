import IeumChain.Archive
import IeumChain.Lib.Calendar

/-!
# Periods are calendar months

`period_from_timestamp` computes a day's year and month in closed form. No step overflows, and what
it finds is the month that counting month by month from January 1970 finds (`period_calendar`).
-/

namespace IeumChain

open Lib Lib.Calendar

/-- An operation with a natural number as its result. -/
lemma i64_natCast {operation : String} {x : ℤ} {n : ℕ} (hx : x = n) (hn : n < 2 ^ 63) :
    i64 operation x = .ok (n : ℤ) := by
  rw [hx, i64, if_pos (by omega)]

/-- Truncating division of natural numbers. -/
lemma tdiv_natCast (a b : ℕ) : (a : ℤ).tdiv (b : ℤ) = ((a / b : ℕ) : ℤ) := rfl

/-- The number of a day's month, as the closed form gives it. -/
lemma monthOf_eq {day era doe y mp : ℕ} (hday : day + 719468 = 146097 * era + doe)
    (hdoe : doe < 146097) (hy : y = commonDays doe / 365)
    (hmp : mp = (5 * (doe - yearStart y) + 2) / 153) :
    mp < 12 ∧ monthOf day + 23638 = 12 * (400 * era + y) + mp := by
  obtain ⟨hyear, hfrom, hto⟩ := yearOfEra_spec hdoe
  rw [← hy] at hyear hfrom hto
  have hlength := yearStart_succ y
  have hle : yearStart (y + 1) ≤ yearStart y + 366 := by
    rw [hlength]
    split <;> omega
  have hlt : mp < 12 := by omega
  refine ⟨hlt, ?_⟩
  have hstart : marchStart (12 * (400 * era + y) + mp) ≤ day + 719468 := by
    rw [marchStart_add _ _ hlt, yearStart_add]
    omega
  have hend : day + 719468 < marchStart (12 * (400 * era + y) + mp + 1) := by
    by_cases hlast : mp = 11
    · rw [show 12 * (400 * era + y) + mp + 1 = 12 * (400 * era + (y + 1)) + 0 by omega,
        marchStart_add _ 0 (by omega), yearStart_add]
      omega
    · rw [Nat.add_assoc, marchStart_add _ _ (by omega), yearStart_add]
      omega
  -- 1 January 1970 is in the month with number 23638
  have hafter : 23638 ≤ 12 * (400 * era + y) + mp := by
    by_contra hbefore
    have hepoch : marchStart (12 * (400 * era + y) + mp + 1) ≤ marchStart 23638 :=
      monotone_marchStart (by omega)
    have hvalue : marchStart 23638 = 719468 := by decide
    omega
  obtain ⟨k, hk⟩ : ∃ k, 12 * (400 * era + y) + mp = k + 23638 :=
    ⟨12 * (400 * era + y) + mp - 23638, by omega⟩
  rw [hk] at hstart hend ⊢
  rw [← monthStart_eq] at hstart
  rw [show k + 23638 + 1 = k + 1 + 23638 by omega, ← monthStart_eq] at hend
  rw [← eq_monthOf (Nat.add_le_add_iff_right.mp hstart) (Nat.add_lt_add_iff_right.mp hend)]

/-- The year and the month of the number of a month. -/
lemma year_month_eq {k y era mp : ℕ} (hmp : mp < 12)
    (h : k + 23638 = 12 * (400 * era + y) + mp) :
    (mp : ℤ) + (if (mp : ℤ) < 10 then 3 else -9) = (month k : ℕ) ∧
      (y + era * 400 : ℕ) + (if ((month k : ℕ) : ℤ) ≤ 2 then 1 else 0) = ((year k : ℕ) : ℤ) := by
  unfold month year
  by_cases hten : mp < 10
  · have hmonth : k % 12 = mp + 2 := by omega
    have hyear : k / 12 + 1970 = 400 * era + y := by omega
    rw [if_pos (by omega), if_neg (by omega)]
    omega
  · have hmonth : k % 12 + 10 = mp := by omega
    have hyear : k / 12 + 1969 = 400 * era + y := by omega
    rw [if_neg (by omega), if_pos (by omega)]
    omega

/-- The steps from the day on, each within 64 bits. -/
lemma steps_eq {day era doe y mp k : ℕ} (hday : day < 2 ^ 48)
    (hera : era = (day + 719468) / 146097) (hdoe : doe = (day + 719468) % 146097)
    (hy : y = commonDays doe / 365) (hmp : mp = (5 * (doe - yearStart y) + 2) / 153)
    (hmp_lt : mp < 12) (hmonth : k + 23638 = 12 * (400 * era + y) + mp) {timestamp : UInt64}
    (hdays : (timestamp / 86400).toBitVec.toInt = (day : ℤ)) :
    yearMonth timestamp = .ok ((year k : ℕ), (month k : ℕ)) := by
  have hdoe_lt : doe < 146097 := by omega
  obtain ⟨hyear, hfrom, -⟩ := yearOfEra_spec hdoe_lt
  rw [← hy] at hyear hfrom
  obtain ⟨hmonth_eq, hyear_eq⟩ := year_month_eq hmp_lt hmonth
  -- every value of the i64 computation is a natural number in range, and `/` is division there
  have hz : (day + 719468 : ℕ) - (era * 146097 : ℕ) = (doe : ℤ) := by omega
  have hera_lt : era < 2 ^ 40 := by omega
  have hyear_lt : year k < 2 ^ 50 := by
    unfold year
    omega
  have hmonth_lt : month k < 13 := by
    unfold month
    omega
  have hyearDays : yearStart y = 365 * y + y / 4 - y / 100 := by
    unfold yearStart
    omega
  have hcommon : commonDays doe = doe - doe / 1460 + doe / 36524 - doe / 146096 := rfl
  have hera' : ((day + 719468 : ℕ) : ℤ).tdiv 146097 = (era : ℤ) := by
    rw [hera]
    exact tdiv_natCast (day + 719468) 146097
  have hy' : (commonDays doe : ℤ).tdiv 365 = (y : ℤ) := by
    rw [hy]
    exact tdiv_natCast (commonDays doe) 365
  have hmp' : ((5 * (doe - yearStart y) + 2 : ℕ) : ℤ).tdiv 153 = (mp : ℤ) := by
    rw [hmp]
    exact tdiv_natCast (5 * (doe - yearStart y) + 2) 153
  clear hera hdoe hy hmp hmonth
  -- then the steps of the source one after the other
  rw [yearMonth, bind_eq_ok]
  refine ⟨_, i64_natCast (n := day + 719468) (by rw [hdays]; push_cast; rfl) (by omega), ?_⟩
  rw [if_pos (Int.natCast_nonneg _)]
  simp only [bind_eq_ok, pure_eq_ok]
  refine ⟨_, rfl, ?_⟩
  rw [hera']
  clear hera' hdays
  refine ⟨_, i64_natCast (n := era * 146097) (by push_cast; rfl) (by omega),
    _, i64_natCast (n := doe) hz (by omega), ?_⟩
  clear hz
  rw [show (doe : ℤ).tdiv 1460 = ((doe / 1460 : ℕ) : ℤ) from tdiv_natCast doe 1460,
    show (doe : ℤ).tdiv 36524 = ((doe / 36524 : ℕ) : ℤ) from tdiv_natCast doe 36524,
    show (doe : ℤ).tdiv 146096 = ((doe / 146096 : ℕ) : ℤ) from tdiv_natCast doe 146096]
  refine ⟨_, i64_natCast (n := doe - doe / 1460) (by omega) (by omega),
    _, i64_natCast (n := doe - doe / 1460 + doe / 36524) (by push_cast; rfl) (by omega),
    _, i64_natCast (n := commonDays doe) (by omega) (by omega), ?_⟩
  rw [hy']
  clear hy' hcommon
  refine ⟨_, i64_natCast (n := era * 400) (by push_cast; rfl) (by omega),
    _, i64_natCast (n := y + era * 400) (by push_cast; rfl) (by omega),
    _, i64_natCast (n := 365 * y) (by push_cast; rfl) (by omega), ?_⟩
  rw [show (y : ℤ).tdiv 4 = ((y / 4 : ℕ) : ℤ) from tdiv_natCast y 4,
    show (y : ℤ).tdiv 100 = ((y / 100 : ℕ) : ℤ) from tdiv_natCast y 100]
  refine ⟨_, i64_natCast (n := 365 * y + y / 4) (by push_cast; rfl) (by omega),
    _, i64_natCast (n := yearStart y) (by omega) (by omega),
    _, i64_natCast (n := doe - yearStart y) (by omega) (by omega),
    _, i64_natCast (n := 5 * (doe - yearStart y)) (by push_cast; rfl) (by omega),
    _, i64_natCast (n := 5 * (doe - yearStart y) + 2) (by push_cast; rfl) (by omega), ?_⟩
  rw [hmp']
  exact ⟨_, i64_natCast hmonth_eq (by omega), _, i64_natCast hyear_eq (by omega), rfl⟩

/-- Every step stays within 64 bits, and the result is the day's month. -/
lemma yearMonth_eq (timestamp : UInt64) :
    yearMonth timestamp = .ok ((year (monthOf (timestamp.toNat / 86400)) : ℕ),
      (month (monthOf (timestamp.toNat / 86400)) : ℕ)) := by
  have hbound := timestamp.toNat_lt
  have hsmall : timestamp.toNat / 86400 < 2 ^ 48 := by omega
  have hnat : (timestamp / 86400).toBitVec.toNat = timestamp.toNat / 86400 :=
    UInt64.toNat_div timestamp 86400
  have hdays : (timestamp / 86400).toBitVec.toInt = ((timestamp.toNat / 86400 : ℕ) : ℤ) := by
    rw [BitVec.toInt_eq_toNat_of_lt (by omega), hnat]
  have hz : timestamp.toNat / 86400 + 719468 =
      146097 * ((timestamp.toNat / 86400 + 719468) / 146097) +
        (timestamp.toNat / 86400 + 719468) % 146097 := (Nat.div_add_mod _ _).symm
  obtain ⟨hmp_lt, hmonth⟩ := monthOf_eq hz (Nat.mod_lt _ (by omega)) rfl rfl
  exact steps_eq hsmall rfl rfl rfl rfl hmp_lt hmonth hdays

/-- **Periods are calendar months.** No step overflows, the period is the year with at least four
digits, the month with two and the letter M, for the month that counting month by month finds, and
later timestamps have no earlier months. -/
theorem period_calendar (timestamp : UInt64) :
    (monthStart (monthOf (timestamp.toNat / 86400)) ≤ timestamp.toNat / 86400 ∧
      timestamp.toNat / 86400 < monthStart (monthOf (timestamp.toNat / 86400) + 1)) ∧
    periodFromTimestamp timestamp =
      .ok (zeroPadded 4 (year (monthOf (timestamp.toNat / 86400)) : ℕ) ++
        zeroPadded 2 (month (monthOf (timestamp.toNat / 86400)) : ℕ) ++ "M") ∧
    ∀ later : UInt64, timestamp ≤ later →
      ∃ y m y' m', yearMonth timestamp = .ok (y, m) ∧ yearMonth later = .ok (y', m') ∧
        (y < y' ∨ (y = y' ∧ m ≤ m')) := by
  refine ⟨monthOf_spec _, ?_, fun later hle => ?_⟩
  · rw [periodFromTimestamp, yearMonth_eq]
    rfl
  · refine ⟨_, _, _, _, yearMonth_eq timestamp, yearMonth_eq later, ?_⟩
    have hdays : timestamp.toNat / 86400 ≤ later.toNat / 86400 :=
      Nat.div_le_div_right (UInt64.le_iff_toNat_le.mp hle)
    have hmonths := monthOf_mono hdays
    unfold year month
    omega

/-- The last second of February of a leap year. -/
example : periodFromTimestamp 951868799 = .ok "200002M" := by rfl

end IeumChain
