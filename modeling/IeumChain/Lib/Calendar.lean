import Mathlib.Order.Monotone.Basic
import Mathlib.Data.Nat.Find
import Mathlib.Tactic

/-!
# The Gregorian calendar

Months are counted from January 1970, each as long as the leap-year rule says (`monthStart`). Counted
from March of a year 0, months have a closed form (`marchStart`), because the leap day is then the
last day of the year; `monthStart_eq` says that the two agree. `yearOfEra_spec` inverts the closed
form for the years of a period of 400 years.
-/

namespace Lib

namespace Calendar

/-! ## Month by month -/

def Leap (year : ℕ) : Prop := year % 4 = 0 ∧ (year % 100 ≠ 0 ∨ year % 400 = 0)

instance (year : ℕ) : Decidable (Leap year) := inferInstanceAs (Decidable (_ ∧ _))

/-- The days of a month. -/
def monthLength (year month : ℕ) : ℕ :=
  if month = 2 then if Leap year then 29 else 28
  else if month = 4 ∨ month = 6 ∨ month = 9 ∨ month = 11 then 30
  else 31

/-- The year of the month with number `k`. Number 0 is January 1970. -/
def year (k : ℕ) : ℕ := 1970 + k / 12

/-- Its month, from 1 to 12. -/
def month (k : ℕ) : ℕ := k % 12 + 1

/-- The days from 1 January 1970 to the first day of a month. -/
def monthStart : ℕ → ℕ
  | 0 => 0
  | k + 1 => monthStart k + monthLength (year k) (month k)

lemma monthLength_pos (year month : ℕ) : 0 < monthLength year month := by
  unfold monthLength
  split_ifs <;> omega

lemma strictMono_monthStart : StrictMono monthStart := by
  apply strictMono_nat_of_lt_succ
  intro k
  have hpos := monthLength_pos (year k) (month k)
  rw [monthStart]
  omega

/-- The number of the month that a day falls into. -/
def monthOf (day : ℕ) : ℕ := Nat.findGreatest (fun k => monthStart k ≤ day) day

theorem monthOf_spec (day : ℕ) :
    monthStart (monthOf day) ≤ day ∧ day < monthStart (monthOf day + 1) := by
  constructor
  · exact Nat.findGreatest_spec (P := fun k => monthStart k ≤ day) (Nat.zero_le day)
      (Nat.zero_le day)
  · by_contra hle
    have hle : monthStart (monthOf day + 1) ≤ day := Nat.le_of_not_lt hle
    have hbound : monthOf day + 1 ≤ day := le_trans strictMono_monthStart.le_apply hle
    exact Nat.findGreatest_is_greatest (Nat.lt_succ_self _) hbound hle

lemma eq_monthOf {day k : ℕ} (hstart : monthStart k ≤ day) (hend : day < monthStart (k + 1)) :
    k = monthOf day := by
  obtain ⟨hstart', hend'⟩ := monthOf_spec day
  have hle := strictMono_monthStart.lt_iff_lt.mp (lt_of_le_of_lt hstart hend')
  have hge := strictMono_monthStart.lt_iff_lt.mp (lt_of_le_of_lt hstart' hend)
  omega

lemma monthOf_mono {day day' : ℕ} (h : day ≤ day') : monthOf day ≤ monthOf day' := by
  have hlt := lt_of_le_of_lt (le_trans (monthOf_spec day).1 h) (monthOf_spec day').2
  exact Nat.lt_succ_iff.mp (strictMono_monthStart.lt_iff_lt.mp hlt)

/-! ## From March on -/

/-- The days from 1 March of year 0 to 1 March of year `y`. -/
def yearStart (y : ℕ) : ℕ := 365 * y + y / 4 - y / 100 + y / 400

/-- The days to the first day of the month with number `m`. Number 0 is March of year 0. -/
def marchStart (m : ℕ) : ℕ := yearStart (m / 12) + (153 * (m % 12) + 2) / 5

lemma marchStart_add (y m : ℕ) (h : m < 12) :
    marchStart (12 * y + m) = yearStart y + (153 * m + 2) / 5 := by
  have hdiv : (12 * y + m) / 12 = y := by omega
  have hmod : (12 * y + m) % 12 = m := by omega
  rw [marchStart, hdiv, hmod]

/-- The last month of a year ends where the next year starts. -/
lemma yearStart_succ (y : ℕ) :
    yearStart (y + 1) = yearStart y + 365 + if Leap (y + 1) then 1 else 0 := by
  by_cases hleap : Leap (y + 1)
  · rw [if_pos hleap]
    unfold Leap at hleap
    unfold yearStart
    omega
  · rw [if_neg hleap]
    unfold Leap at hleap
    unfold yearStart
    by_cases hfour : (y + 1) % 4 = 0
    · have hcentury : (y + 1) % 100 = 0 ∧ (y + 1) % 400 ≠ 0 := by tauto
      clear hleap
      omega
    · have hcentury : (y + 1) / 100 = y / 100 := by omega
      have hera : (y + 1) / 400 = y / 400 := by omega
      have hquarter : (y + 1) / 4 = y / 4 := by omega
      rw [hcentury, hera, hquarter]
      omega

lemma monotone_marchStart : Monotone marchStart := by
  apply monotone_nat_of_le_succ
  intro m
  have hyear : yearStart (m / 12) + 365 ≤ yearStart (m / 12 + 1) := by
    rw [yearStart_succ]
    exact Nat.le_add_right _ _
  have hm : m = 12 * (m / 12) + m % 12 := (Nat.div_add_mod m 12).symm
  have hr : m % 12 < 12 := Nat.mod_lt _ (by omega)
  generalize m / 12 = y at hm hyear
  generalize m % 12 = r at hm hr
  rw [hm, marchStart_add y r hr]
  by_cases hlast : r = 11
  · have hnext : 12 * y + r + 1 = 12 * (y + 1) + 0 := by omega
    rw [hnext, marchStart_add _ 0 (by omega), hlast]
    omega
  · rw [Nat.add_assoc, marchStart_add y (r + 1) (by omega)]
    omega

/-- A month is as long as the closed form says. -/
lemma marchStart_succ (k : ℕ) :
    marchStart (k + 23638 + 1) = marchStart (k + 23638) + monthLength (year k) (month k) := by
  have hr : k % 12 < 12 := Nat.mod_lt _ (by omega)
  have hk : k = 12 * (k / 12) + k % 12 := (Nat.div_add_mod k 12).symm
  have hyear : year k = k / 12 + 1970 := Nat.add_comm _ _
  generalize hq : k / 12 = q at hk hyear
  generalize hm : k % 12 = r at hk hr
  rw [hyear, month, hm, hk]
  have hleap := yearStart_succ (q + 1969)
  interval_cases r
  -- January and February belong to the year that started in March before
  · rw [show 12 * q + 0 + 23638 + 1 = 12 * (q + 1969) + 11 by omega,
      show 12 * q + 0 + 23638 = 12 * (q + 1969) + 10 by omega,
      marchStart_add _ _ (by omega), marchStart_add _ _ (by omega)]
    simp [monthLength]
  · rw [show 12 * q + 1 + 23638 + 1 = 12 * (q + 1969 + 1) + 0 by omega,
      show 12 * q + 1 + 23638 = 12 * (q + 1969) + 11 by omega,
      marchStart_add _ _ (by omega), marchStart_add _ _ (by omega), hleap]
    simp only [monthLength, if_true]
    split_ifs <;> omega
  all_goals
    rw [show ∀ r, 12 * q + (r + 2) + 23638 + 1 = 12 * (q + 1970) + (r + 1) by intro r; omega,
      show ∀ r, 12 * q + (r + 2) + 23638 = 12 * (q + 1970) + r by intro r; omega,
      marchStart_add _ _ (by omega), marchStart_add _ _ (by omega)]
    simp [monthLength]

theorem monthStart_eq (k : ℕ) : monthStart k + 719468 = marchStart (k + 23638) := by
  induction k with
  | zero => decide
  | succ k ih =>
    rw [monthStart, show k + 1 + 23638 = k + 23638 + 1 by omega, marchStart_succ]
    omega

/-! ## The year of a day -/

/-- The days of an era up to a day, without its leap days. -/
def commonDays (doe : ℕ) : ℕ := doe - doe / 1460 + doe / 36524 - doe / 146096

lemma monotone_commonDays : Monotone commonDays := by
  apply monotone_nat_of_le_succ
  intro doe
  unfold commonDays
  omega

lemma commonDays_year : ∀ y < 400,
    365 * y ≤ commonDays (yearStart y) ∧ commonDays (yearStart (y + 1) - 1) < 365 * (y + 1) := by
  decide +kernel

/-- The year of a day of the era. -/
theorem yearOfEra_spec {doe : ℕ} (h : doe < 146097) :
    commonDays doe / 365 < 400 ∧ yearStart (commonDays doe / 365) ≤ doe ∧
      doe < yearStart (commonDays doe / 365 + 1) := by
  have hlast : commonDays doe ≤ commonDays 146096 := monotone_commonDays (by omega)
  have hvalue : commonDays 146096 = 145999 := by decide
  have hyear : commonDays doe / 365 < 400 := by omega
  refine ⟨hyear, ?_, ?_⟩
  · by_contra hlt
    -- the day would lie in an earlier year
    have hpos : commonDays doe / 365 ≠ 0 := by
      intro hzero
      rw [hzero] at hlt
      exact hlt (Nat.zero_le _)
    obtain ⟨y, hy⟩ := Nat.exists_eq_succ_of_ne_zero hpos
    have hend := (commonDays_year y (by omega)).2
    have hle : commonDays doe ≤ commonDays (yearStart (y + 1) - 1) := by
      apply monotone_commonDays
      rw [hy, Nat.succ_eq_add_one] at hlt
      omega
    omega
  · by_contra hge
    -- the day would lie in a later year
    by_cases hend : commonDays doe / 365 + 1 < 400
    · have hstart := (commonDays_year _ hend).1
      have hle : commonDays (yearStart (commonDays doe / 365 + 1)) ≤ commonDays doe :=
        monotone_commonDays (by omega)
      omega
    · have hyears : commonDays doe / 365 + 1 = 400 := by omega
      rw [hyears] at hge
      have hera : yearStart 400 = 146097 := by decide
      omega

/-- Eras have equally many days. -/
lemma yearStart_add (era y : ℕ) : yearStart (400 * era + y) = 146097 * era + yearStart y := by
  unfold yearStart
  omega

end Calendar

end Lib
