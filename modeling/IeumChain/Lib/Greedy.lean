import Mathlib.Data.List.Basic
import Mathlib.Tactic

/-!
# Greedy filling

A pass over a list of candidates takes each one that is not to be skipped, until a number of places
is filled. Whether a candidate is skipped depends on what has been taken before it. The rules say
what every pass keeps (`fill_induction`), that each taken element was free at its moment
(`taken_fill`), and, where a candidate once skipped stays skipped, that a pass which leaves places
empty leaves nothing to take (`fill_complete`).
-/

namespace Lib

variable {α : Type}

/-- Take the candidates that are not skipped, up to `target` elements. -/
def fill (skip : List α → α → Bool) (target : ℕ) : List α → List α → List α
  | [], selected => selected
  | c :: candidates, selected =>
    if target ≤ selected.length then selected
    else if skip selected c then fill skip target candidates selected
    else fill skip target candidates (selected ++ [c])

variable {skip : List α → α → Bool} {target : ℕ}

/-- What holds before a pass and is kept by each taking holds after it. -/
theorem fill_induction (P : List α → Prop) {candidates : List α}
    (take : ∀ s, ∀ c ∈ candidates, P s → s.length < target → skip s c = false → P (s ++ [c])) :
    ∀ {selected : List α}, P selected → P (fill skip target candidates selected) := by
  induction candidates with
  | nil => exact fun h => h
  | cons c candidates ih =>
    intro selected h
    have hrest : ∀ {s : List α}, P s → P (fill skip target candidates s) :=
      ih fun s c' hc' => take s c' (List.mem_cons_of_mem c hc')
    rw [fill]
    split
    case isTrue => exact h
    case isFalse hroom =>
      split
      case isTrue => exact hrest h
      case isFalse hfree =>
        exact hrest (take selected c List.mem_cons_self h (Nat.not_le.mp hroom)
          (Bool.eq_false_of_not_eq_true hfree))

/-- A pass only adds at the end. -/
lemma prefix_fill (candidates selected : List α) :
    selected <+: fill skip target candidates selected :=
  fill_induction (selected <+: ·) (fun _ _ _ h _ _ => h.trans (List.prefix_append _ _))
    (List.prefix_refl selected)

/-- A pass does not go beyond its target. -/
lemma length_fill_le {candidates selected : List α} (h : selected.length ≤ target) :
    (fill skip target candidates selected).length ≤ target := by
  refine fill_induction (fun s => s.length ≤ target) (fun s c _ _ hroom _ => ?_) h
  rw [List.length_append, List.length_singleton]
  exact hroom

/-- Whatever stands behind `base` was free when it was taken. -/
def Taken (skip : List α → α → Bool) (base : ℕ) (s : List α) : Prop :=
  ∀ before c after, s = before ++ c :: after → base ≤ before.length → skip before c = false

lemma Taken.concat {base : ℕ} {s : List α} {c : α} (h : Taken skip base s)
    (hc : skip s c = false) : Taken skip base (s ++ [c]) := by
  intro before c' after heq hbase
  rcases List.eq_nil_or_concat after with rfl | ⟨front, last, rfl⟩
  · obtain ⟨rfl, hlast⟩ := List.append_inj' heq rfl
    obtain rfl := List.head_eq_of_cons_eq hlast
    exact hc
  · rw [List.concat_eq_append, ← List.cons_append, ← List.append_assoc] at heq
    obtain ⟨hfront, -⟩ := List.append_inj' heq rfl
    exact h before c' front hfront hbase

/-- Each element a pass takes was free at its moment. -/
theorem taken_fill {base : ℕ} {candidates selected : List α} (h : Taken skip base selected) :
    Taken skip base (fill skip target candidates selected) :=
  fill_induction (Taken skip base) (fun _ _ _ hs _ hfree => hs.concat hfree) h

lemma taken_length (selected : List α) : Taken skip selected.length selected := by
  intro before c after heq hbase
  have hlength := congrArg List.length heq
  rw [List.length_append, List.length_cons] at hlength
  omega

/-- Once skipped, a candidate stays skipped, and nothing is taken twice. -/
structure Persistent (skip : List α → α → Bool) : Prop where
  stays : ∀ s s' c, s <+: s' → skip s c = true → skip s' c = true
  once : ∀ s c, c ∈ s → skip s c = true

/-- A pass that leaves places empty leaves no candidate to take, now or later. -/
theorem fill_complete (h : Persistent skip) : ∀ {candidates selected : List α},
    (fill skip target candidates selected).length < target →
      ∀ c ∈ candidates, ∀ later, fill skip target candidates selected <+: later →
        skip later c = true := by
  intro candidates
  induction candidates with
  | nil => exact fun _ c hc => absurd hc List.not_mem_nil
  | cons a candidates ih =>
    intro selected hroom c hc later hlater
    rw [fill] at hroom hlater
    split at hroom
    case isTrue hfull => exact absurd hfull (Nat.not_le.mpr hroom)
    case isFalse hempty =>
      rw [if_neg hempty] at hlater
      split at hroom
      case isTrue hskip =>
        rw [if_pos hskip] at hlater
        rcases List.mem_cons.mp hc with rfl | hmem
        · exact h.stays selected later c ((prefix_fill _ _).trans hlater) hskip
        · exact ih hroom c hmem later hlater
      case isFalse hfree =>
        rw [if_neg hfree] at hlater
        rcases List.mem_cons.mp hc with rfl | hmem
        · have htaken : c ∈ selected ++ [c] := by simp
          exact h.once later c (((prefix_fill _ _).trans hlater).subset htaken)
        · exact ih hroom c hmem later hlater

end Lib
