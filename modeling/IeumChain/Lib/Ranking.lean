import Mathlib.Data.List.Sort
import Mathlib.Tactic

/-!
# The first of a ranking

A list is ranked by a key with a linear order. Where the keys are distinct there is one ranking, the
same for every order of the list (`eq_sortBy`), and who is among the first `n` is told by counting who
stands before (`mem_take_sortBy`).
-/

namespace Lib

section Ranking
variable {α β κ : Type} [LinearOrder κ] (key : α → κ)

/-- The list in the order of its keys. The sort is stable. -/
def sortBy (l : List α) : List α := l.insertionSort fun a b => key a ≤ key b

lemma perm_sortBy (l : List α) : (sortBy key l).Perm l := List.perm_insertionSort _ l

lemma pairwise_sortBy {l : List α} (h : (l.map key).Nodup) :
    (sortBy key l).Pairwise fun a b => key a < key b := by
  have hnodup : (sortBy key l).Pairwise fun a b => key a ≠ key b := by
    rw [← List.pairwise_map]
    exact ((perm_sortBy key l).map key).nodup_iff.mpr h
  have hsorted : (sortBy key l).Pairwise fun a b => key a ≤ key b := by
    have : IsTrans α fun a b => key a ≤ key b := ⟨fun _ _ _ => le_trans⟩
    have : Std.Total fun a b : α => key a ≤ key b := ⟨fun a b => le_total (key a) (key b)⟩
    exact List.pairwise_insertionSort _ l
  exact (hsorted.and hnodup).imp fun h => lt_of_le_of_ne h.1 h.2

variable {key}

/-- A strictly ordered arrangement of the list is its ranking. -/
theorem eq_sortBy {l ranked : List α} (hperm : ranked.Perm l)
    (hsorted : ranked.Pairwise fun a b => key a < key b) : ranked = sortBy key l := by
  have hnodup : (l.map key).Nodup := by
    rw [← (hperm.map key).nodup_iff]
    exact List.pairwise_map.mpr (hsorted.imp fun h => h.ne)
  refine List.Perm.eq_of_pairwise (fun a b _ _ hab hba => ?_) hsorted
    (pairwise_sortBy key hnodup) (hperm.trans (perm_sortBy key l).symm)
  exact absurd hba (lt_asymm hab)

lemma sortBy_congr {l l' : List α} (hperm : l.Perm l') (h : (l.map key).Nodup) :
    sortBy key l = sortBy key l' :=
  eq_sortBy ((perm_sortBy key l).trans hperm) (pairwise_sortBy key h)

lemma sortBy_map {key' : β → κ} {f : α → β} (h : ∀ a, key' (f a) = key a) (l : List α) :
    sortBy key' (l.map f) = (sortBy key l).map f := by
  refine (List.map_insertionSort _ _ f l fun a _ b _ => ?_).symm
  rw [h, h]

/-- In a strictly ordered list, the first `n` are those with fewer than `n` before them. -/
lemma mem_take_of_pairwise {a : α} :
    ∀ {l : List α} {n : ℕ}, l.Pairwise (fun a b => key a < key b) →
      (a ∈ l.take n ↔ a ∈ l ∧ (l.filter fun b => key b < key a).length < n) := by
  intro l
  induction l with
  | nil => intro n _; simp
  | cons b l ih =>
    intro n hsorted
    obtain ⟨hb, hl⟩ := List.pairwise_cons.mp hsorted
    cases n with
    | zero => simp
    | succ n =>
      rw [List.take_succ_cons, List.mem_cons, List.mem_cons, ih hl]
      by_cases hlt : key b < key a
      · have hne : a ≠ b := by
          rintro rfl
          exact lt_irrefl _ hlt
        rw [List.filter_cons_of_pos (by simpa using hlt), List.length_cons]
        constructor
        · rintro (heq | ⟨hmem, hfew⟩)
          · exact absurd heq hne
          · exact ⟨.inr hmem, by omega⟩
        · rintro ⟨heq | hmem, hfew⟩
          · exact absurd heq hne
          · exact .inr ⟨hmem, by omega⟩
      · -- nobody before `a`, so it is `b` or not in the list
        have hnone : a ∉ l := fun hmem => hlt (hb a hmem)
        rw [List.filter_cons_of_neg (by simpa using hlt)]
        constructor
        · rintro (rfl | ⟨hmem, _⟩)
          · refine ⟨.inl rfl, ?_⟩
            rw [List.filter_eq_nil_iff.mpr]
            · exact Nat.succ_pos n
            · intro c hc
              simpa using le_of_lt (hb c hc)
          · exact absurd hmem hnone
        · rintro ⟨heq | hmem, _⟩
          · exact .inl heq
          · exact absurd hmem hnone

theorem mem_take_sortBy {l : List α} {n : ℕ} (h : (l.map key).Nodup) {a : α} :
    a ∈ (sortBy key l).take n ↔ a ∈ l ∧ (l.filter fun b => key b < key a).length < n := by
  rw [mem_take_of_pairwise (pairwise_sortBy key h), (perm_sortBy key l).mem_iff,
    ((perm_sortBy key l).filter _).length_eq]

end Ranking

end Lib
