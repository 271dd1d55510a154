import Mathlib.Data.List.Basic
import Mathlib.Tactic

/-!
# Lists of a limited length

`pushWithin` appends to a list and drops the oldest entry where the list is full. What is pushed
pushes out exactly what it has to (`foldl_pushWithin`): an entry goes when as many newer ones have
come as the list may hold.
-/

namespace Lib

variable {α : Type}

/-- Append to a list of at most `capacity` entries; a full list loses its oldest. -/
def pushWithin (capacity : ℕ) (l : List α) (x : α) : List α :=
  (if capacity ≤ l.length then l.tail else l) ++ [x]

lemma mem_pushWithin {capacity : ℕ} {l : List α} {x y : α} :
    y ∈ pushWithin capacity l x ↔
      y ∈ (if capacity ≤ l.length then l.tail else l) ∨ y = x := by
  rw [pushWithin, List.mem_append, List.mem_singleton]

lemma length_pushWithin_le {capacity : ℕ} (hpos : 0 < capacity) {l : List α}
    (h : l.length ≤ capacity) (x : α) : (pushWithin capacity l x).length ≤ capacity := by
  rw [pushWithin, List.length_append, List.length_singleton]
  split
  · rw [List.length_tail]
    omega
  · omega

/-- What does not fit is cut off at the front. -/
lemma pushWithin_eq_drop {capacity : ℕ} (hpos : 0 < capacity) {l : List α}
    (h : l.length ≤ capacity) (x : α) :
    pushWithin capacity l x = (l ++ [x]).drop (l.length + 1 - capacity) := by
  unfold pushWithin
  split
  next hfull =>
    have hone : l.length + 1 - capacity = 1 := by omega
    obtain ⟨y, rest, rfl⟩ := List.exists_cons_of_length_pos (l := l) (by omega)
    rw [hone]
    rfl
  next hroom =>
    have hzero : l.length + 1 - capacity = 0 := by omega
    rw [hzero, List.drop_zero]

lemma foldl_pushWithin {capacity : ℕ} (hpos : 0 < capacity) (xs : List α) :
    ∀ {l : List α}, l.length ≤ capacity →
      xs.foldl (pushWithin capacity) l = (l ++ xs).drop (l.length + xs.length - capacity) := by
  induction xs with
  | nil =>
    intro l h
    rw [List.foldl_nil, List.append_nil, List.length_nil, Nat.add_zero,
      Nat.sub_eq_zero_of_le h, List.drop_zero]
  | cons x xs ih =>
    intro l h
    have hcut := pushWithin_eq_drop hpos h x
    rw [List.foldl_cons, ih (length_pushWithin_le hpos h x), hcut, ← List.drop_append_of_le_length,
      List.drop_drop, List.append_assoc, List.singleton_append]
    · congr 1
      rw [List.length_drop, List.length_append, List.length_singleton, List.length_cons]
      omega
    · rw [List.length_append, List.length_singleton]
      omega

/-- As many new entries as the list may hold push out all others. -/
lemma foldl_pushWithin_of_le {capacity : ℕ} (hpos : 0 < capacity) {l xs : List α}
    (h : l.length ≤ capacity) (hxs : capacity ≤ xs.length) :
    xs.foldl (pushWithin capacity) l = xs.drop (xs.length - capacity) := by
  rw [foldl_pushWithin hpos xs h]
  have hsplit : l.length + xs.length - capacity = l.length + (xs.length - capacity) := by omega
  rw [hsplit, ← List.drop_drop, List.drop_left]

end Lib
