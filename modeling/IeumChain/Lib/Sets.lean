import IeumChain.Lib.Quorum
import IeumChain.Lib.SortedEntries

/-!
# The order of hash sets and hash maps

A hash set is a finite set; the order in which a program goes over it is a parameter
(`SetIteration`), and so is the order of the entries of a hash map (`EntryIteration`). A sum over
the members does not depend on it (`SetIteration.sum_order`).
-/

namespace Lib

variable {K : Type} [DecidableEq K]

/-- An order of the members of every hash set. -/
structure SetIteration (K : Type) where
  order : Finset K → List K
  nodup : ∀ s, (order s).Nodup
  mem_order : ∀ s a, a ∈ order s ↔ a ∈ s

namespace SetIteration

/-- The members in ascending order. -/
def sorted {K : Type} [LinearOrder K] : SetIteration K where
  order := sortedList
  nodup := nodup_sortedList
  mem_order _ _ := mem_sortedList

lemma toFinset_order (iteration : SetIteration K) (s : Finset K) :
    (iteration.order s).toFinset = s := by
  ext a
  rw [List.mem_toFinset, iteration.mem_order]

/-- A sum over the members is the same in every order. -/
lemma sum_order (iteration : SetIteration K) (s : Finset K) (w : K → ℕ) :
    ((iteration.order s).map w).sum = weight w s := by
  rw [weight, ← List.sum_toFinset w (iteration.nodup s), iteration.toFinset_order]

end SetIteration

/-- An order of the entries of every hash map. -/
structure EntryIteration (K V : Type) [DecidableEq K] where
  entries : HashMap K V → List (K × V)
  nodup : ∀ m, ((entries m).map Prod.fst).Nodup
  mem_entries : ∀ m k v, (k, v) ∈ entries m ↔ m.lookup k = some v

/-- The entries in the order of their keys. -/
def EntryIteration.sorted {K V : Type} [LinearOrder K] : EntryIteration K V where
  entries := sortedEntries
  nodup := nodup_sortedEntries
  mem_entries _ _ _ := mem_sortedEntries

/-- Two sets of voters share what their weights exceed the whole by. -/
lemma weight_add_le {w : K → ℕ} {voters p q : Finset K} (hp : p ⊆ voters) (hq : q ⊆ voters) :
    weight w p + weight w q ≤ weight w voters + weight w (p ∩ q) := by
  have hunion : weight w (p ∪ q) ≤ weight w voters := weight_mono w (Finset.union_subset hp hq)
  have hsum : weight w (p ∪ q) + weight w (p ∩ q) = weight w p + weight w q :=
    Finset.sum_union_inter
  omega

omit [DecidableEq K] in
lemma weight_one (s : Finset K) : weight (fun _ => 1) s = s.card := by
  rw [weight, Finset.card_eq_sum_ones]

end Lib
