import IeumChain.Lib.HashMap

/-!
# The entries of a map in the order of their keys

`sortedEntries` lists what an ordered map holds the way it is iterated over: every entry once, in
ascending order of the keys. `sortByKey` brings a list of entries into that order.
-/

namespace Lib

variable {K V : Type} [LinearOrder K]

lemma pairwise_sortedList (s : Finset K) : (sortedList s).Pairwise (· < ·) := by
  obtain ⟨⟨l⟩, hl⟩ := s
  have hnodup : (l.insertionSort (· ≤ ·)).Nodup :=
    (List.perm_insertionSort (· ≤ ·) l).nodup_iff.mpr (Multiset.coe_nodup.mp hl)
  refine ((List.pairwise_insertionSort (· ≤ ·) l).and hnodup).imp ?_
  exact fun h => lt_of_le_of_ne h.1 h.2

lemma length_sortedList (s : Finset K) : (sortedList s).length = s.card := by
  obtain ⟨⟨l⟩, hl⟩ := s
  exact List.length_insertionSort (· ≤ ·) l

/-- The entries of a map in the order of their keys. -/
def sortedEntries (m : HashMap K V) : List (K × V) :=
  (sortedList m.keys).filterMap fun k => (m.lookup k).map fun v => (k, v)

lemma mem_sortedEntries {m : HashMap K V} {k : K} {v : V} :
    (k, v) ∈ sortedEntries m ↔ m.lookup k = some v := by
  rw [sortedEntries, List.mem_filterMap]
  constructor
  · rintro ⟨k', _, h⟩
    obtain ⟨v', hv', heq⟩ := Option.map_eq_some_iff.mp h
    obtain ⟨rfl, rfl⟩ := Prod.mk.inj heq
    exact hv'
  · intro h
    refine ⟨k, ?_, by rw [h]; rfl⟩
    rw [mem_sortedList, Finmap.mem_keys]
    exact Finmap.mem_of_lookup_eq_some h

lemma pairwise_sortedEntries (m : HashMap K V) :
    (sortedEntries m).Pairwise fun a b => a.1 < b.1 := by
  refine (pairwise_sortedList m.keys).filterMap _ fun k k' hlt a ha b hb => ?_
  obtain ⟨v, _, rfl⟩ := Option.map_eq_some_iff.mp ha
  obtain ⟨v', _, rfl⟩ := Option.map_eq_some_iff.mp hb
  exact hlt

lemma nodup_sortedEntries (m : HashMap K V) : ((sortedEntries m).map Prod.fst).Nodup :=
  List.pairwise_map.mpr ((pairwise_sortedEntries m).imp fun hlt => hlt.ne)

lemma mem_keys_sortedEntries {m : HashMap K V} {k : K} :
    k ∈ (sortedEntries m).map Prod.fst ↔ ∃ v, m.lookup k = some v := by
  rw [List.mem_map]
  constructor
  · rintro ⟨⟨k', v⟩, hmem, rfl⟩
    exact ⟨v, mem_sortedEntries.mp hmem⟩
  · rintro ⟨v, hv⟩
    exact ⟨(k, v), mem_sortedEntries.mpr hv, rfl⟩

/-- Entries sorted by their keys. The sort is stable. -/
def sortByKey (l : List (K × V)) : List (K × V) := l.insertionSort fun a b => a.1 ≤ b.1

lemma mem_sortByKey {l : List (K × V)} {a : K × V} : a ∈ sortByKey l ↔ a ∈ l :=
  List.mem_insertionSort _

lemma pairwise_sortByKey {l : List (K × V)} (h : (l.map Prod.fst).Nodup) :
    (sortByKey l).Pairwise fun a b => a.1 < b.1 := by
  have hperm : (sortByKey l).Perm l := List.perm_insertionSort _ l
  have hnodup : (sortByKey l).Pairwise fun a b => a.1 ≠ b.1 := by
    rw [← List.pairwise_map]
    exact (hperm.map Prod.fst).nodup_iff.mpr h
  have htotal : ∀ a b : K × V, a.1 ≤ b.1 ∨ b.1 ≤ a.1 := fun a b => le_total a.1 b.1
  have hsorted : (sortByKey l).Pairwise fun a b => a.1 ≤ b.1 := by
    have : IsTrans (K × V) fun a b => a.1 ≤ b.1 := ⟨fun _ _ _ => le_trans⟩
    have : Std.Total fun a b : K × V => a.1 ≤ b.1 := ⟨htotal⟩
    exact List.pairwise_insertionSort _ l
  exact (hsorted.and hnodup).imp fun h => lt_of_le_of_ne h.1 h.2

end Lib
