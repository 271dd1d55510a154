import Mathlib.Data.Finmap
import Mathlib.Data.List.Sort
import Mathlib.Algebra.BigOperators.Group.Finset.Basic
import Mathlib.Tactic

/-!
# Finite maps with a total

A hash map is a finite map with decidable keys: Mathlib's `Finmap` with a constant value type,
so that two maps with the same entries are equal whatever order they were filled in. This file
adds what an accounting program needs of one:

* `ofList`, a map collected from a list of pairs, where a later pair replaces an earlier one;
* `sortedList`, the members of a finite set in ascending order;
* `total`, the sum of a measure over all entries, with `total_insert`, the one fact about it
  that an update needs: writing an entry changes the total by new value minus old value;
* `total_ofList_eq_iff`, when a map collected from a list has the total of the list.
-/

namespace Lib

/-- A finite map from `K` to `V`. -/
abbrev HashMap (K V : Type) := Finmap (fun _ : K => V)

/-- The members of a finite set in ascending order. Every list of them sorts to the same one. -/
def sortedList {K : Type} [LinearOrder K] (s : Finset K) : List K :=
  Quot.liftOn s.val (fun l => l.insertionSort (· ≤ ·)) fun _ _ h =>
    List.Perm.eq_of_pairwise' (List.pairwise_insertionSort _ _) (List.pairwise_insertionSort _ _)
      ((List.perm_insertionSort _ _).trans (h.trans (List.perm_insertionSort _ _).symm))

@[simp] lemma mem_sortedList {K : Type} [LinearOrder K] {s : Finset K} {a : K} :
    a ∈ sortedList s ↔ a ∈ s := by
  obtain ⟨⟨l⟩, hl⟩ := s
  exact List.mem_insertionSort _

lemma nodup_sortedList {K : Type} [LinearOrder K] (s : Finset K) : (sortedList s).Nodup := by
  obtain ⟨⟨l⟩, hl⟩ := s
  exact (List.perm_insertionSort _ l).nodup_iff.mpr hl

/-- A set is determined by its members in order. -/
lemma sortedList_inj {K : Type} [LinearOrder K] {s t : Finset K}
    (h : sortedList s = sortedList t) : s = t := by
  ext a
  rw [← mem_sortedList, h, mem_sortedList]

/-- Members that stand in order already stay so. -/
lemma sortedList_of_sorted {K : Type} [LinearOrder K] {s : Finset K} {l : List K}
    (hl : l.Pairwise (· < ·)) (hs : ∀ a, a ∈ s ↔ a ∈ l) : sortedList s = l := by
  have hnodup : (l : Multiset K).Nodup := Multiset.coe_nodup.mpr (hl.imp fun h => h.ne)
  have heq : s = ⟨l, hnodup⟩ := Finset.ext fun a => by rw [hs, Finset.mem_mk, Multiset.mem_coe]
  rw [heq]
  exact (hl.imp fun h => h.le).insertionSort_eq

namespace HashMap
variable {K V : Type} [DecidableEq K]

/-- The map collected from a list of pairs. -/
def ofList (l : List (K × V)) : HashMap K V :=
  l.foldl (fun m entry => m.insert entry.1 entry.2) ∅

/-- The sum of `f` over the values of all entries. -/
def total (f : V → ℕ) (m : HashMap K V) : ℕ := (m.entries.map fun entry => f entry.2).sum

/-- What the entry at `k` contributes to the total: nothing when there is none. -/
def share (f : V → ℕ) (m : HashMap K V) (k : K) : ℕ := ((m.lookup k).map f).getD 0

@[simp] lemma lookup_insert_self (m : HashMap K V) (k : K) (v : V) :
    (m.insert k v).lookup k = some v := Finmap.lookup_insert m

lemma lookup_insert (m : HashMap K V) (k a : K) (v : V) :
    (m.insert k v).lookup a = if a = k then some v else m.lookup a := by
  split
  · rename_i h
    rw [h, lookup_insert_self]
  · rename_i h
    exact Finmap.lookup_insert_of_ne m h

lemma total_insert_of_notMem (f : V → ℕ) {m : HashMap K V} {k : K} (h : k ∉ m) (v : V) :
    total f (m.insert k v) = f v + total f m := by
  rw [total, Finmap.entries_insert_of_notMem h, Multiset.map_cons, Multiset.sum_cons, total]

/-- Writing over the entry at `k` is writing into the map without it. -/
lemma insert_erase (m : HashMap K V) (k : K) (v : V) :
    (m.erase k).insert k v = m.insert k v := by
  apply Finmap.ext_lookup
  intro a
  by_cases h : a = k
  · rw [h, lookup_insert_self, lookup_insert_self]
  · rw [lookup_insert, lookup_insert, if_neg h, if_neg h, Finmap.lookup_erase_ne h]

/-- Writing back the value that is there changes nothing. -/
lemma insert_lookup {m : HashMap K V} {k : K} {v : V} (h : m.lookup k = some v) :
    m.insert k v = m := by
  apply Finmap.ext_lookup
  intro a
  rw [lookup_insert]
  split
  · rename_i ha
    rw [ha, h]
  · rfl

/-- Writing `v` at `k` changes the total by `f v` minus what stood at `k`. -/
theorem total_insert (f : V → ℕ) (m : HashMap K V) (k : K) (v : V) :
    total f (m.insert k v) + share f m k = total f m + f v := by
  have hnew := total_insert_of_notMem f (Finmap.notMem_erase_self (a := k) (s := m)) v
  rw [insert_erase] at hnew
  cases h : m.lookup k with
  | none =>
    have hk : k ∉ m := Finmap.lookup_eq_none.mp h
    rw [total_insert_of_notMem f hk, share, h]
    simp only [Option.map_none, Option.getD_none, add_zero]
    exact Nat.add_comm _ _
  | some old =>
    have hold := total_insert_of_notMem f (Finmap.notMem_erase_self (a := k) (s := m)) old
    rw [insert_erase, insert_lookup h] at hold
    simp only [share, h, Option.map_some, Option.getD_some]
    omega

/-! ## The total of a collected map -/

lemma ofList_concat (l : List (K × V)) (entry : K × V) :
    ofList (l ++ [entry]) = (ofList l).insert entry.1 entry.2 := by
  rw [ofList, List.foldl_append]
  rfl

/-- The entries that a later entry of the same key replaces are worth nothing. -/
def ReplacesNothing (f : V → ℕ) (l : List (K × V)) : Prop :=
  l.Pairwise fun a b => a.1 = b.1 → f a.2 = 0

omit [DecidableEq K] in
lemma replacesNothing_concat {f : V → ℕ} {l : List (K × V)} {entry : K × V} :
    ReplacesNothing f (l ++ [entry]) ↔
      ReplacesNothing f l ∧ ∀ a ∈ l, a.1 = entry.1 → f a.2 = 0 := by
  simp [ReplacesNothing, List.pairwise_append]

/-- The entry at a key is worth nothing when all pairs of the key are. -/
lemma share_ofList_eq_zero {f : V → ℕ} {l : List (K × V)} {k : K} (hl : ReplacesNothing f l) :
    share f (ofList l) k = 0 ↔ ∀ a ∈ l, a.1 = k → f a.2 = 0 := by
  induction l using List.reverseRecOn with
  | nil => simp [share, ofList]
  | append_singleton l entry ih =>
    obtain ⟨hrest, hlast⟩ := replacesNothing_concat.mp hl
    rw [ofList_concat, share, lookup_insert]
    split
    next hk =>
      -- the last pair has the key, and the ones before it are worth nothing
      simp only [Option.map_some, Option.getD_some, List.mem_append, List.mem_singleton]
      constructor
      · intro hzero a ha hak
        rcases ha with hold | rfl
        · exact hlast a hold (hak.trans hk)
        · exact hzero
      · intro hall
        exact hall entry (.inr rfl) hk.symm
    next hk =>
      have hsame := ih hrest
      rw [share] at hsame
      rw [hsame]
      simp only [List.mem_append, List.mem_singleton]
      constructor
      · intro hall a ha hak
        rcases ha with hold | rfl
        · exact hall a hold hak
        · exact absurd hak.symm hk
      · exact fun hall a ha => hall a (.inl ha)

/-- Collecting loses exactly what is replaced. -/
theorem total_ofList_eq_iff (f : V → ℕ) (l : List (K × V)) :
    total f (ofList l) = (l.map fun entry => f entry.2).sum ↔ ReplacesNothing f l := by
  have hle : ∀ l : List (K × V), total f (ofList l) ≤ (l.map fun entry => f entry.2).sum := by
    intro l
    induction l using List.reverseRecOn with
    | nil => exact Nat.zero_le _
    | append_singleton l entry ih =>
      have hinsert := total_insert f (ofList l) entry.1 entry.2
      rw [ofList_concat, List.map_append, List.sum_append, List.map_singleton, List.sum_singleton]
      omega
  induction l using List.reverseRecOn with
  | nil => exact ⟨fun _ => List.Pairwise.nil, fun _ => rfl⟩
  | append_singleton l entry ih =>
    have hinsert := total_insert f (ofList l) entry.1 entry.2
    have hbefore := hle l
    rw [ofList_concat, List.map_append, List.sum_append, List.map_singleton, List.sum_singleton,
      replacesNothing_concat]
    constructor
    · intro heq
      -- neither the entries before nor the replaced entry lose anything
      have hrest : ReplacesNothing f l := ih.mp (by omega)
      exact ⟨hrest, (share_ofList_eq_zero hrest).mp (by omega)⟩
    · rintro ⟨hrest, hlast⟩
      have hsum := ih.mpr hrest
      have hshare := (share_ofList_eq_zero hrest).mpr hlast
      omega

end HashMap

end Lib
