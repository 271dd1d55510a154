import IeumChain.Lib.SortedEntries

/-!
# Adding up over the entries of a map

A hash map is iterated over in an order that it does not fix. What a loop adds up on the way does
not depend on it: it is the total over the entries (`sum_values`), and the total is the sum over any
list of distinct keys that misses none (`total_eq_sum_share`).
-/

namespace Lib

namespace HashMap
variable {K V : Type} [DecidableEq K]

/-- The values of a map in one of the orders in which it may be iterated over. -/
def Values (m : HashMap K V) (values : List V) : Prop :=
  m.entries.map (fun entry => entry.2) = (values : Multiset V)

/-- An order in which the values of each map are iterated over. -/
structure Iteration (K V : Type) where
  values : HashMap K V → List V
  exact : ∀ m, Values m (values m)

omit [DecidableEq K] in
lemma sum_values {m : HashMap K V} {values : List V} (h : Values m values) (f : V → ℕ) :
    (values.map f).sum = total f m := by
  have hmap : m.entries.map (fun entry => f entry.2) =
      (m.entries.map fun entry => entry.2).map f := by
    rw [Multiset.map_map]
    rfl
  rw [total, hmap, h, Multiset.map_coe, Multiset.sum_coe]

lemma mem_values {m : HashMap K V} {values : List V} (h : Values m values) {v : V} :
    v ∈ values ↔ ∃ k, m.lookup k = some v := by
  have hmem : v ∈ values ↔ v ∈ m.entries.map fun entry => entry.2 := by
    rw [h, Multiset.mem_coe]
  rw [hmem, Multiset.mem_map]
  constructor
  · rintro ⟨⟨k, w⟩, hentry, rfl⟩
    exact ⟨k, Finmap.lookup_eq_some_iff.mpr hentry⟩
  · rintro ⟨k, hk⟩
    exact ⟨⟨k, v⟩, Finmap.lookup_eq_some_iff.mp hk, rfl⟩

lemma total_eq_share_add (f : V → ℕ) (m : HashMap K V) (k : K) :
    total f m = share f m k + total f (m.erase k) := by
  rw [share]
  cases h : m.lookup k with
  | none =>
    have hk : k ∉ m := Finmap.lookup_eq_none.mp h
    have herase : m.erase k = m := by
      apply Finmap.ext_lookup
      intro a
      by_cases ha : a = k
      · rw [ha, Finmap.lookup_erase, h]
      · rw [Finmap.lookup_erase_ne ha]
    rw [herase, Option.map_none, Option.getD_none, Nat.zero_add]
  | some v =>
    have hold := total_insert_of_notMem f (Finmap.notMem_erase_self (a := k) (s := m)) v
    rw [insert_erase, insert_lookup h] at hold
    rw [hold, Option.map_some, Option.getD_some]

/-- The total is a sum over distinct keys, if every key of the map is among them. -/
theorem total_eq_sum_share (f : V → ℕ) :
    ∀ {keys : List K} {m : HashMap K V}, keys.Nodup → (∀ k v, m.lookup k = some v → k ∈ keys) →
      total f m = (keys.map (share f m)).sum := by
  intro keys
  induction keys with
  | nil =>
    intro m _ hkeys
    have hempty : m = ∅ := by
      apply Finmap.ext_lookup
      intro a
      cases ha : m.lookup a with
      | none => rw [Finmap.lookup_empty]
      | some v => exact absurd (hkeys a v ha) List.not_mem_nil
    rw [hempty]
    rfl
  | cons k keys ih =>
    intro m hnodup hkeys
    have hk : k ∉ keys := (List.nodup_cons.mp hnodup).1
    have hrest : total f (m.erase k) = (keys.map (share f (m.erase k))).sum := by
      apply ih (List.nodup_cons.mp hnodup).2
      intro a v ha
      have hne : a ≠ k := by
        rintro rfl
        rw [Finmap.lookup_erase] at ha
        exact absurd ha (by simp)
      rw [Finmap.lookup_erase_ne hne] at ha
      exact List.mem_of_ne_of_mem hne (hkeys a v ha)
    have hshares : keys.map (share f (m.erase k)) = keys.map (share f m) := by
      apply List.map_congr_left
      intro a ha
      have hne : a ≠ k := fun heq => hk (heq ▸ ha)
      rw [share, share, Finmap.lookup_erase_ne hne]
    rw [total_eq_share_add f m k, hrest, hshares, List.map_cons, List.sum_cons]

/-- `len`: the number of entries. -/
def len (m : HashMap K V) : ℕ := Multiset.card m.entries

omit [DecidableEq K] in
lemma len_eq_total (m : HashMap K V) : len m = total (fun _ => 1) m := by
  rw [len, total, Multiset.map_const', Multiset.sum_replicate, smul_eq_mul, Nat.mul_one]

lemma len_insert {m : HashMap K V} {k : K} (h : m.lookup k = none) (v : V) :
    len (m.insert k v) = len m + 1 := by
  rw [len_eq_total, len_eq_total, total_insert_of_notMem _ (Finmap.lookup_eq_none.mp h),
    Nat.add_comm]

lemma len_erase {m : HashMap K V} {k : K} {v : V} (h : m.lookup k = some v) :
    len (m.erase k) + 1 = len m := by
  rw [len_eq_total, len_eq_total, total_eq_share_add (fun _ => 1) m k, share, h, Option.map_some,
    Option.getD_some, Nat.add_comm]

lemma len_eq_zero {m : HashMap K V} : len m = 0 ↔ ∀ k, m.lookup k = none := by
  rw [len, Multiset.card_eq_zero]
  constructor
  · intro h k
    have hempty : m = ∅ := Finmap.ext h
    rw [hempty, Finmap.lookup_empty]
  · intro h
    have hempty : m = ∅ := Finmap.ext_lookup fun k => by rw [h, Finmap.lookup_empty]
    rw [hempty]
    rfl

/-- The iteration of an ordered map. -/
def Iteration.sorted {K V : Type} [LinearOrder K] : Iteration K V where
  values m := (sortedEntries m).map Prod.snd
  exact m := by
    have hentries : m.entries =
        (((sortedEntries m).map fun entry => (⟨entry.1, entry.2⟩ : Sigma fun _ : K => V) :
          List (Sigma fun _ : K => V)) : Multiset (Sigma fun _ : K => V)) := by
      have hnodup : ((sortedEntries m).map fun entry =>
          (⟨entry.1, entry.2⟩ : Sigma fun _ : K => V)).Nodup := by
        apply List.Nodup.of_map Sigma.fst
        rw [List.map_map]
        exact nodup_sortedEntries m
      refine (Multiset.Nodup.ext m.nodup_entries (Multiset.coe_nodup.mpr hnodup)).mpr ?_
      rintro ⟨k, v⟩
      rw [← Finmap.lookup_eq_some_iff, ← mem_sortedEntries, Multiset.mem_coe, List.mem_map]
      constructor
      · exact fun h => ⟨(k, v), h, rfl⟩
      · rintro ⟨entry, hentry, heq⟩
        cases heq
        exact hentry
    rw [Values, hentries, Multiset.map_coe, List.map_map]
    rfl

/-- What a collected map holds is one of the pairs. -/
lemma mem_of_lookup_ofList {l : List (K × V)} {k : K} {v : V}
    (h : (ofList l).lookup k = some v) : (k, v) ∈ l := by
  induction l using List.reverseRecOn with
  | nil => cases h
  | append_singleton l entry ih =>
    rw [ofList_concat, lookup_insert] at h
    rw [List.mem_append, List.mem_singleton]
    by_cases hk : k = entry.1
    · rw [if_pos hk, Option.some.injEq] at h
      exact .inr (Prod.ext hk h.symm)
    · rw [if_neg hk] at h
      exact .inl (ih h)

lemma mem_ofList {l : List (K × V)} {k : K} : k ∈ ofList l ↔ k ∈ l.map Prod.fst := by
  induction l using List.reverseRecOn with
  | nil => simp [ofList, Finmap.notMem_empty]
  | append_singleton l entry ih =>
    rw [ofList_concat, Finmap.mem_insert, ih, List.map_append, List.map_singleton, List.mem_append,
      List.mem_singleton, or_comm]

/-- A map collected from distinct keys holds every pair. -/
lemma lookup_ofList {l : List (K × V)} (h : (l.map Prod.fst).Nodup) {k : K} {v : V} :
    (ofList l).lookup k = some v ↔ (k, v) ∈ l := by
  induction l using List.reverseRecOn with
  | nil => simp [ofList]
  | append_singleton l entry ih =>
    rw [List.map_append, List.nodup_append] at h
    obtain ⟨hl, _, hlast⟩ := h
    rw [ofList_concat, lookup_insert, List.mem_append, List.mem_singleton]
    by_cases hk : k = entry.1
    · rw [if_pos hk, Option.some.injEq]
      have hnot : (k, v) ∉ l := fun hmem =>
        hlast k (List.mem_map.mpr ⟨(k, v), hmem, rfl⟩) entry.1 (by simp) hk
      constructor
      · rintro rfl
        exact .inr (Prod.ext hk rfl)
      · rintro (hmem | heq)
        · exact absurd hmem hnot
        · rw [← heq]
    · rw [if_neg hk, ih hl]
      constructor
      · exact fun hmem => .inl hmem
      · rintro (hmem | heq)
        · exact hmem
        · exact absurd (congrArg Prod.fst heq) hk

end HashMap

/-! ## Two shares of a sum -/

/-- What satisfies one of two exclusive conditions weighs at most the whole. -/
lemma sum_ite_add_le {α : Type} (l : List α) (f : α → ℕ) {p q : α → Prop} [DecidablePred p]
    [DecidablePred q] (h : ∀ a ∈ l, p a → ¬ q a) :
    (l.map fun a => if p a then f a else 0).sum + (l.map fun a => if q a then f a else 0).sum ≤
      (l.map f).sum := by
  induction l with
  | nil => simp
  | cons a l ih =>
    have hrest := ih fun b hb => h b (List.mem_cons_of_mem a hb)
    have hhead := h a List.mem_cons_self
    simp only [List.map_cons, List.sum_cons]
    by_cases hp : p a
    · rw [if_pos hp, if_neg (hhead hp)]
      omega
    · rw [if_neg hp]
      split <;> omega

end Lib
