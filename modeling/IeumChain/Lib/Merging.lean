import Mathlib.Data.List.Perm.Basic
import Mathlib.Data.List.Basic

/-!
# Parts that are merged group by group

A collection of named parts is compacted by groups, one after the other. The members of a group
become one part under the target name of the group, which takes the place of an older part of that
name, if the group has a member at all. Of the contents nothing is left but that of the parts that
were not written over (`kept_merged`).
-/

namespace Lib

/-- The names that belong to a group, and the name of what they are merged into. -/
structure MergeGroup (N : Type) where
  member : N → Bool
  target : N

namespace MergeGroup
variable {N B : Type} [DecidableEq N] {g : MergeGroup N} {groups : List (MergeGroup N)}

/-- The targets that are written over when the groups are merged, in this order. -/
def overwritten : List (MergeGroup N) → List N → List N
  | [], _ => []
  | g :: groups, names =>
    (if names.any g.member then [g.target] else []) ++
      overwritten groups (names.filter fun name => !g.member name)

/-- The parts that are not written over. -/
def kept (groups : List (MergeGroup N)) (parts : List (N × List B)) : List (N × List B) :=
  parts.filter fun part => part.1 ∉ overwritten groups (parts.map Prod.fst)

/-- The parts after the members of a group were merged. -/
def merged (g : MergeGroup N) (content : List B) (parts : List (N × List B)) : List (N × List B) :=
  (parts.filter fun part => !g.member part.1 && part.1 ≠ g.target) ++ [(g.target, content)]

/-- Every group has a target of its own, and no target is merged. -/
structure Separate (groups : List (MergeGroup N)) : Prop where
  nodup : (groups.map target).Nodup
  not_member : ∀ g ∈ groups, ∀ g' ∈ groups, g.member g'.target = false

omit [DecidableEq N] in
lemma Separate.tail (h : Separate (g :: groups)) : Separate groups where
  nodup := (List.nodup_cons.mp h.nodup).2
  not_member := fun a ha b hb =>
    h.not_member a (List.mem_cons_of_mem _ ha) b (List.mem_cons_of_mem _ hb)

omit [DecidableEq N] in
lemma target_of_mem_overwritten {name : N} : ∀ {groups : List (MergeGroup N)} {names : List N},
    name ∈ overwritten groups names → ∃ g ∈ groups, g.target = name := by
  intro groups
  induction groups with
  | nil => exact fun h => absurd h List.not_mem_nil
  | cons g groups ih =>
    intro names h
    rcases List.mem_append.mp h with h | h
    · split at h
      · exact ⟨g, List.mem_cons_self, (List.mem_singleton.mp h).symm⟩
      · cases h
    · obtain ⟨g', hg', htarget⟩ := ih h
      exact ⟨g', List.mem_cons_of_mem _ hg', htarget⟩

omit [DecidableEq N] in
/-- What is written over depends on the members of the groups alone. -/
lemma overwritten_congr : ∀ {groups : List (MergeGroup N)} {names names' : List N},
    (∀ g ∈ groups, ∀ name, g.member name → (name ∈ names ↔ name ∈ names')) →
      overwritten groups names = overwritten groups names' := by
  intro groups
  induction groups with
  | nil => exact fun _ => rfl
  | cons g groups ih =>
    intro names names' h
    obtain ⟨hfirst, hrest⟩ := List.forall_mem_cons.mp h
    have hany : names.any g.member = names'.any g.member := by
      rw [Bool.eq_iff_iff, List.any_eq_true, List.any_eq_true]
      constructor
      · rintro ⟨name, hmem, hname⟩
        exact ⟨name, (hfirst name hname).mp hmem, hname⟩
      · rintro ⟨name, hmem, hname⟩
        exact ⟨name, (hfirst name hname).mpr hmem, hname⟩
    rw [overwritten, overwritten, hany]
    congr 1
    apply ih
    intro g' hg' name hname
    rw [List.mem_filter, List.mem_filter, hrest g' hg' name hname]

/-- A group without members leaves everything as it is. -/
lemma kept_cons_of_forall {parts : List (N × List B)} (h : ∀ part ∈ parts, g.member part.1 = false) :
    kept (g :: groups) parts = kept groups parts := by
  have hnone : (parts.map Prod.fst).any g.member = false := by
    rw [List.any_eq_false]
    intro name hname
    obtain ⟨part, hpart, rfl⟩ := List.mem_map.mp hname
    rw [h part hpart]
    exact Bool.false_ne_true
  have hall : (parts.map Prod.fst).filter (fun name => !g.member name) = parts.map Prod.fst := by
    rw [List.filter_eq_self]
    intro name hname
    rw [List.any_eq_false] at hnone
    simpa using hnone name hname
  rw [kept, kept, overwritten, hnone, hall]
  rfl

/-- What is kept is not the target of a group with members. -/
lemma kept_cons_subset {parts : List (N × List B)} (h : ∃ part ∈ parts, g.member part.1) :
    ∀ part ∈ kept (g :: groups) parts, part ∈ parts.filter fun part => part.1 ≠ g.target := by
  intro part hpart
  obtain ⟨hmem, hkept⟩ := List.mem_filter.mp hpart
  refine List.mem_filter.mpr ⟨hmem, decide_eq_true ?_⟩
  intro htarget
  refine of_decide_eq_true hkept ?_
  obtain ⟨member, hmember, hname⟩ := h
  have hany : (parts.map Prod.fst).any g.member = true :=
    List.any_eq_true.mpr ⟨member.1, List.mem_map_of_mem hmember, hname⟩
  rw [overwritten, hany, htarget]
  exact List.mem_append_left _ (List.mem_singleton.mpr rfl)

/-- Members are kept. -/
lemma filter_kept_member {parts : List (N × List B)} (hseparate : Separate (g :: groups)) :
    (kept (g :: groups) parts).filter (fun part => g.member part.1) =
      parts.filter fun part => g.member part.1 := by
  rw [kept, List.filter_filter]
  apply List.filter_congr
  rintro ⟨name, content⟩ -
  cases hmember : g.member name with
  | false => rfl
  | true =>
    rw [Bool.true_and, decide_eq_true_eq]
    intro hname
    obtain ⟨g', hg', rfl⟩ := target_of_mem_overwritten hname
    rw [hseparate.not_member g List.mem_cons_self g' hg'] at hmember
    cases hmember

/-- **Merging a group** leaves the contents of what is kept. -/
theorem kept_merged {parts : List (N × List B)} {content : List B}
    (hseparate : Separate (g :: groups)) (hany : ∃ part ∈ parts, g.member part.1)
    (hcontent : content.Perm ((parts.filter fun part => g.member part.1).flatMap Prod.snd)) :
    ((kept groups (merged g content parts)).flatMap Prod.snd).Perm
      ((kept (g :: groups) parts).flatMap Prod.snd) := by
  have hnames : overwritten groups ((merged g content parts).map Prod.fst) =
      overwritten groups ((parts.map Prod.fst).filter fun name => !g.member name) := by
    apply overwritten_congr
    intro g' hg' name hname
    have hne : name ≠ g.target := by
      rintro rfl
      rw [hseparate.not_member g' (List.mem_cons_of_mem _ hg') g List.mem_cons_self] at hname
      cases hname
    simp only [merged, List.map_append, List.mem_append, List.mem_map, List.mem_filter,
      List.map_singleton, List.mem_singleton, hne, or_false, Bool.and_eq_true, decide_eq_true_eq]
    constructor
    · rintro ⟨part, ⟨hpart, hmember, -⟩, rfl⟩
      exact ⟨⟨part, hpart, rfl⟩, hmember⟩
    · rintro ⟨⟨part, hpart, rfl⟩, hmember⟩
      exact ⟨part, ⟨hpart, hmember, hne⟩, rfl⟩
  have htarget : g.target ∉
      overwritten groups ((parts.map Prod.fst).filter fun name => !g.member name) := by
    intro hmem
    obtain ⟨g', hg', heq⟩ := target_of_mem_overwritten hmem
    refine (List.nodup_cons.mp hseparate.nodup).1 ?_
    rw [← heq]
    exact List.mem_map_of_mem hg'
  have hfirst : (parts.map Prod.fst).any g.member = true := by
    obtain ⟨part, hpart, hmember⟩ := hany
    exact List.any_eq_true.mpr ⟨part.1, List.mem_map_of_mem hpart, hmember⟩
  -- the other parts that are kept are the same
  have hothers : kept groups (merged g content parts) =
      (kept (g :: groups) parts).filter (fun part => !g.member part.1) ++ [(g.target, content)] := by
    rw [kept, hnames, merged, List.filter_append, List.filter_filter, kept, List.filter_filter]
    congr 1
    · apply List.filter_congr
      rintro ⟨name, blocks⟩ -
      rw [Bool.eq_iff_iff]
      simp only [overwritten, hfirst, if_true, List.singleton_append, List.mem_cons, not_or,
        Bool.and_eq_true, decide_eq_true_eq]
      tauto
    · exact List.filter_eq_self.mpr fun part hpart => by
        rw [List.mem_singleton.mp hpart]
        exact decide_eq_true htarget
  have hsplit := List.filter_append_perm (fun part => g.member part.1) (kept (g :: groups) parts)
  rw [filter_kept_member hseparate] at hsplit
  rw [hothers, List.flatMap_append, List.flatMap_singleton]
  refine List.perm_append_comm.trans ((hcontent.append_right _).trans ?_)
  rw [← List.flatMap_append]
  exact hsplit.flatMap_right _

/-! ## The members are removed one by one -/

/-- The parts with the target in its place, before the members are removed. -/
def replaced (g : MergeGroup N) (content : List B) (parts : List (N × List B)) :
    List (N × List B) :=
  parts.filter (fun part => part.1 ≠ g.target) ++ [(g.target, content)]

section
variable {parts : List (N × List B)} {content : List B} {removed : List N}

/-- While some members are removed, the target has their contents. -/
lemma mem_of_mem_kept (htarget : g.member g.target = false)
    (hany : ∃ part ∈ parts, g.member part.1)
    (hcontent : content.Perm ((parts.filter fun part => g.member part.1).flatMap Prod.snd))
    (hremoved : ∀ name ∈ removed, g.member name) {b : B}
    (hb : b ∈ (kept (g :: groups) parts).flatMap Prod.snd) :
    b ∈ ((replaced g content parts).filter fun part => part.1 ∉ removed).flatMap Prod.snd := by
  obtain ⟨part, hpart, hmem⟩ := List.mem_flatMap.mp hb
  have hother := kept_cons_subset hany part hpart
  by_cases hgone : part.1 ∈ removed
  · refine List.mem_flatMap.mpr ⟨(g.target, content), ?_, ?_⟩
    · refine List.mem_filter.mpr ⟨List.mem_append_right _ (List.mem_singleton.mpr rfl), ?_⟩
      rw [decide_eq_true_eq]
      intro hmember
      rw [hremoved _ hmember] at htarget
      cases htarget
    · refine hcontent.mem_iff.mpr (List.mem_flatMap.mpr ⟨part, ?_, hmem⟩)
      exact List.mem_filter.mpr ⟨List.mem_of_mem_filter hother, hremoved _ hgone⟩
  · refine List.mem_flatMap.mpr ⟨part, List.mem_filter.mpr ⟨?_, decide_eq_true hgone⟩, hmem⟩
    exact List.mem_append_left _ hother

/-- When all of them are removed, the group is merged. -/
lemma filter_replaced (htarget : g.member g.target = false)
    (hremoved : ∀ name, name ∈ removed ↔ name ∈ parts.map Prod.fst ∧ g.member name) :
    (replaced g content parts).filter (fun part => part.1 ∉ removed) = merged g content parts := by
  rw [replaced, merged, List.filter_append, List.filter_filter]
  congr 1
  · apply List.filter_congr
    intro part hmem
    have hiff := hremoved part.1
    simp only [List.mem_map_of_mem hmem, true_and] at hiff
    simp [hiff]
  · refine List.filter_eq_self.mpr fun part hmem => ?_
    rw [List.mem_singleton.mp hmem, decide_eq_true_eq, hremoved, htarget]
    exact fun h => Bool.false_ne_true h.2

end

end MergeGroup

end Lib
