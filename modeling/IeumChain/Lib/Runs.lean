import Mathlib.Data.List.Basic

/-!
# What holds along a run

A run is a list of steps. `Along` says that something holds of every step and the steps before it;
it is proved and used one last step at a time (`along_concat`).
-/

namespace Lib

variable {α : Type}

/-- `P` holds of every step of a run, after the steps before it. -/
def Along (P : List α → α → Prop) (steps : List α) : Prop :=
  ∀ before a after, steps = before ++ a :: after → P before a

lemma along_nil (P : List α → α → Prop) : Along P [] := by
  intro before a after heq
  exact absurd heq (by simp)

lemma along_concat {P : List α → α → Prop} {steps : List α} {a : α} :
    Along P (steps ++ [a]) ↔ Along P steps ∧ P steps a := by
  constructor
  · intro h
    refine ⟨fun before b after heq => h before b (after ++ [a]) ?_, h steps a [] rfl⟩
    rw [heq, List.append_assoc, List.cons_append]
  · rintro ⟨hsteps, hlast⟩ before b after heq
    rcases List.eq_nil_or_concat after with rfl | ⟨rest, last, rfl⟩
    · obtain ⟨rfl, hb⟩ := List.append_inj' heq rfl
      exact (List.cons.inj hb).1 ▸ hlast
    · rw [List.concat_eq_append, ← List.cons_append, ← List.append_assoc] at heq
      obtain ⟨hsame, _⟩ := List.append_inj' heq rfl
      exact hsteps before b rest hsame

end Lib
