import IeumChain.Lib.Result

/-!
# Errors a computation does not return

`Avoids S x` says that `x` fails with no error text of `S`. A sequence of computations avoids what
its parts avoid, and a guard avoids every text but its own, so that the statement is taken apart
along the code.
-/

namespace Lib

variable {α β : Type} {S : Set String}

/-- The computation fails with no error of the set. -/
def Avoids (S : Set String) (x : Result α) : Prop := ∀ e ∈ S, x ≠ .error e

namespace Avoids

@[simp] lemma ok (a : α) : Avoids S (.ok a : Result α) := fun _ _ h => by cases h

@[simp] lemma pure (a : α) : Avoids S (Pure.pure a : Result α) := fun _ _ h => by cases h

@[simp] lemma error_iff {e : String} : Avoids S (.error e : Result α) ↔ e ∉ S := by
  constructor
  · intro h he
    exact h e he rfl
  · intro he e' he' heq
    cases heq
    exact he he'

/-- The second computation of a sequence counts where the first returned a value. -/
lemma bind_iff {x : Result α} {f : α → Result β} :
    Avoids S (x >>= f) ↔ Avoids S x ∧ ∀ a, x = .ok a → Avoids S (f a) := by
  cases x with
  | error e => simp [bind, Except.bind]
  | ok a => simp [bind, Except.bind]

@[simp] lemma map_iff {f : α → β} {x : Result α} : Avoids S (f <$> x) ↔ Avoids S x := by
  cases x with
  | error e => simp [Functor.map, Except.map]
  | ok a => simp [Functor.map, Except.map]

lemma ensure_iff {c : Prop} [Decidable c] {message : String} :
    Avoids S (ensure c message) ↔ (message ∈ S → c) := by
  unfold ensure
  split
  next hc => simp [hc]
  next hc => simp [hc]

lemma okOr_iff {o : Option α} {message : String} :
    Avoids S (okOr o message) ↔ (message ∈ S → ∃ a, o = some a) := by
  cases o with
  | none => simp [okOr]
  | some a => simp [okOr]

/-- A guard whose text is not in the set. -/
lemma ensure {c : Prop} [Decidable c] {message : String} (h : message ∉ S) :
    Avoids S (Lib.ensure c message) :=
  ensure_iff.mpr fun hmem => absurd hmem h

/-- A conversion whose text is not in the set. -/
lemma okOr {o : Option α} {message : String} (h : message ∉ S) : Avoids S (Lib.okOr o message) :=
  okOr_iff.mpr fun hmem => absurd hmem h

lemma bind {x : Result α} {f : α → Result β} (hx : Avoids S x)
    (hf : ∀ a, x = .ok a → Avoids S (f a)) : Avoids S (x >>= f) := bind_iff.mpr ⟨hx, hf⟩

/-- A loop whose steps keep an invariant, and avoid the errors under it. -/
lemma foldlM {f : β → α → Result β} (P : β → Prop)
    (step : ∀ s a, P s → Avoids S (f s a) ∧ ∀ s', f s a = .ok s' → P s') :
    ∀ (l : List α) (s : β), P s → Avoids S (l.foldlM f s) := by
  intro l
  induction l with
  | nil => exact fun s _ => pure s
  | cons a l ih =>
    intro s hs
    obtain ⟨havoids, hkeeps⟩ := step s a hs
    rw [List.foldlM_cons]
    exact bind havoids fun s' hs' => ih s' (hkeeps s' hs')

/-- A loop whose steps avoid the errors in every state. -/
lemma foldlM_of_forall {f : β → α → Result β} (step : ∀ s a, Avoids S (f s a)) (l : List α)
    (s : β) : Avoids S (l.foldlM f s) :=
  foldlM (fun _ => True) (fun s a _ => ⟨step s a, fun _ _ => trivial⟩) l s trivial

end Avoids

end Lib
