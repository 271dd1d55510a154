import Mathlib.Tactic

/-!
# Results, guards and checked machine arithmetic

The vocabulary a function with early error returns is translated into:

* `Result`, a value or an error text, with `ensure` for "return the error unless" and
  `okOr` for the conversion of an optional value;
* the inversion lemmas (`bind_eq_ok`, `ensure_eq_ok`, `okOr_eq_ok`) that take a successful
  computation apart, so that a proof never unfolds the monad;
* fixed-width arithmetic: `U128`, its checked operations, and `addOne` on 64-bit counters,
  which stops at the overflow as a build with overflow checks does.
-/

namespace Lib

/-- A value or an error text. -/
abbrev Result (α : Type) := Except String α

/-- Succeed when `c` holds, return the error `message` otherwise. -/
def ensure (c : Prop) [Decidable c] (message : String) : Result Unit :=
  if c then .ok () else .error message

/-- The value of an option, or the error `message`. -/
def okOr {α : Type} (o : Option α) (message : String) : Result α :=
  match o with
  | some a => .ok a
  | none => .error message

/-- The value of a computation, or `default` when it failed: the state after a call that changes
nothing on an error. -/
def getOk {α : Type} (x : Result α) (default : α) : α :=
  match x with
  | .ok a => a
  | .error _ => default

/-- Does the computation return a value? -/
def isOk {α : Type} : Result α → Bool
  | .ok _ => true
  | .error _ => false

section Inversion
variable {ε ε' α β : Type}

@[simp] lemma ensure_eq_ok {c : Prop} [Decidable c] {message : String} {u : Unit} :
    ensure c message = .ok u ↔ c := by
  unfold ensure
  split <;> simp_all

@[simp] lemma okOr_eq_ok {o : Option α} {message : String} {a : α} :
    okOr o message = .ok a ↔ o = some a := by
  cases o <;> simp [okOr]

/-- A sequence of two computations succeeds through the value of the first. -/
@[simp] lemma bind_eq_ok {x : Except ε α} {f : α → Except ε β} {b : β} :
    (x >>= f) = .ok b ↔ ∃ a, x = .ok a ∧ f a = .ok b := by
  cases x with
  | error e => simp [bind, Except.bind]
  | ok a => simp [bind, Except.bind]

@[simp] lemma pure_eq_ok {a b : α} : (pure a : Except ε α) = .ok b ↔ a = b := by
  simp [pure, Except.pure]

@[simp] lemma mapError_eq_ok {x : Except ε α} {f : ε → ε'} {a : α} :
    x.mapError f = .ok a ↔ x = .ok a := by
  cases x <;> simp [Except.mapError]

@[simp] lemma getOk_ok (a b : α) : getOk (.ok a) b = a := rfl

@[simp] lemma getOk_error (e : String) (b : α) : getOk (.error e) b = b := rfl

@[simp] lemma isOk_iff {x : Result α} : isOk x = true ↔ ∃ a, x = .ok a := by
  cases x <;> simp [isOk]

/-- A computation that returns no value returns an error. -/
lemma exists_error {x : Result α} (h : ∀ a, x ≠ .ok a) : ∃ e, x = .error e := by
  cases x with
  | error e => exact ⟨e, rfl⟩
  | ok a => exact absurd rfl (h a)

/-- A loop over a list succeeds exactly when its first step and the remaining loop do. -/
lemma foldlM_cons_eq_ok {f : β → α → Result β} {a : α} {l : List α} {s t : β} :
    (a :: l).foldlM f s = .ok t ↔ ∃ s', f s a = .ok s' ∧ l.foldlM f s' = .ok t := by
  rw [List.foldlM_cons, bind_eq_ok]

/-- A loop of checks succeeds exactly when every check does. -/
lemma forM_eq_ok {f : α → Result Unit} {l : List α} :
    l.forM f = .ok () ↔ ∀ a ∈ l, f a = .ok () := by
  induction l with
  | nil => simp [pure, Except.pure]
  | cons a l ih =>
    show (f a >>= fun _ => l.forM f) = .ok () ↔ _
    rw [bind_eq_ok, List.forall_mem_cons, ← ih]
    constructor
    · rintro ⟨_, ha, hl⟩
      exact ⟨ha, hl⟩
    · rintro ⟨ha, hl⟩
      exact ⟨(), ha, hl⟩

/-- Carry a relation through a loop: what every successful step preserves, a successful loop
preserves. -/
theorem foldlM_induction {f : β → α → Result β} (P : β → Prop)
    (step : ∀ s a s', P s → f s a = .ok s' → P s') :
    ∀ (l : List α) (s t : β), P s → l.foldlM f s = .ok t → P t := by
  intro l
  induction l with
  | nil =>
    intro s t hs h
    rw [List.foldlM_nil, pure_eq_ok] at h
    exact h ▸ hs
  | cons a l ih =>
    intro s t hs h
    obtain ⟨s', hstep, hrest⟩ := foldlM_cons_eq_ok.mp h
    exact ih s' t (step s a s' hs hstep) hrest

/-- What every step of a successful loop checks holds of all elements. -/
theorem foldlM_forall {f : β → α → Result β} (P : α → Prop)
    (step : ∀ s a s', f s a = .ok s' → P a) :
    ∀ {l : List α} {s t : β}, l.foldlM f s = .ok t → ∀ a ∈ l, P a := by
  intro l
  induction l with
  | nil => simp
  | cons a l ih =>
    intro s t h
    obtain ⟨s', hstep, hrest⟩ := foldlM_cons_eq_ok.mp h
    exact List.forall_mem_cons.mpr ⟨step s a s' hstep, ih hrest⟩

/-- A loop whose steps each keep `P` exactly when their element has `Q` keeps it exactly when all
elements have. -/
theorem foldlM_iff {f : β → α → Result β} {P : β → Prop} {Q : α → Prop}
    (step : ∀ s a s', f s a = .ok s' → (P s' ↔ P s ∧ Q a)) :
    ∀ {l : List α} {s t : β}, l.foldlM f s = .ok t → (P t ↔ P s ∧ ∀ a ∈ l, Q a) := by
  intro l
  induction l with
  | nil =>
    intro s t h
    rw [List.foldlM_nil, pure_eq_ok] at h
    simp [h]
  | cons a l ih =>
    intro s t h
    obtain ⟨s', hstep, hrest⟩ := foldlM_cons_eq_ok.mp h
    rw [ih hrest, step s a s' hstep, List.forall_mem_cons, and_assoc]

end Inversion

/-! ## Fixed-width arithmetic -/

/-- Unsigned 128-bit integers. -/
abbrev U128 := BitVec 128

namespace U128

/-- Addition, or nothing when the sum does not fit. -/
def checkedAdd (a b : U128) : Option U128 :=
  if a.toNat + b.toNat < 2 ^ 128 then some (a + b) else none

/-- Multiplication, or nothing when the product does not fit. -/
def checkedMul (a b : U128) : Option U128 :=
  if a.toNat * b.toNat < 2 ^ 128 then some (a * b) else none

lemma checkedAdd_eq_some {a b c : U128} :
    checkedAdd a b = some c ↔ c.toNat = a.toNat + b.toNat := by
  unfold checkedAdd
  split
  · rename_i h
    rw [Option.some.injEq, ← BitVec.toNat_inj, BitVec.toNat_add, Nat.mod_eq_of_lt h, eq_comm]
  · rename_i h
    have hc : c.toNat < 2 ^ 128 := c.isLt
    simp only [reduceCtorEq, false_iff]
    omega

lemma checkedMul_eq_some {a b c : U128} :
    checkedMul a b = some c ↔ c.toNat = a.toNat * b.toNat := by
  unfold checkedMul
  split
  · rename_i h
    rw [Option.some.injEq, ← BitVec.toNat_inj, BitVec.toNat_mul, Nat.mod_eq_of_lt h, eq_comm]
  · rename_i h
    have hc : c.toNat < 2 ^ 128 := c.isLt
    simp only [reduceCtorEq, false_iff]
    omega

/-- Addition that stays at the largest value. -/
def saturatingAdd (a b : U128) : U128 := BitVec.ofNat 128 (min (a.toNat + b.toNat) (2 ^ 128 - 1))

lemma toNat_sub {a b : U128} (h : b.toNat ≤ a.toNat) : (a - b).toNat = a.toNat - b.toNat :=
  BitVec.toNat_sub_of_le (BitVec.le_def.mpr h)

end U128

/-- The next value of a 64-bit counter; the overflow ends the call. -/
def addOne (n : UInt64) : Result UInt64 :=
  if n.toNat + 1 < 2 ^ 64 then .ok (n + 1) else .error "attempt to add with overflow"

@[simp] lemma addOne_eq_ok {n m : UInt64} : addOne n = .ok m ↔ m.toNat = n.toNat + 1 := by
  unfold addOne
  split
  · rename_i h
    have hn : (n + 1).toNat = n.toNat + 1 := by
      rw [UInt64.toNat_add]
      exact Nat.mod_eq_of_lt h
    rw [Except.ok.injEq, ← UInt64.toNat_inj, hn, eq_comm]
  · rename_i h
    have hm := m.toNat_lt
    simp only [reduceCtorEq, false_iff]
    omega

/-- Addition that stays at the largest 64-bit value. -/
def saturatingAdd (a b : ℕ) : ℕ := min (a + b) (2 ^ 64 - 1)

/-- Multiplication that stays at the largest 64-bit value. -/
def saturatingMul (a b : ℕ) : ℕ := min (a * b) (2 ^ 64 - 1)

end Lib
