import IeumChain.Lib.NewFiles

/-!
# Errors that are caught

A computation on files goes on where a part of it fails: the error gets another text, or other files
are tried. The rules say what becomes of the files then, as `wp` does for the rest, and what a run
leaves (`wp_runOn`).
-/

namespace Lib

namespace Disk
variable {P α : Type}

/-- `sync_all`. -/
def syncAll (place : P) : DiskM P Unit := do
  match ← operate [place] with
  | some fault => throw fault.message
  | none => return ()

/-- `match` over the result of a computation. -/
def recover (x : DiskM P α) (handler : String → DiskM P α) : DiskM P α := fun d =>
  match x d with
  | (.ok a, d') => (.ok a, d')
  | (.error e, d') => handler e d'

section
variable {Q : α → HashMap P Bytes → Prop} {C : HashMap P Bytes → Prop} {files : HashMap P Bytes}

lemma wp_syncAll {Q : Unit → HashMap P Bytes → Prop} {place : P} (hC : C files) (hQ : Q () files) :
    wp (syncAll place) Q C files :=
  wp_operate (fun _ => wp_throw hC) (wp_pure hQ)

/-- Where the computation fails, the handler goes on. -/
lemma wp_recover {x : DiskM P α} {handler : String → DiskM P α}
    (h : wp x Q (fun after => ∀ e, wp (handler e) Q C after) files) :
    wp (recover x handler) Q C files := by
  intro d hd
  obtain ⟨hok, herror⟩ := h d hd
  unfold recover
  cases hx : x d with
  | mk result d' =>
    rw [hx] at hok herror
    cases result with
    | ok a => exact ⟨fun b hb => hok b hb, fun e he => absurd he (by rintro ⟨⟩)⟩
    | error e => exact herror e rfl e d' rfl

lemma wp_mapError {f : String → String} {x : DiskM P α} (h : wp x Q C files) :
    wp (mapError f x) Q C files := by
  intro d hd
  obtain ⟨hok, herror⟩ := h d hd
  unfold mapError
  cases hx : (x d).1 with
  | ok a => exact ⟨fun b hb => hok b (by rw [hx]; exact hb), fun e he => absurd he (by rintro ⟨⟩)⟩
  | error e => exact ⟨fun b hb => absurd hb (by rintro ⟨⟩), fun _ _ => herror e hx⟩

variable [DecidableEq P]

/-- A file that is there may be looked for in vain, but none is found that is not there. -/
lemma wp_probe {Q : Bool → HashMap P Bytes → Prop} {place : P}
    (htrue : place ∈ files → Q true files) (hfalse : Q false files) :
    wp (probe place) Q C files := by
  refine wp_operate (fun _ => wp_pure hfalse) (wp_current (wp_pure ?_))
  cases hfound : (files.lookup place).isSome with
  | true => exact htrue (Finmap.lookup_isSome.mp hfound)
  | false => exact hfalse

/-- A file that is there is not written again. -/
lemma wp_writeNew {Q : Unit → HashMap P Bytes → Prop} {place : P} {bytes : Bytes} (hC : C files)
    (htorn : place ∉ files → ∀ left, C (files.insert place left))
    (hQ : place ∉ files → Q () (files.insert place bytes)) :
    wp (writeNew place bytes) Q C files := by
  refine wp_current (wp_operate (fun fault => ?_) (wp_bind ?_))
  · dsimp only
    split
    · exact wp_throw hC
    next left hleft =>
      have hnew : place ∉ files := by
        intro hmem
        rw [if_pos hmem] at hleft
        cases hleft
      exact wp_bind (wp_update (wp_throw (htorn hnew left)))
  · exact wp_lift (fun _ hnew => wp_update (hQ (ensure_eq_ok.mp hnew))) fun _ _ => hC

omit [DecidableEq P] in
protected lemma Returns.syncAll {Q : Unit → HashMap P Bytes → Prop} {place : P} (h : Q () files) :
    Returns (syncAll place) Q files := Returns.operate (Returns.pure h)

omit [DecidableEq P] in
/-- The handler is not asked where nothing fails. -/
protected lemma Returns.recover {x : DiskM P α} {handler : String → DiskM P α}
    (h : Returns x Q files) : Returns (recover x handler) Q files := by
  intro d hd hfiles
  obtain ⟨found, d', hx, hd', ha⟩ := h d hd hfiles
  exact ⟨found, d', by rw [Disk.recover, hx], hd', ha⟩

omit [DecidableEq P] in
/-- What a run returns and leaves. -/
lemma wp_runOn {x : DiskM P α} (h : wp x Q C files) (faults : ℕ → Option Fault) :
    (∀ a, (runOn x faults files).1 = .ok a → Q a (runOn x faults files).2) ∧
      ∀ e, (runOn x faults files).1 = .error e → C (runOn x faults files).2 := h _ rfl

end

end Disk

end Lib
