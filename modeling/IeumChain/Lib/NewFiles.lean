import IeumChain.Lib.Disk

/-!
# Files that are created once

A file that is opened with `create_new` is never one that exists. A computation that writes no other
files keeps every file as it is, whatever fails in it, so that what was read from a file once is read
from it for ever. `Gives` says this of a computation together with what it returns.
-/

namespace Lib

namespace Disk
variable {P : Type}

/-- `exists`: also `false` where the file cannot be looked at. -/
def probe [DecidableEq P] (place : P) : DiskM P Bool := do
  match ← operate [place] with
  | some _ => return false
  | none => return ((← current).lookup place).isSome

/-- Create a file that does not exist, and write it, with the messages of either part. Where it fails
and leaves nothing behind, the file was not created. -/
def createNew [DecidableEq P] (createError writeError : String → String) (place : P)
    (bytes : Bytes) : DiskM P Unit := do
  let files ← current
  match ← operate [place] with
  | some fault =>
    match if place ∈ files then none else fault.left with
    | none => throw (createError fault.message)
    | some left =>
      update fun files => files.insert place left
      throw (writeError fault.message)
  | none =>
    lift (ensure (place ∉ files) (createError "File exists (os error 17)"))
    update fun files => files.insert place bytes

/-- The same, with the messages as they are. -/
def writeNew [DecidableEq P] (place : P) (bytes : Bytes) : DiskM P Unit :=
  createNew id id place bytes

/-- `map_err`. -/
def mapError {α : Type} (f : String → String) (x : DiskM P α) : DiskM P α :=
  fun d => ((x d).1.mapError f, (x d).2)

variable [DecidableEq P] {files middle after : HashMap P Bytes} {place : P} {bytes : Bytes}
  {createError writeError : String → String}

/-! ## More files -/

/-- Every file of the first disk is on the second. -/
def Extended (files after : HashMap P Bytes) : Prop :=
  ∀ p bytes, files.lookup p = some bytes → after.lookup p = some bytes

lemma extended_refl (files : HashMap P Bytes) : Extended files files := fun _ _ h => h

lemma Extended.trans (h : Extended files middle) (h' : Extended middle after) :
    Extended files after :=
  fun p bytes hp => h' p bytes (h p bytes hp)

lemma extended_insert (h : place ∉ files) (bytes : Bytes) :
    Extended files (files.insert place bytes) := by
  intro p found hp
  rw [HashMap.lookup_insert, if_neg]
  · exact hp
  · rintro rfl
    exact h (Finmap.mem_of_lookup_eq_some hp)

lemma mem_of_extended (h : Extended files after) (hplace : place ∈ files) : place ∈ after := by
  obtain ⟨bytes, hbytes⟩ := Finmap.mem_iff.mp hplace
  exact Finmap.mem_of_lookup_eq_some (h place bytes hbytes)

/-- A file from which a value is read. -/
def Holds {α : Type} (files : HashMap P Bytes) (place : P) (f : Bytes → Option α) (a : α) : Prop :=
  ∃ bytes, files.lookup place = some bytes ∧ f bytes = some a

lemma Holds.mono {α : Type} {f : Bytes → Option α} {a : α} (h : Holds files place f a)
    (hmore : Extended files after) : Holds after place f a := by
  obtain ⟨bytes, hbytes, ha⟩ := h
  exact ⟨bytes, hmore place bytes hbytes, ha⟩

lemma Holds.mem {α : Type} {f : Bytes → Option α} {a : α} (h : Holds files place f a) :
    place ∈ files := by
  obtain ⟨bytes, hbytes, _⟩ := h
  exact Finmap.mem_of_lookup_eq_some hbytes

lemma Holds.unique {α : Type} {f : Bytes → Option α} {a b : α} (h : Holds files place f a)
    (h' : Holds files place f b) : a = b := by
  obtain ⟨bytes, hbytes, ha⟩ := h
  obtain ⟨bytes', hbytes', hb⟩ := h'
  rw [hbytes] at hbytes'
  obtain rfl := Option.some.inj hbytes'
  exact Option.some.inj (ha.symm.trans hb)

/-! ## Computations that only create files -/

/-- The computation keeps every file, and where it returns, `Q` holds. -/
def Gives {α : Type} (x : DiskM P α) (Q : α → HashMap P Bytes → Prop) (files : HashMap P Bytes) :
    Prop :=
  ∀ d, d.files = files → Extended files (x d).2.files ∧ ∀ a, (x d).1 = .ok a → Q a (x d).2.files

namespace Gives
variable {α β : Type} {Q Q' : α → HashMap P Bytes → Prop} {R : β → HashMap P Bytes → Prop}

lemma mono {x : DiskM P α} (h : Gives x Q files)
    (hQ : ∀ a after, Extended files after → Q a after → Q' a after) : Gives x Q' files := by
  intro d hd
  obtain ⟨hmore, hok⟩ := h d hd
  exact ⟨hmore, fun a ha => hQ a _ hmore (hok a ha)⟩

protected lemma pure {a : α} (h : Q a files) : Gives (pure a) Q files := by
  rintro d rfl
  refine ⟨extended_refl _, fun b hb => ?_⟩
  obtain rfl : a = b := Except.ok.inj hb
  exact h

protected lemma throw (e : String) : Gives (throw e : DiskM P α) Q files := by
  rintro d rfl
  exact ⟨extended_refl _, fun a ha => absurd ha (by rintro ⟨⟩)⟩

protected lemma lift {x : Result α} (h : ∀ a, x = .ok a → Q a files) : Gives (lift x) Q files := by
  rintro d rfl
  exact ⟨extended_refl _, h⟩

/-- A check leaves the files as they are. -/
lemma check (x : Result α) : Gives (lift x) (fun a after => x = .ok a ∧ after = files) files :=
  .lift fun _ h => ⟨h, rfl⟩

protected lemma bind {x : DiskM P β} {f : β → DiskM P α} (hx : Gives x R files)
    (hf : ∀ b after, Extended files after → R b after → Gives (f b) Q after) :
    Gives (x >>= f) Q files := by
  intro d hd
  obtain ⟨hmore, hok⟩ := hx d hd
  have hbind : (x >>= f) d = ExceptT.bindCont f (x d).1 (x d).2 := rfl
  rw [hbind]
  cases hresult : (x d).1 with
  | error e => exact ⟨hmore, fun a ha => absurd ha (by rintro ⟨⟩)⟩
  | ok b =>
    obtain ⟨hmore', hok'⟩ := hf b _ hmore (hok b hresult) (x d).2 rfl
    exact ⟨hmore.trans hmore', hok'⟩

protected lemma mapError {f : String → String} {x : DiskM P α} (h : Gives x Q files) :
    Gives (mapError f x) Q files := by
  intro d hd
  obtain ⟨hmore, hok⟩ := h d hd
  exact ⟨hmore, fun a ha => hok a (mapError_eq_ok.mp ha)⟩

protected lemma operate {places : List P} {f : Option Fault → DiskM P α}
    (hfault : ∀ fault, Gives (f (some fault)) Q files) (hnone : Gives (f none) Q files) :
    Gives (operate places >>= f) Q files := by
  rintro d rfl
  rw [operate_bind]
  cases hfound : d.faults d.operations with
  | none => exact hnone _ rfl
  | some fault => exact hfault fault _ rfl

protected lemma current {f : HashMap P Bytes → DiskM P α} (h : Gives (f files) Q files) :
    Gives (current >>= f) Q files := by
  rintro d rfl
  rw [current_bind]
  exact h d rfl

protected lemma createDir : Gives (createDir place) (fun _ _ => True) files :=
  .operate (fun _ => .throw _) (.pure trivial)

protected lemma read : Gives (read place) (fun found _ => files.lookup place = found) files :=
  .operate (fun _ => .throw _) (.current (.pure rfl))

protected lemma probe : Gives (probe place) (fun found _ => found = true → place ∈ files) files := by
  refine .operate (fun _ => .pure (by simp)) (.current (.pure fun hsome => ?_))
  obtain ⟨bytes, hbytes⟩ := Option.isSome_iff_exists.mp hsome
  exact Finmap.mem_of_lookup_eq_some hbytes

protected lemma update {Q : Unit → HashMap P Bytes → Prop}
    {f : HashMap P Bytes → HashMap P Bytes} (hmore : Extended files (f files))
    (h : Q () (f files)) : Gives (update f) Q files := by
  rintro d rfl
  exact ⟨hmore, fun _ _ => h⟩

/-- A file that is created was not there. -/
protected lemma createNew : Gives (createNew createError writeError place bytes)
    (fun _ after => place ∉ files ∧ after.lookup place = some bytes) files := by
  refine .current (.operate (fun fault => ?_) ?_)
  · dsimp only
    split
    · exact .throw _
    next left hleft =>
      have hnew : place ∉ files := by
        intro hmem
        rw [if_pos hmem] at hleft
        cases hleft
      refine Gives.bind (R := fun _ _ => True) (.update ?_ trivial) fun _ _ _ _ => .throw _
      exact extended_insert hnew left
  · refine Gives.bind (R := fun _ after => after = files ∧ place ∉ files)
      (.lift fun _ hnew => ⟨rfl, ensure_eq_ok.mp hnew⟩) ?_
    rintro _ _ _ ⟨rfl, hnew⟩
    exact .update (extended_insert hnew bytes) ⟨hnew, HashMap.lookup_insert_self _ _ _⟩

end Gives

/-! ## Disks without failures -/

omit [DecidableEq P] in
protected lemma Returns.mapError {α : Type} {Q : α → HashMap P Bytes → Prop} {f : String → String}
    {x : DiskM P α} (h : Returns x Q files) : Returns (mapError f x) Q files := by
  intro d hd hfiles
  obtain ⟨found, d', hx, hd', ha⟩ := h d hd hfiles
  refine ⟨found, d', ?_, hd', ha⟩
  rw [Disk.mapError, hx]
  rfl

omit [DecidableEq P] in
protected lemma Returns.ensure {Q : Unit → HashMap P Bytes → Prop} {p : Prop} [Decidable p]
    {e : String} (hp : p) (h : Q () files) : Returns (Disk.lift (Lib.ensure p e)) Q files :=
  Returns.lift (a := ()) (ensure_eq_ok.mpr hp) h

protected lemma Returns.probe {Q : Bool → HashMap P Bytes → Prop}
    (h : Q (files.lookup place).isSome files) : Returns (probe place) Q files :=
  Returns.operate (Returns.current (Returns.pure h))

protected lemma Returns.writeNew {Q : Unit → HashMap P Bytes → Prop} (hnew : place ∉ files)
    (h : Q () (files.insert place bytes)) : Returns (writeNew place bytes) Q files :=
  Returns.current (Returns.operate (Returns.bind (Returns.ensure hnew (Returns.update h))))

/-- Where nothing fails the computation returns the value, and the files are as before. -/
def Reads {α : Type} (x : DiskM P α) (a : α) (files : HashMap P Bytes) : Prop :=
  Returns x (fun b after => b = a ∧ after = files) files

namespace Reads
variable {α β : Type} {a : α} {b : β}

omit [DecidableEq P] in
protected lemma pure : Reads (pure a) a files := Returns.pure ⟨rfl, rfl⟩

omit [DecidableEq P] in
protected lemma lift {x : Result α} (h : x = .ok a) : Reads (lift x) a files :=
  Returns.lift h ⟨rfl, rfl⟩

omit [DecidableEq P] in
protected lemma ensure {p : Prop} [Decidable p] {e : String} (h : p) :
    Reads (Disk.lift (ensure p e)) () files := .lift (ensure_eq_ok.mpr h)

omit [DecidableEq P] in
protected lemma bind {x : DiskM P β} {f : β → DiskM P α} (hx : Reads x b files)
    (hf : Reads (f b) a files) : Reads (x >>= f) a files := by
  refine Returns.bind (hx.mono ?_)
  rintro _ _ ⟨rfl, rfl⟩
  exact hf

omit [DecidableEq P] in
protected lemma mapError {f : String → String} {x : DiskM P α} (h : Reads x a files) :
    Reads (mapError f x) a files := Returns.mapError h

omit [DecidableEq P] in
protected lemma createDir : Reads (createDir place) () files := Returns.createDir ⟨rfl, rfl⟩

protected lemma read (h : files.lookup place = some bytes) : Reads (read place) (some bytes) files :=
  Returns.read ⟨h, rfl⟩

protected lemma probe (h : place ∈ files) : Reads (probe place) true files :=
  Returns.operate (Returns.current (Returns.pure ⟨Finmap.lookup_isSome.mpr h, rfl⟩))

end Reads

/-! ## Runs -/

/-- A computation on some files, with the operations that fail: what it returns, and the files
after it. -/
def runOn {α : Type} (x : DiskM P α) (faults : ℕ → Option Fault) (files : HashMap P Bytes) :
    Result α × HashMap P Bytes :=
  let done := x { files, faults, operations := 0, used := [] }
  (done.1, done.2.files)

lemma Gives.runOn {α : Type} {x : DiskM P α} {Q : α → HashMap P Bytes → Prop}
    (h : Gives x Q files) (faults : ℕ → Option Fault) :
    Extended files (runOn x faults files).2 ∧
      ∀ a, (runOn x faults files).1 = .ok a → Q a (runOn x faults files).2 := h _ rfl

omit [DecidableEq P] in
lemma Returns.runOn {α : Type} {Q : α → HashMap P Bytes → Prop} {x : DiskM P α}
    (h : Returns x Q files) : ∃ a, (Disk.runOn x (fun _ => none) files).1 = .ok a ∧
      Q a (Disk.runOn x (fun _ => none) files).2 := by
  obtain ⟨a, d, hx, _, ha⟩ :=
    h { files, faults := fun _ => none, operations := 0, used := [] } (fun _ _ => rfl) rfl
  unfold Disk.runOn
  rw [hx]
  exact ⟨a, rfl, ha⟩

omit [DecidableEq P] in
lemma Reads.runOn {α : Type} {x : DiskM P α} {a : α} (h : Reads x a files) :
    runOn x (fun _ => none) files = (.ok a, files) := by
  obtain ⟨_, hok, rfl, hfiles⟩ := Returns.runOn h
  exact Prod.ext hok hfiles

end Disk

end Lib
