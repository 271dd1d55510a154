import IeumChain.Lib.Bytes
import IeumChain.Lib.HashMap
import IeumChain.Lib.Result

/-!
# File operations that can fail

A program that works on files, as a computation on a disk. A disk has the bytes of every file and
says which of the operations to come fail, counted from the start; a crash is a failure of every
operation from some point on. It keeps record of the places that were used.

* `bind_eq`: a sequence of two computations that returns is two that return;
* `Uses`: what is used by a computation, part by part;
* `wp`: what becomes of the files, where the computation returns and where it fails;
* `Takes`: the same, with the number of operations until it returns;
* `wpFrom`: the same, where it is known which operations fail.
-/

namespace Lib

/-- How an operation fails: its message, and the bytes that a write leaves behind. -/
structure Fault where
  message : String
  left : Option Bytes

structure Disk (P : Type) where
  files : HashMap P Bytes
  faults : ℕ → Option Fault
  operations : ℕ
  used : List P

/-- An order in which the files are listed. -/
structure Listing (P : Type) where
  places : HashMap P Bytes → List P
  nodup : ∀ files, (places files).Nodup
  mem_places : ∀ files p, p ∈ places files ↔ p ∈ files

/-- The files in the order of a key. -/
def Listing.sorted {P K : Type} [LinearOrder K] (key : P → K) (hkey : Function.Injective key) :
    Listing P :=
  letI : LinearOrder P := LinearOrder.lift' key hkey
  { places := fun files => sortedList files.keys
    nodup := fun files => nodup_sortedList files.keys
    mem_places := fun _ _ => mem_sortedList.trans Finmap.mem_keys }

/-- A computation on a disk. -/
abbrev DiskM (P α : Type) := ExceptT String (StateM (Disk P)) α

namespace Disk
variable {P : Type}

/-- One operation on some places. -/
def operate (places : List P) : DiskM P (Option Fault) := fun d =>
  (.ok (d.faults d.operations),
    { d with operations := d.operations + 1, used := d.used ++ places })

/-- Change the files. -/
def update (f : HashMap P Bytes → HashMap P Bytes) : DiskM P Unit := fun d =>
  (.ok (), { d with files := f d.files })

/-- The files. -/
def current : DiskM P (HashMap P Bytes) := fun d => (.ok d.files, d)

/-- A check that has nothing to do with files. -/
def lift {α : Type} (x : Result α) : DiskM P α := fun d => (x, d)

/-- `create_dir_all`, with the directories it makes. Directories are not kept. -/
def createDirs (made : List P) : DiskM P Unit := do
  match ← operate made with
  | some fault => throw fault.message
  | none => return ()

/-- `create_dir_all` where the directories above the last one are no places of the program. -/
def createDir (place : P) : DiskM P Unit := createDirs [place]

variable [DecidableEq P]

/-- `read`: the bytes of a file, or nothing if there is none. -/
def read (place : P) : DiskM P (Option Bytes) := do
  match ← operate [place] with
  | some fault => throw fault.message
  | none => return (← current).lookup place

/-- Create or truncate a file and write it. -/
def write (place : P) (bytes : Bytes) : DiskM P Unit := do
  match ← operate [place] with
  | some fault =>
    update fun files => (fault.left.map (files.insert place)).getD files
    throw fault.message
  | none => update fun files => files.insert place bytes

/-- `rename`. -/
def rename (source target : P) : DiskM P Unit := do
  match ← operate [source, target] with
  | some fault => throw fault.message
  | none =>
    let bytes ← lift (okOr ((← current).lookup source) "No such file or directory (os error 2)")
    update fun files => (files.erase source).insert target bytes

/-- Append to a file, which is created if there is none. -/
def append (place : P) (bytes : Bytes) : DiskM P Unit := do
  match ← operate [place] with
  | some fault =>
    update fun files => (fault.left.map fun left =>
      files.insert place ((files.lookup place).getD [] ++ left)).getD files
    throw fault.message
  | none => update fun files => files.insert place ((files.lookup place).getD [] ++ bytes)

/-- `remove_file`. -/
def remove (place : P) : DiskM P Unit := do
  match ← operate [place] with
  | some fault => throw fault.message
  | none =>
    let _ ← lift (okOr ((← current).lookup place) "No such file or directory (os error 2)")
    update fun files => files.erase place

/-- The length of a file. -/
def size (place : P) : DiskM P ℕ := do
  match ← operate [place] with
  | some fault => throw fault.message
  | none =>
    let bytes ← lift (okOr ((← current).lookup place) "No such file or directory (os error 2)")
    return bytes.length

/-- `exists`, where the directory can be read. -/
def doesExist (place : P) : DiskM P Bool := do
  return ((← current).lookup place).isSome

omit [DecidableEq P] in
/-- The files of a directory, in the order in which it lists them. -/
def list (listing : Listing P) (directory : P → Bool) : DiskM P (List P) := do
  match ← operate [] with
  | some fault => throw fault.message
  | none => return (listing.places (← current)).filter directory

/-- A computation whose failure is of no interest. -/
def attempt (x : DiskM P Unit) : DiskM P Unit := fun d => (.ok (), (x d).2)

/-! ## Sequences -/

section Inversion
variable {α β : Type} {d d' : Disk P}

omit [DecidableEq P] in
/-- A sequence returns through the value and the disk of its first part. -/
lemma bind_eq {x : DiskM P α} {f : α → DiskM P β} {b : β} :
    (x >>= f) d = (.ok b, d') ↔ ∃ a d₁, x d = (.ok a, d₁) ∧ f a d₁ = (.ok b, d') := by
  show ExceptT.bindCont f (x d).1 (x d).2 = _ ↔ _
  cases hx : x d with
  | mk result d₁ =>
    cases result with
    | error e =>
      constructor
      · intro h
        have hresult : (Except.error e : Result β) = .ok b := congrArg Prod.fst h
        cases hresult
      · rintro ⟨a, d₂, heq, _⟩
        exact absurd (congrArg Prod.fst heq) (by simp)
    | ok a =>
      constructor
      · intro h
        exact ⟨a, d₁, rfl, h⟩
      · rintro ⟨a', d₂, heq, h⟩
        obtain ⟨hvalue, hdisk⟩ := Prod.mk.inj heq
        obtain rfl : a = a' := Except.ok.inj hvalue
        obtain rfl : d₁ = d₂ := hdisk
        exact h

omit [DecidableEq P] in
@[simp] lemma lift_eq {x : Result α} {a : α} : lift x d = (.ok a, d') ↔ x = .ok a ∧ d = d' := by
  rw [lift, Prod.mk.injEq]

omit [DecidableEq P] in
@[simp] lemma pure_eq {a b : α} : (pure a : DiskM P α) d = (.ok b, d') ↔ a = b ∧ d = d' := by
  show (Except.ok a, d) = _ ↔ _
  rw [Prod.mk.injEq, Except.ok.injEq]

omit [DecidableEq P] in
lemma operate_bind {places : List P} {f : Option Fault → DiskM P α} :
    (operate places >>= f) d = f (d.faults d.operations)
      { d with operations := d.operations + 1, used := d.used ++ places } := rfl

omit [DecidableEq P] in
lemma current_bind {f : HashMap P Bytes → DiskM P α} : (current >>= f) d = f d.files d := rfl

end Inversion

/-! ## The places that are used -/

/-- Whatever the computation uses has the property, also where it fails. -/
def Uses {α : Type} (Q : P → Prop) (x : DiskM P α) : Prop :=
  ∀ d, ∃ places, (x d).2.used = d.used ++ places ∧ ∀ p ∈ places, Q p

section Uses
variable {α β : Type} {Q : P → Prop}

omit [DecidableEq P] in
lemma Uses.pure (a : α) : Uses Q (pure a) := fun _ => ⟨[], (List.append_nil _).symm, by simp⟩

omit [DecidableEq P] in
lemma Uses.throw (e : String) : Uses Q (throw e : DiskM P α) :=
  fun _ => ⟨[], (List.append_nil _).symm, by simp⟩

omit [DecidableEq P] in
lemma Uses.lift (x : Result α) : Uses Q (lift x) := fun _ => ⟨[], (List.append_nil _).symm, by simp⟩

omit [DecidableEq P] in
lemma Uses.current : Uses Q current := fun _ => ⟨[], (List.append_nil _).symm, by simp⟩

omit [DecidableEq P] in
lemma Uses.update (f : HashMap P Bytes → HashMap P Bytes) : Uses Q (update f) :=
  fun _ => ⟨[], (List.append_nil _).symm, by simp⟩

omit [DecidableEq P] in
lemma Uses.operate {places : List P} (h : ∀ p ∈ places, Q p) : Uses Q (operate places) :=
  fun _ => ⟨places, rfl, h⟩

omit [DecidableEq P] in
lemma Uses.bind {x : DiskM P α} {f : α → DiskM P β} (hx : Uses Q x) (hf : ∀ a, Uses Q (f a)) :
    Uses Q (x >>= f) := by
  intro d
  obtain ⟨places, hused, hplaces⟩ := hx d
  have hbind : (x >>= f) d = ExceptT.bindCont f (x d).1 (x d).2 := rfl
  rw [hbind]
  cases hresult : (x d).1 with
  | error e => exact ⟨places, hused, hplaces⟩
  | ok a =>
    obtain ⟨more, hmore, hall⟩ := hf a (x d).2
    refine ⟨places ++ more, ?_, ?_⟩
    · show (f a (x d).2).2.used = _
      rw [hmore, hused, List.append_assoc]
    · intro p hp
      rcases List.mem_append.mp hp with hp | hp
      · exact hplaces p hp
      · exact hall p hp

omit [DecidableEq P] in
/-- What the first part uses is used. -/
lemma mem_used_bind {x : DiskM P α} {f : α → DiskM P β} {d : Disk P} {p : P}
    (h : p ∈ (x d).2.used) (hf : ∀ a, Uses (fun _ => True) (f a)) :
    p ∈ ((x >>= f) d).2.used := by
  have hbind : (x >>= f) d = ExceptT.bindCont f (x d).1 (x d).2 := rfl
  rw [hbind]
  cases hresult : (x d).1 with
  | error e => exact h
  | ok a =>
    obtain ⟨places, hused, _⟩ := hf a (x d).2
    show p ∈ (f a (x d).2).2.used
    rw [hused]
    exact List.mem_append_left _ h

omit [DecidableEq P] in
/-- After a first part that returns, what the second part uses is used. -/
lemma mem_used_bind_of_ok {x : DiskM P α} {f : α → DiskM P β} {d d' : Disk P} {a : α} {p : P}
    (hx : x d = (.ok a, d')) (h : p ∈ (f a d').2.used) : p ∈ ((x >>= f) d).2.used := by
  have hbind : (x >>= f) d = ExceptT.bindCont f (x d).1 (x d).2 := rfl
  rw [hbind, hx]
  exact h

omit [DecidableEq P] in
lemma mem_used_createDirs {place : P} {made : List P} (h : place ∈ made) (d : Disk P) :
    place ∈ (createDirs made d).2.used := by
  have hoperate : place ∈ (Disk.operate made d).2.used := List.mem_append_right _ h
  apply mem_used_bind hoperate
  rintro (_ | fault)
  · exact Uses.pure ()
  · exact Uses.throw _

omit [DecidableEq P] in
lemma Uses.createDirs {made : List P} (h : ∀ p ∈ made, Q p) : Uses Q (createDirs made) := by
  apply Uses.bind (Uses.operate h)
  rintro (_ | fault)
  · exact Uses.pure ()
  · exact Uses.throw _

lemma mem_used_read (place : P) (d : Disk P) : place ∈ (read place d).2.used := by
  have hoperate : place ∈ (Disk.operate [place] d).2.used :=
    List.mem_append_right _ (List.mem_singleton.mpr rfl)
  apply mem_used_bind hoperate
  rintro (_ | fault)
  · exact Uses.bind Uses.current fun files => Uses.pure _
  · exact Uses.throw _

lemma Uses.read {place : P} (h : Q place) : Uses Q (read place) := by
  apply Uses.bind (Uses.operate (by simpa using h))
  rintro (_ | fault)
  · exact Uses.bind Uses.current fun _ => Uses.pure _
  · exact Uses.throw _

lemma Uses.write {place : P} (h : Q place) (bytes : Bytes) : Uses Q (write place bytes) := by
  apply Uses.bind (Uses.operate (by simpa using h))
  rintro (_ | fault)
  · exact Uses.update _
  · exact Uses.bind (Uses.update _) fun _ => Uses.throw _

lemma Uses.rename {source target : P} (hsource : Q source) (htarget : Q target) :
    Uses Q (rename source target) := by
  apply Uses.bind (Uses.operate (by simpa using ⟨hsource, htarget⟩))
  rintro (_ | fault)
  · exact Uses.bind Uses.current fun _ => Uses.bind (Uses.lift _) fun _ => Uses.update _
  · exact Uses.throw _

end Uses

/-! ## Pre- and postconditions

`wp x Q C files` says what becomes of the files, whatever fails: when `x` returns `a`, `Q a` holds of
them, and when it fails or the process stops in it, `C` does.
-/

section Wp
variable {α β : Type} {Q : α → HashMap P Bytes → Prop} {C : HashMap P Bytes → Prop}
  {files : HashMap P Bytes}

/-- The weakest precondition of a computation for `Q` where it returns and `C` where it fails. -/
def wp (x : DiskM P α) (Q : α → HashMap P Bytes → Prop) (C : HashMap P Bytes → Prop)
    (files : HashMap P Bytes) : Prop :=
  ∀ d, d.files = files → (∀ a, (x d).1 = .ok a → Q a (x d).2.files) ∧
    ∀ e, (x d).1 = .error e → C (x d).2.files

omit [DecidableEq P] in
lemma wp_pure {a : α} (h : Q a files) : wp (pure a) Q C files := by
  rintro d rfl
  refine ⟨fun b hb => ?_, fun e he => absurd he (by rintro ⟨⟩)⟩
  obtain rfl : a = b := Except.ok.inj hb
  exact h

omit [DecidableEq P] in
lemma wp_throw {e : String} (h : C files) : wp (throw e : DiskM P α) Q C files := by
  rintro d rfl
  exact ⟨fun a ha => absurd ha (by rintro ⟨⟩), fun _ _ => h⟩

omit [DecidableEq P] in
lemma wp_lift {x : Result α} (hok : ∀ a, x = .ok a → Q a files)
    (herror : ∀ e, x = .error e → C files) : wp (lift x) Q C files := by
  rintro d rfl
  exact ⟨hok, herror⟩

omit [DecidableEq P] in
lemma wp_bind {x : DiskM P β} {f : β → DiskM P α}
    (h : wp x (fun b after => wp (f b) Q C after) C files) : wp (x >>= f) Q C files := by
  rintro d rfl
  obtain ⟨hok, herror⟩ := h d rfl
  have hbind : (x >>= f) d = ExceptT.bindCont f (x d).1 (x d).2 := rfl
  rw [hbind]
  cases hresult : (x d).1 with
  | ok b => exact hok b hresult (x d).2 rfl
  | error e =>
    exact ⟨fun a ha => absurd ha (by rintro ⟨⟩), fun _ _ => herror e hresult⟩

omit [DecidableEq P] in
lemma wp_mono {x : DiskM P α} {Q' : α → HashMap P Bytes → Prop} {C' : HashMap P Bytes → Prop}
    (h : wp x Q C files) (hQ : ∀ a after, Q a after → Q' a after)
    (hC : ∀ after, C after → C' after) : wp x Q' C' files := by
  intro d hd
  obtain ⟨hok, herror⟩ := h d hd
  exact ⟨fun a ha => hQ a _ (hok a ha), fun e he => hC _ (herror e he)⟩

omit [DecidableEq P] in
/-- An operation either fails or goes on. -/
lemma wp_operate {places : List P} {f : Option Fault → DiskM P α}
    (hfault : ∀ fault, wp (f (some fault)) Q C files) (hnone : wp (f none) Q C files) :
    wp (operate places >>= f) Q C files := by
  apply wp_bind
  rintro d rfl
  refine ⟨fun o ho => ?_, fun e he => absurd he (by rintro ⟨⟩)⟩
  cases o with
  | none => exact hnone
  | some fault => exact hfault fault

omit [DecidableEq P] in
lemma wp_current {f : HashMap P Bytes → DiskM P α} (h : wp (f files) Q C files) :
    wp (current >>= f) Q C files := by
  apply wp_bind
  rintro d rfl
  refine ⟨fun found hfound => ?_, fun e he => absurd he (by rintro ⟨⟩)⟩
  obtain rfl : d.files = found := Except.ok.inj hfound
  exact h

omit [DecidableEq P] in
lemma wp_update {Q : Unit → HashMap P Bytes → Prop} {f : HashMap P Bytes → HashMap P Bytes}
    (h : Q () (f files)) : wp (update f) Q C files := by
  rintro d rfl
  exact ⟨fun _ _ => h, fun e he => absurd he (by rintro ⟨⟩)⟩

omit [DecidableEq P] in
lemma wp_createDir {Q : Unit → HashMap P Bytes → Prop} {place : P} (hC : C files)
    (hQ : Q () files) : wp (createDir place) Q C files :=
  wp_operate (fun _ => wp_throw hC) (wp_pure hQ)

lemma wp_read {Q : Option Bytes → HashMap P Bytes → Prop} {place : P} (hC : C files)
    (hQ : Q (files.lookup place) files) : wp (read place) Q C files :=
  wp_operate (fun _ => wp_throw hC) (wp_current (wp_pure hQ))

lemma wp_write {Q : Unit → HashMap P Bytes → Prop} {place : P} {bytes : Bytes} (hC : C files)
    (htorn : ∀ left, C (files.insert place left)) (hQ : Q () (files.insert place bytes)) :
    wp (write place bytes) Q C files := by
  refine wp_operate (fun fault => wp_bind (wp_update (wp_throw ?_))) (wp_update hQ)
  cases fault.left with
  | none => exact hC
  | some left => exact htorn left

lemma wp_append {Q : Unit → HashMap P Bytes → Prop} {place : P} {bytes : Bytes} (hC : C files)
    (htorn : ∀ left, C (files.insert place left))
    (hQ : Q () (files.insert place ((files.lookup place).getD [] ++ bytes))) :
    wp (append place bytes) Q C files := by
  refine wp_operate (fun fault => wp_bind (wp_update (wp_throw ?_))) (wp_update hQ)
  cases fault.left with
  | none => exact hC
  | some left => exact htorn _

lemma wp_rename {Q : Unit → HashMap P Bytes → Prop} {source target : P} (hC : C files)
    (hQ : ∀ bytes, files.lookup source = some bytes →
      Q () ((files.erase source).insert target bytes)) :
    wp (rename source target) Q C files := by
  refine wp_operate (fun _ => wp_throw hC) (wp_current (wp_bind (wp_lift ?_ fun _ _ => hC)))
  intro bytes hbytes
  exact wp_update (hQ bytes (okOr_eq_ok.mp hbytes))

lemma wp_remove {Q : Unit → HashMap P Bytes → Prop} {place : P} (hC : C files)
    (hQ : ∀ bytes, files.lookup place = some bytes → Q () (files.erase place)) :
    wp (remove place) Q C files := by
  refine wp_operate (fun _ => wp_throw hC) (wp_current (wp_bind (wp_lift ?_ fun _ _ => hC)))
  intro bytes hbytes
  exact wp_update (hQ bytes (okOr_eq_ok.mp hbytes))

lemma wp_doesExist {Q : Bool → HashMap P Bytes → Prop} {place : P}
    (hQ : Q (files.lookup place).isSome files) : wp (doesExist place) Q C files :=
  wp_current (wp_pure hQ)

omit [DecidableEq P] in
lemma wp_list {Q : List P → HashMap P Bytes → Prop} {listing : Listing P} {directory : P → Bool}
    (hC : C files) (hQ : Q ((listing.places files).filter directory) files) :
    wp (list listing directory) Q C files :=
  wp_operate (fun _ => wp_throw hC) (wp_current (wp_pure hQ))

omit [DecidableEq P] in
lemma wp_attempt {Q : Unit → HashMap P Bytes → Prop} {x : DiskM P Unit}
    (h : wp x Q (Q ()) files) : wp (attempt x) Q C files := by
  intro d hd
  obtain ⟨hok, herror⟩ := h d hd
  refine ⟨fun a _ => ?_, fun e he => absurd he (by rintro ⟨⟩)⟩
  show Q () (x d).2.files
  cases hresult : (x d).1 with
  | ok u => exact hok u hresult
  | error e => exact herror e hresult

end Wp

/-! ## Places that are left alone -/

/-- The computation changes no file with the property, also where it fails. -/
def Leaves {α : Type} (S : P → Prop) (x : DiskM P α) : Prop :=
  ∀ d p, S p → (x d).2.files.lookup p = d.files.lookup p

section Leaves
variable {α β : Type} {S : P → Prop}

lemma Leaves.of_files {x : DiskM P α} (h : ∀ d, (x d).2.files = d.files) : Leaves S x := by
  intro d p _
  rw [h]

lemma Leaves.pure (a : α) : Leaves S (pure a) := .of_files fun _ => rfl

lemma Leaves.throw (e : String) : Leaves S (throw e : DiskM P α) := .of_files fun _ => rfl

lemma Leaves.lift (x : Result α) : Leaves S (lift x) := .of_files fun _ => rfl

lemma Leaves.operate (places : List P) : Leaves S (operate places) := .of_files fun _ => rfl

lemma Leaves.current : Leaves S (current (P := P)) := .of_files fun _ => rfl

lemma Leaves.update {f : HashMap P Bytes → HashMap P Bytes}
    (h : ∀ files p, S p → (f files).lookup p = files.lookup p) : Leaves S (update f) :=
  fun d p hp => h d.files p hp

lemma Leaves.bind {x : DiskM P α} {f : α → DiskM P β} (hx : Leaves S x) (hf : ∀ a, Leaves S (f a)) :
    Leaves S (x >>= f) := by
  intro d p hp
  have hbind : (x >>= f) d = ExceptT.bindCont f (x d).1 (x d).2 := rfl
  rw [hbind]
  cases hresult : (x d).1 with
  | error e => exact hx d p hp
  | ok a => exact (hf a (x d).2 p hp).trans (hx d p hp)

lemma Leaves.attempt {x : DiskM P Unit} (hx : Leaves S x) : Leaves S (attempt x) :=
  fun d p hp => hx d p hp

lemma lookup_insert_of_ne {files : HashMap P Bytes} {place p : P} (h : p ≠ place) (bytes : Bytes) :
    (files.insert place bytes).lookup p = files.lookup p := by
  rw [HashMap.lookup_insert, if_neg h]

/-- The result of an operation, or its failure. -/
lemma Leaves.operation {places : List P} {f : Option Fault → DiskM P α}
    (hf : ∀ fault, Leaves S (f fault)) : Leaves S (Disk.operate places >>= f) :=
  Leaves.bind (Leaves.operate places) hf

lemma Leaves.read (place : P) : Leaves S (read place) := by
  apply Leaves.operation
  rintro (_ | fault)
  · exact Leaves.bind Leaves.current fun _ => Leaves.pure _
  · exact Leaves.throw _

lemma Leaves.doesExist (place : P) : Leaves S (doesExist place) :=
  Leaves.bind Leaves.current fun _ => Leaves.pure _

lemma Leaves.write {place : P} (h : ¬ S place) (bytes : Bytes) : Leaves S (write place bytes) := by
  have hinsert : ∀ (files : HashMap P Bytes) left p, S p →
      (files.insert place left).lookup p = files.lookup p := by
    intro files left p hp
    apply lookup_insert_of_ne
    rintro rfl
    exact h hp
  apply Leaves.operation
  rintro (_ | fault)
  · exact Leaves.update fun files p hp => hinsert files bytes p hp
  · refine Leaves.bind (Leaves.update fun files p hp => ?_) fun _ => Leaves.throw _
    cases fault.left with
    | none => rfl
    | some left => exact hinsert files left p hp

lemma Leaves.remove {place : P} (h : ¬ S place) : Leaves S (remove place) := by
  apply Leaves.operation
  rintro (_ | fault)
  · refine Leaves.bind Leaves.current fun _ => Leaves.bind (Leaves.lift _) fun _ =>
      Leaves.update fun files p hp => ?_
    apply Finmap.lookup_erase_ne
    rintro rfl
    exact h hp
  · exact Leaves.throw _

lemma Leaves.rename {source target : P} (hsource : ¬ S source) (htarget : ¬ S target) :
    Leaves S (rename source target) := by
  apply Leaves.operation
  rintro (_ | fault)
  · refine Leaves.bind Leaves.current fun _ => Leaves.bind (Leaves.lift _) fun bytes =>
      Leaves.update fun files p hp => ?_
    have hne : p ≠ target := by
      rintro rfl
      exact htarget hp
    have hne' : p ≠ source := by
      rintro rfl
      exact hsource hp
    rw [lookup_insert_of_ne hne, Finmap.lookup_erase_ne hne']
  · exact Leaves.throw _

end Leaves

/-- What is left alone is the same in the end. -/
lemma wp_leaves {α : Type} {S : P → Prop} {x : DiskM P α} {Q : α → HashMap P Bytes → Prop}
    {C : HashMap P Bytes → Prop} {files : HashMap P Bytes} (hx : Leaves S x)
    (h : wp x Q C files) :
    wp x (fun a after => Q a after ∧ ∀ p, S p → after.lookup p = files.lookup p)
      (fun after => C after ∧ ∀ p, S p → after.lookup p = files.lookup p) files := by
  rintro d rfl
  obtain ⟨hok, herror⟩ := h d rfl
  exact ⟨fun a ha => ⟨hok a ha, hx d⟩, fun e he => ⟨herror e he, hx d⟩⟩

/-! ## Numbers of operations -/

/-- The next operations do not fail. -/
def Clear (k : ℕ) (d : Disk P) : Prop := ∀ i < k, d.faults (d.operations + i) = none

/-- `wp`, of a computation that has made `k` operations where it returns, none of which failed. -/
def Takes {α : Type} (k : ℕ) (x : DiskM P α) (Q : α → HashMap P Bytes → Prop)
    (C : HashMap P Bytes → Prop) (files : HashMap P Bytes) : Prop :=
  ∀ d, d.files = files → (∀ a, (x d).1 = .ok a → Clear k d ∧
      (x d).2.operations = d.operations + k ∧ (x d).2.faults = d.faults ∧ Q a (x d).2.files) ∧
    ∀ e, (x d).1 = .error e → C (x d).2.files

section Takes
variable {α β : Type} {Q : α → HashMap P Bytes → Prop} {C : HashMap P Bytes → Prop}
  {files : HashMap P Bytes} {k l : ℕ}

omit [DecidableEq P] in
lemma Takes.wp {x : DiskM P α} (h : Takes k x Q C files) : wp x Q C files := by
  intro d hd
  obtain ⟨hok, herror⟩ := h d hd
  exact ⟨fun a ha => (hok a ha).2.2.2, herror⟩

omit [DecidableEq P] in
/-- What makes no operation. -/
lemma takes_zero {x : DiskM P α} (h : Disk.wp x Q C files)
    (hsame : ∀ d, (x d).2.operations = d.operations ∧ (x d).2.faults = d.faults) :
    Takes 0 x Q C files := by
  intro d hd
  obtain ⟨hok, herror⟩ := h d hd
  refine ⟨fun a ha => ⟨fun i hi => absurd hi (Nat.not_lt_zero i), ?_⟩, herror⟩
  exact ⟨(hsame d).1, (hsame d).2, hok a ha⟩

omit [DecidableEq P] in
lemma takes_pure {a : α} (h : Q a files) : Takes 0 (pure a) Q C files :=
  takes_zero (wp_pure h) fun _ => ⟨rfl, rfl⟩

omit [DecidableEq P] in
lemma takes_lift {x : Result α} (hok : ∀ a, x = .ok a → Q a files)
    (herror : ∀ e, x = .error e → C files) : Takes 0 (lift x) Q C files :=
  takes_zero (wp_lift hok herror) fun _ => ⟨rfl, rfl⟩

omit [DecidableEq P] in
lemma takes_update {Q : Unit → HashMap P Bytes → Prop} {f : HashMap P Bytes → HashMap P Bytes}
    (h : Q () (f files)) : Takes 0 (update f) Q C files :=
  takes_zero (wp_update h) fun _ => ⟨rfl, rfl⟩

omit [DecidableEq P] in
lemma takes_throw {e : String} (h : C files) : Takes k (throw e : DiskM P α) Q C files := by
  rintro d rfl
  exact ⟨fun a ha => absurd ha (by rintro ⟨⟩), fun _ _ => h⟩

omit [DecidableEq P] in
lemma takes_bind {x : DiskM P β} {f : β → DiskM P α}
    (h : Takes k x (fun b after => Takes l (f b) Q C after) C files) :
    Takes (k + l) (x >>= f) Q C files := by
  intro d hd
  obtain ⟨hok, herror⟩ := h d hd
  have hbind : (x >>= f) d = ExceptT.bindCont f (x d).1 (x d).2 := rfl
  rw [hbind]
  cases hresult : (x d).1 with
  | error e => exact ⟨fun a ha => absurd ha (by rintro ⟨⟩), fun _ _ => herror e hresult⟩
  | ok b =>
    obtain ⟨hclear, hoperations, hfaults, hrest⟩ := hok b hresult
    obtain ⟨hok', herror'⟩ := hrest (x d).2 rfl
    refine ⟨fun a ha => ?_, herror'⟩
    obtain ⟨hclear', hoperations', hfaults', hQ⟩ := hok' a ha
    refine ⟨fun i hi => ?_, ?_, hfaults'.trans hfaults, hQ⟩
    · rcases Nat.lt_or_ge i k with hlt | hge
      · exact hclear i hlt
      · have hlater := hclear' (i - k) (by omega)
        rw [hoperations, hfaults, Nat.add_assoc, Nat.add_sub_cancel' hge] at hlater
        exact hlater
    · show ((f b) (x d).2).2.operations = _
      rw [hoperations', hoperations, Nat.add_assoc]

omit [DecidableEq P] in
lemma takes_mono {x : DiskM P α} {Q' : α → HashMap P Bytes → Prop} {C' : HashMap P Bytes → Prop}
    (h : Takes k x Q C files) (hQ : ∀ a after, Q a after → Q' a after)
    (hC : ∀ after, C after → C' after) : Takes k x Q' C' files := by
  intro d hd
  obtain ⟨hok, herror⟩ := h d hd
  refine ⟨fun a ha => ?_, fun e he => hC _ (herror e he)⟩
  obtain ⟨hclear, hoperations, hfaults, ha'⟩ := hok a ha
  exact ⟨hclear, hoperations, hfaults, hQ a _ ha'⟩

omit [DecidableEq P] in
/-- Of what can fail in front, the rest is left. -/
lemma takes_skip {x : DiskM P β} {f : β → DiskM P α}
    (h : Takes 0 x (fun b after => Takes l (f b) Q C after) C files) :
    Takes l (x >>= f) Q C files := by
  rw [← Nat.zero_add l]
  exact takes_bind h

omit [DecidableEq P] in
lemma takes_next {x : DiskM P β} {f : β → DiskM P α}
    (h : Takes 1 x (fun b after => Takes k (f b) Q C after) C files) :
    Takes (k + 1) (x >>= f) Q C files := by
  rw [Nat.add_comm k]
  exact takes_bind h

omit [DecidableEq P] in
/-- An operation that ends the computation where it fails. -/
lemma takes_operate {places : List P} {f : Option Fault → DiskM P α}
    (hfault : ∀ fault, Disk.wp (f (some fault)) (fun _ _ => False) C files)
    (hnone : Takes k (f none) Q C files) : Takes (k + 1) (operate places >>= f) Q C files := by
  rintro d rfl
  rw [operate_bind]
  cases hnext : d.faults d.operations with
  | some fault =>
    obtain ⟨hok, herror⟩ := hfault fault
      { d with operations := d.operations + 1, used := d.used ++ places } rfl
    exact ⟨fun a ha => (hok a ha).elim, herror⟩
  | none =>
    obtain ⟨hok, herror⟩ := hnone { d with operations := d.operations + 1, used := d.used ++ places }
      rfl
    refine ⟨fun a ha => ?_, herror⟩
    obtain ⟨hclear, hoperations, hfaults, hQ⟩ := hok a ha
    refine ⟨fun i hi => ?_, ?_, hfaults, hQ⟩
    · cases i with
      | zero => exact hnext
      | succ i =>
        rw [Nat.add_comm i, ← Nat.add_assoc]
        exact hclear i (Nat.lt_of_succ_lt_succ hi)
    · rw [hoperations, Nat.add_comm k, ← Nat.add_assoc]

omit [DecidableEq P] in
lemma takes_current {f : HashMap P Bytes → DiskM P α} (h : Takes k (f files) Q C files) :
    Takes k (current >>= f) Q C files := by
  refine takes_skip (takes_zero ?_ fun _ => ⟨rfl, rfl⟩)
  rintro d rfl
  refine ⟨fun found hfound => ?_, fun e he => absurd he (by rintro ⟨⟩)⟩
  obtain rfl : d.files = found := Except.ok.inj hfound
  exact h

lemma takes_read {Q : Option Bytes → HashMap P Bytes → Prop} {place : P} (hC : C files)
    (hQ : Q (files.lookup place) files) : Takes 1 (read place) Q C files :=
  takes_operate (fun _ => wp_throw hC) (takes_current (takes_pure hQ))

lemma takes_write {Q : Unit → HashMap P Bytes → Prop} {place : P} {bytes : Bytes} (hC : C files)
    (htorn : ∀ left, C (files.insert place left)) (hQ : Q () (files.insert place bytes)) :
    Takes 1 (write place bytes) Q C files := by
  refine takes_operate (fun fault => wp_bind (wp_update (wp_throw ?_))) (takes_update hQ)
  cases fault.left with
  | none => exact hC
  | some left => exact htorn left

lemma takes_rename {Q : Unit → HashMap P Bytes → Prop} {source target : P} (hC : C files)
    (hQ : ∀ bytes, files.lookup source = some bytes →
      Q () ((files.erase source).insert target bytes)) :
    Takes 1 (rename source target) Q C files := by
  refine takes_operate (fun _ => wp_throw hC) (takes_current (takes_skip
    (takes_lift ?_ fun _ _ => hC)))
  intro bytes hbytes
  exact takes_update (hQ bytes (okOr_eq_ok.mp hbytes))

lemma takes_size {Q : ℕ → HashMap P Bytes → Prop} {place : P} (hC : C files)
    (hQ : ∀ bytes, files.lookup place = some bytes → Q bytes.length files) :
    Takes 1 (size place) Q C files := by
  refine takes_operate (fun _ => wp_throw hC) (takes_current (takes_skip
    (takes_lift ?_ fun _ _ => hC)))
  intro bytes hbytes
  exact takes_pure (hQ bytes (okOr_eq_ok.mp hbytes))

lemma takes_doesExist {Q : Bool → HashMap P Bytes → Prop} {place : P}
    (hQ : Q (files.lookup place).isSome files) : Takes 0 (doesExist place) Q C files :=
  takes_current (takes_pure hQ)

omit [DecidableEq P] in
lemma takes_list {Q : List P → HashMap P Bytes → Prop} {listing : Listing P} {directory : P → Bool}
    (hC : C files) (hQ : Q ((listing.places files).filter directory) files) :
    Takes 1 (list listing directory) Q C files :=
  takes_operate (fun _ => wp_throw hC) (takes_current (takes_pure hQ))

end Takes

/-! ## Failures that are known

`wpFrom faults n` is `wp` where the operations to come, from number `n` on, fail as `faults` says.
-/

section WpFrom
variable {α β : Type} {Q : α → ℕ → HashMap P Bytes → Prop} {C : HashMap P Bytes → Prop}
  {files : HashMap P Bytes} {faults : ℕ → Option Fault} {n : ℕ}

/-- What becomes of the files, and the number of the operation that is next. -/
def wpFrom (faults : ℕ → Option Fault) (n : ℕ) (x : DiskM P α)
    (Q : α → ℕ → HashMap P Bytes → Prop) (C : HashMap P Bytes → Prop)
    (files : HashMap P Bytes) : Prop :=
  ∀ d, d.files = files → d.faults = faults → d.operations = n →
    (∀ a, (x d).1 = .ok a → (x d).2.faults = faults ∧ Q a (x d).2.operations (x d).2.files) ∧
    ∀ e, (x d).1 = .error e → C (x d).2.files

omit [DecidableEq P] in
/-- Where so many operations were made, none of them failed. -/
lemma Takes.wpFrom {k : ℕ} {x : DiskM P α} {Q' : α → HashMap P Bytes → Prop}
    (h : Takes k x Q' C files)
    (hQ : (∀ i < k, faults (n + i) = none) → ∀ a after, Q' a after → Q a (n + k) after) :
    wpFrom faults n x Q C files := by
  rintro d hd rfl rfl
  obtain ⟨hok, herror⟩ := h d hd
  refine ⟨fun a ha => ?_, herror⟩
  obtain ⟨hclear, hoperations, hfaults, ha'⟩ := hok a ha
  rw [hoperations]
  exact ⟨hfaults, hQ hclear a _ ha'⟩

omit [DecidableEq P] in
lemma Takes.wpFrom_zero {x : DiskM P α} (h : Takes 0 x (fun a after => Q a n after) C files) :
    Disk.wpFrom faults n x Q C files :=
  h.wpFrom fun _ _ _ hQ => hQ

omit [DecidableEq P] in
lemma wpFrom_mono {x : DiskM P α} {Q' : α → ℕ → HashMap P Bytes → Prop}
    {C' : HashMap P Bytes → Prop} (h : wpFrom faults n x Q C files)
    (hQ : ∀ a m after, Q a m after → Q' a m after) (hC : ∀ after, C after → C' after) :
    wpFrom faults n x Q' C' files := by
  intro d hd hfaults hoperations
  obtain ⟨hok, herror⟩ := h d hd hfaults hoperations
  refine ⟨fun a ha => ?_, fun e he => hC _ (herror e he)⟩
  obtain ⟨hsame, ha'⟩ := hok a ha
  exact ⟨hsame, hQ a _ _ ha'⟩

omit [DecidableEq P] in
lemma wpFrom_bind {x : DiskM P β} {f : β → DiskM P α}
    (h : wpFrom faults n x (fun b m after => wpFrom faults m (f b) Q C after) C files) :
    wpFrom faults n (x >>= f) Q C files := by
  intro d hd hfaults hoperations
  obtain ⟨hok, herror⟩ := h d hd hfaults hoperations
  have hbind : (x >>= f) d = ExceptT.bindCont f (x d).1 (x d).2 := rfl
  rw [hbind]
  cases hresult : (x d).1 with
  | error e => exact ⟨fun a ha => absurd ha (by rintro ⟨⟩), fun _ _ => herror e hresult⟩
  | ok b =>
    obtain ⟨hsame, hrest⟩ := hok b hresult
    exact hrest (x d).2 rfl hsame rfl

omit [DecidableEq P] in
lemma wpFrom_operate {places : List P} {f : Option Fault → DiskM P α}
    (hfault : ∀ fault, faults n = some fault → wpFrom faults (n + 1) (f (some fault)) Q C files)
    (hnone : faults n = none → wpFrom faults (n + 1) (f none) Q C files) :
    wpFrom faults n (operate places >>= f) Q C files := by
  apply wpFrom_bind
  rintro d rfl rfl rfl
  refine ⟨fun o ho => ⟨rfl, ?_⟩, fun e he => absurd he (by rintro ⟨⟩)⟩
  obtain rfl : d.faults d.operations = o := Except.ok.inj ho
  cases hnext : d.faults d.operations with
  | none => exact hnone hnext
  | some fault => exact hfault fault hnext

lemma wpFrom_append {Q : Unit → ℕ → HashMap P Bytes → Prop} {place : P} {bytes : Bytes}
    (hfault : ∀ fault, faults n = some fault → C ((fault.left.map fun left =>
      files.insert place ((files.lookup place).getD [] ++ left)).getD files))
    (hnone : faults n = none →
      Q () (n + 1) (files.insert place ((files.lookup place).getD [] ++ bytes))) :
    wpFrom faults n (append place bytes) Q C files :=
  wpFrom_operate
    (fun fault h => (takes_skip (takes_update (takes_throw (hfault fault h)))).wpFrom_zero)
    fun h => (takes_update (hnone h)).wpFrom_zero

lemma wpFrom_write {Q : Unit → ℕ → HashMap P Bytes → Prop} {place : P} {bytes : Bytes}
    (hfault : ∀ fault, faults n = some fault →
      C ((fault.left.map (files.insert place)).getD files))
    (hnone : faults n = none → Q () (n + 1) (files.insert place bytes)) :
    wpFrom faults n (write place bytes) Q C files :=
  wpFrom_operate
    (fun fault h => (takes_skip (takes_update (takes_throw (hfault fault h)))).wpFrom_zero)
    fun h => (takes_update (hnone h)).wpFrom_zero

/-- The removal of a file that is there. -/
lemma wpFrom_remove {Q : Unit → ℕ → HashMap P Bytes → Prop} {place : P} {bytes : Bytes}
    (hbytes : files.lookup place = some bytes) (hfault : faults n ≠ none → C files)
    (hnone : faults n = none → Q () (n + 1) (files.erase place)) :
    wpFrom faults n (remove place) Q C files := by
  refine wpFrom_operate (fun fault h => (takes_throw (hfault ?_)).wpFrom_zero) fun h =>
    (takes_current (takes_skip (takes_lift (fun _ _ => takes_update (hnone h)) ?_))).wpFrom_zero
  · rw [h]
    exact Option.some_ne_none fault
  · rw [hbytes]
    rintro e ⟨⟩

/-- A removal is one operation, and it removes the file or changes nothing. -/
lemma remove_cases (place : P) (d : Disk P) :
    (remove place d).2 =
      { d with operations := d.operations + 1, used := d.used ++ [place] } ∨
    (remove place d).2 = { d with
      files := d.files.erase place
      operations := d.operations + 1
      used := d.used ++ [place] } := by
  unfold remove
  rw [operate_bind]
  cases d.faults d.operations with
  | some fault => exact .inl rfl
  | none =>
    simp only [current_bind]
    cases d.files.lookup place with
    | none => exact .inl rfl
    | some bytes => exact .inr rfl

lemma wpFrom_attempt_remove {Q : Unit → ℕ → HashMap P Bytes → Prop} {place : P}
    (hremoved : Q () (n + 1) (files.erase place)) (hleft : Q () (n + 1) files) :
    wpFrom faults n (attempt (remove place)) Q C files := by
  rintro d rfl rfl rfl
  refine ⟨fun _ _ => ?_, fun e he => absurd he (by rintro ⟨⟩)⟩
  show (remove place d).2.faults = d.faults ∧
    Q () (remove place d).2.operations (remove place d).2.files
  rcases remove_cases place d with h | h
  · rw [h]
    exact ⟨rfl, hleft⟩
  · rw [h]
    exact ⟨rfl, hremoved⟩

end WpFrom

/-! ## Files that are replaced -/

/-- The files after one was written beside its place and moved there. -/
def replaced (files : HashMap P Bytes) (temporary target : P) (bytes : Bytes) : HashMap P Bytes :=
  (files.erase temporary).insert target bytes

section Replaced
variable {files : HashMap P Bytes} {temporary target p : P} {bytes : Bytes}

lemma lookup_replaced_self : (replaced files temporary target bytes).lookup target = some bytes :=
  HashMap.lookup_insert_self _ _ _

lemma lookup_replaced_temporary (h : temporary ≠ target) :
    (replaced files temporary target bytes).lookup temporary = none := by
  rw [replaced, lookup_insert_of_ne h, Finmap.lookup_erase]

lemma lookup_replaced_of_ne (htarget : p ≠ target) (htemporary : p ≠ temporary) :
    (replaced files temporary target bytes).lookup p = files.lookup p := by
  rw [replaced, lookup_insert_of_ne htarget, Finmap.lookup_erase_ne htemporary]

lemma erase_insert_self : (files.insert p bytes).erase p = files.erase p := by
  apply Finmap.ext_lookup
  intro q
  by_cases hq : q = p
  · rw [hq, Finmap.lookup_erase, Finmap.lookup_erase]
  · rw [Finmap.lookup_erase_ne hq, Finmap.lookup_erase_ne hq, lookup_insert_of_ne hq]

lemma replaced_insert (left : Bytes) :
    replaced (files.insert temporary left) temporary target bytes =
      replaced files temporary target bytes := by
  rw [replaced, erase_insert_self, replaced]

/-- Until the new file is in its place, the files are the same or the temporary one is written. -/
lemma takes_replace {Q : Unit → HashMap P Bytes → Prop} {C : HashMap P Bytes → Prop}
    (hC : C files) (htorn : ∀ left, C (files.insert temporary left))
    (hQ : Q () (replaced files temporary target bytes)) :
    Takes 2 (do
      write temporary bytes
      rename temporary target) Q C files := by
  refine takes_next (takes_write hC htorn (takes_rename (htorn _) fun found hfound => ?_))
  rw [HashMap.lookup_insert_self, Option.some.injEq] at hfound
  rw [← hfound, erase_insert_self]
  exact hQ

end Replaced

/-! ## Disks without failures -/

/-- No operation to come fails. -/
def Sound (d : Disk P) : Prop := ∀ n, d.operations ≤ n → d.faults n = none

/-- The disk with the same files on which nothing fails. -/
def sound (d : Disk P) : Disk P := { d with faults := fun _ => none }

omit [DecidableEq P] in
lemma sound_sound (d : Disk P) : Sound d.sound := fun _ _ => rfl

/-- On a disk without failures the computation returns, with the property. -/
def Returns {α : Type} (x : DiskM P α) (Q : α → HashMap P Bytes → Prop)
    (files : HashMap P Bytes) : Prop :=
  ∀ d, Sound d → d.files = files → ∃ a d', x d = (.ok a, d') ∧ Sound d' ∧ Q a d'.files

section Returns
variable {α β : Type} {Q : α → HashMap P Bytes → Prop} {files : HashMap P Bytes}

omit [DecidableEq P] in
lemma Returns.pure {a : α} (h : Q a files) : Returns (pure a) Q files := by
  rintro d hd rfl
  exact ⟨a, d, rfl, hd, h⟩

omit [DecidableEq P] in
lemma Returns.lift {x : Result α} {a : α} (hx : x = .ok a) (h : Q a files) :
    Returns (lift x) Q files := by
  rintro d hd rfl
  exact ⟨a, d, by rw [Disk.lift, hx], hd, h⟩

omit [DecidableEq P] in
lemma Returns.bind {x : DiskM P β} {f : β → DiskM P α}
    (h : Returns x (fun b after => Returns (f b) Q after) files) : Returns (x >>= f) Q files := by
  intro d hd hfiles
  obtain ⟨b, d₁, hx, hd₁, hf⟩ := h d hd hfiles
  obtain ⟨a, d₂, hrest, hd₂, hQ⟩ := hf d₁ hd₁ rfl
  exact ⟨a, d₂, bind_eq.mpr ⟨b, d₁, hx, hrest⟩, hd₂, hQ⟩

omit [DecidableEq P] in
lemma Returns.mono {x : DiskM P α} {Q' : α → HashMap P Bytes → Prop} (h : Returns x Q files)
    (hQ : ∀ a after, Q a after → Q' a after) : Returns x Q' files := by
  intro d hd hfiles
  obtain ⟨a, d', hx, hd', ha⟩ := h d hd hfiles
  exact ⟨a, d', hx, hd', hQ a _ ha⟩

omit [DecidableEq P] in
/-- What holds wherever the computation returns holds here. -/
lemma Returns.of_wp {x : DiskM P α} {Q' : α → HashMap P Bytes → Prop}
    {C : HashMap P Bytes → Prop} (h : Returns x Q files) (hwp : Disk.wp x Q' C files) :
    Returns x Q' files := by
  intro d hd hfiles
  obtain ⟨a, d', hx, hd', -⟩ := h d hd hfiles
  have ha := (hwp d hfiles).1 a (congrArg Prod.fst hx)
  rw [hx] at ha
  exact ⟨a, d', hx, hd', ha⟩

omit [DecidableEq P] in
/-- What the computation returns has the property. -/
lemma Returns.of_eq {x : DiskM P α} {a : α} {d d' : Disk P} (h : Returns x Q files) (hd : Sound d)
    (hfiles : d.files = files) (hx : x d = (.ok a, d')) : Sound d' ∧ Q a d'.files := by
  obtain ⟨b, d'', hx', hd', hQ⟩ := h d hd hfiles
  rw [hx] at hx'
  obtain ⟨hvalue, rfl⟩ := Prod.mk.inj hx'
  obtain rfl := Except.ok.inj hvalue
  exact ⟨hd', hQ⟩

omit [DecidableEq P] in
lemma Returns.attempt {Q : Unit → HashMap P Bytes → Prop} {x : DiskM P Unit}
    (h : Returns x Q files) : Returns (attempt x) Q files := by
  intro d hd hfiles
  obtain ⟨a, d', hx, hd', ha⟩ := h d hd hfiles
  exact ⟨(), d', by rw [Disk.attempt, hx], hd', ha⟩

omit [DecidableEq P] in
lemma Returns.operate {places : List P} {f : Option Fault → DiskM P α}
    (h : Returns (f none) Q files) : Returns (Disk.operate places >>= f) Q files := by
  apply Returns.bind
  rintro d hd rfl
  refine ⟨none, _, Prod.ext (congrArg Except.ok (hd d.operations le_rfl)) rfl, ?_, h⟩
  exact fun n hn => hd n (Nat.le_of_succ_le hn)

omit [DecidableEq P] in
lemma Returns.current {f : HashMap P Bytes → DiskM P α} (h : Returns (f files) Q files) :
    Returns (Disk.current >>= f) Q files := by
  apply Returns.bind
  rintro d hd rfl
  exact ⟨d.files, d, rfl, hd, h⟩

omit [DecidableEq P] in
lemma Returns.update {Q : Unit → HashMap P Bytes → Prop}
    {f : HashMap P Bytes → HashMap P Bytes} (h : Q () (f files)) : Returns (update f) Q files := by
  rintro d hd rfl
  exact ⟨(), _, rfl, hd, h⟩

omit [DecidableEq P] in
lemma Returns.list {Q : List P → HashMap P Bytes → Prop} {listing : Listing P}
    {directory : P → Bool} (h : Q ((listing.places files).filter directory) files) :
    Returns (list listing directory) Q files :=
  Returns.operate (Returns.current (Returns.pure h))

lemma Returns.read {Q : Option Bytes → HashMap P Bytes → Prop} {place : P}
    (h : Q (files.lookup place) files) : Returns (read place) Q files :=
  Returns.operate (Returns.current (Returns.pure h))

lemma Returns.size {Q : ℕ → HashMap P Bytes → Prop} {place : P} {bytes : Bytes}
    (hbytes : files.lookup place = some bytes) (h : Q bytes.length files) :
    Returns (size place) Q files := by
  refine Returns.operate (Returns.current (Returns.bind (Returns.lift ?_ (Returns.pure h))))
  exact okOr_eq_ok.mpr hbytes

lemma Returns.write {Q : Unit → HashMap P Bytes → Prop} {place : P} {bytes : Bytes}
    (h : Q () (files.insert place bytes)) : Returns (write place bytes) Q files :=
  Returns.operate (Returns.update h)

lemma Returns.append {Q : Unit → HashMap P Bytes → Prop} {place : P} {bytes : Bytes}
    (h : Q () (files.insert place ((files.lookup place).getD [] ++ bytes))) :
    Returns (append place bytes) Q files :=
  Returns.operate (Returns.update h)

omit [DecidableEq P] in
lemma Returns.createDirs {Q : Unit → HashMap P Bytes → Prop} {made : List P} (h : Q () files) :
    Returns (createDirs made) Q files :=
  Returns.operate (Returns.pure h)

omit [DecidableEq P] in
lemma Returns.createDir {Q : Unit → HashMap P Bytes → Prop} {place : P} (h : Q () files) :
    Returns (createDir place) Q files :=
  Returns.createDirs h

lemma Returns.rename {Q : Unit → HashMap P Bytes → Prop} {source target : P} {bytes : Bytes}
    (hbytes : files.lookup source = some bytes)
    (h : Q () ((files.erase source).insert target bytes)) :
    Returns (rename source target) Q files :=
  Returns.operate (Returns.current (Returns.bind
    (Returns.lift (okOr_eq_ok.mpr hbytes) (Returns.update h))))

lemma Returns.replace {Q : Unit → HashMap P Bytes → Prop} {temporary target : P} {bytes : Bytes}
    (h : Q () (replaced files temporary target bytes)) : Returns (do
      Disk.write temporary bytes
      Disk.rename temporary target) Q files := by
  refine Returns.bind (Returns.write (Returns.rename (HashMap.lookup_insert_self _ _ _) ?_))
  rw [erase_insert_self]
  exact h

lemma Returns.remove {Q : Unit → HashMap P Bytes → Prop} {place : P} {bytes : Bytes}
    (hbytes : files.lookup place = some bytes) (h : Q () (files.erase place)) :
    Returns (remove place) Q files :=
  Returns.operate (Returns.current (Returns.bind
    (Returns.lift (okOr_eq_ok.mpr hbytes) (Returns.update h))))

lemma Returns.doesExist {Q : Bool → HashMap P Bytes → Prop} {place : P}
    (h : Q (files.lookup place).isSome files) : Returns (doesExist place) Q files :=
  Returns.current (Returns.pure h)

end Returns

end Disk

end Lib
