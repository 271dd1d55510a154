import IeumChain.Lib.Text

/-!
# Paths

A path is a list of components, behind the root or behind the directory it is taken from. It leads
to a place, the list of names from the root: `.` and empty components stay where they are, and `..`
goes one name up. A relative path comes to a number of names to go up and the names to enter then
(`foldl_enter`), which tells when it leads below a directory (`prefix_resolve_iff`). On its way it
may enter directories that it leaves again, and they have to be there as well (`passed`, `missing`).
Links are not followed.
-/

namespace Lib

/-- The names from the root to a file or a directory. -/
abbrev Place := List String

structure Path where
  absolute : Bool
  components : List String
deriving DecidableEq

namespace Path

/-- The path that a text names. -/
def ofText (s : String) : Path :=
  { absolute := startsWith s "/"
    components := (s.toList.splitOn '/').map String.ofList }

/-- A text without a separator is one component. -/
lemma ofText_of_notMem {s : String} (h : '/' ∉ s.toList) : ofText s = ⟨false, [s]⟩ := by
  have hrelative : startsWith s "/" = false := by
    rw [startsWith, ← Bool.not_eq_true, List.isPrefixOf_iff_prefix]
    exact fun hpre => h (hpre.mem (List.mem_singleton.mpr rfl))
  rw [ofText, hrelative, List.splitOn_eq_singleton h, List.map_singleton, String.ofList_toList]

/-- A text that begins with a separator is an absolute path. -/
lemma ofText_slash (cs : List Char) :
    ofText (String.ofList ('/' :: cs)) = ⟨true, "" :: (cs.splitOn '/').map String.ofList⟩ := by
  have hchars : (String.ofList ('/' :: cs)).toList = '/' :: cs := String.toList_ofList
  have habsolute : startsWith (String.ofList ('/' :: cs)) "/" = true := by
    rw [startsWith, hchars, List.isPrefixOf_iff_prefix]
    exact List.prefix_append ['/'] cs
  have hsplit : ('/' :: cs).splitOn '/' = [] :: cs.splitOn '/' :=
    List.splitOn_append_cons_self_of_not_mem List.not_mem_nil cs
  rw [ofText, habsolute, hchars, hsplit]
  rfl

/-- `Path::join`: an absolute path replaces what it is joined to. -/
def join (p q : Path) : Path :=
  if q.absolute then q else { p with components := p.components ++ q.components }

/-- The name without its extension. -/
def fileStem (name : String) : String :=
  match name.toList.reverse.dropWhile (· ≠ '.') with
  | [] => name
  | [_] => name
  | _ :: stem => String.ofList stem.reverse

/-- The extension of a name. -/
def extension (name : String) : Option String :=
  match name.toList.reverse.dropWhile (· ≠ '.') with
  | [] => none
  | [_] => none
  | _ :: _ :: _ => some (String.ofList (name.toList.reverse.takeWhile (· ≠ '.')).reverse)

/-- What stands before the last dot of a name, backwards. -/
lemma dropWhile_reverse {s extension : List Char} (h : '.' ∉ extension) :
    (s ++ '.' :: extension).reverse.dropWhile (· ≠ '.') = '.' :: s.reverse := by
  have hall : ∀ c ∈ extension.reverse, decide (c ≠ '.') = true := by
    intro c hc
    rw [decide_eq_true_eq]
    rintro rfl
    exact h (List.mem_reverse.mp hc)
  rw [List.reverse_append, List.reverse_cons, List.append_assoc, List.dropWhile_append_of_pos hall]
  exact List.dropWhile_cons_of_neg (by simp)

/-- A stem, a dot and an extension without a dot. -/
lemma fileStem_append {s extension : List Char} (hs : s ≠ []) (h : '.' ∉ extension) :
    fileStem (String.ofList (s ++ '.' :: extension)) = String.ofList s := by
  have hreverse : s.reverse ≠ [] := fun hnil => hs (List.reverse_eq_nil_iff.mp hnil)
  rw [fileStem, String.toList_ofList, dropWhile_reverse h]
  obtain ⟨c, rest, hrest⟩ := List.exists_cons_of_ne_nil hreverse
  rw [hrest]
  show String.ofList (c :: rest).reverse = _
  rw [← hrest, List.reverse_reverse]

lemma extension_append {s extension : List Char} (hs : s ≠ []) (h : '.' ∉ extension) :
    Path.extension (String.ofList (s ++ '.' :: extension)) = some (String.ofList extension) := by
  have hreverse : s.reverse ≠ [] := fun hnil => hs (List.reverse_eq_nil_iff.mp hnil)
  have hall : ∀ c ∈ extension.reverse, decide (c ≠ '.') = true := by
    intro c hc
    rw [decide_eq_true_eq]
    rintro rfl
    exact h (List.mem_reverse.mp hc)
  have htake : (s ++ '.' :: extension).reverse.takeWhile (· ≠ '.') = extension.reverse := by
    rw [List.reverse_append, List.reverse_cons, List.append_assoc,
      List.takeWhile_append_of_pos hall]
    show extension.reverse ++ List.takeWhile _ ('.' :: s.reverse) = _
    rw [List.takeWhile_cons_of_neg (by simp), List.append_nil]
  rw [Path.extension, String.toList_ofList, dropWhile_reverse h, htake]
  obtain ⟨c, rest, hrest⟩ := List.exists_cons_of_ne_nil hreverse
  rw [hrest]
  show some (String.ofList extension.reverse.reverse) = _
  rw [List.reverse_reverse]

/-- `Path::with_extension`, of a path that ends with a name. -/
def withExtension (p : Path) (extension : String) : Path :=
  { p with components := p.components.dropLast ++
      (p.components.getLast?.map fun name => fileStem name ++ "." ++ extension).toList }

/-- One component of a path, taken from a place. -/
def enter (place : Place) (component : String) : Place :=
  if component = "" ∨ component = "." then place
  else if component = ".." then place.dropLast
  else place ++ [component]

/-- The place that a path leads to from a directory. -/
def resolve (p : Path) (directory : Place) : Place :=
  p.components.foldl enter (if p.absolute then [] else directory)

/-- A component that is the name of a file or a directory. -/
def IsName (component : String) : Prop :=
  component ≠ "" ∧ component ≠ "." ∧ component ≠ ".."

instance (component : String) : Decidable (IsName component) :=
  inferInstanceAs (Decidable (_ ∧ _))

lemma enter_of_isName {component : String} (h : IsName component) (place : Place) :
    enter place component = place ++ [component] := by
  rw [enter, if_neg (not_or.mpr ⟨h.1, h.2.1⟩), if_neg h.2.2]

/-- A joined path is followed from where the first part leads to. -/
lemma resolve_join (p q : Path) (directory : Place) :
    (p.join q).resolve directory = q.resolve (p.resolve directory) := by
  unfold join
  split
  · rename_i habsolute
    rw [resolve, resolve, if_pos habsolute, if_pos habsolute]
  · rename_i hrelative
    rw [resolve, resolve, resolve, if_neg hrelative, List.foldl_append]

/-- A name leads one place down. -/
lemma resolve_name {name : String} (h : IsName name) (directory : Place) :
    (Path.mk false [name]).resolve directory = directory ++ [name] := by
  show enter directory name = _
  exact enter_of_isName h directory

/-- Replacing the extension replaces the last name. -/
lemma withExtension_join (p : Path) (name extension : String) :
    (p.join (Path.mk false [name])).withExtension extension =
      p.join (Path.mk false [fileStem name ++ "." ++ extension]) := by
  simp [withExtension, join]

/-! ## Ways -/

/-- What the components of a path come to: names to go up, and names to enter then. -/
structure Way where
  up : ℕ
  names : List String

/-- One more component at the end of a way. -/
def Way.enter (w : Way) (component : String) : Way :=
  if component = "" ∨ component = "." then w
  else if component = ".." then
    if w.names = [] then { w with up := w.up + 1 } else { w with names := w.names.dropLast }
  else { w with names := w.names ++ [component] }

/-- The way of the components of a path. -/
def way (components : List String) : Way := components.foldl Way.enter ⟨0, []⟩

/-- Where a way leads to. -/
def Way.follow (w : Way) (directory : Place) : Place :=
  directory.take (directory.length - w.up) ++ w.names

lemma Way.follow_enter (w : Way) (directory : Place) (component : String) :
    (w.enter component).follow directory = Path.enter (w.follow directory) component := by
  unfold Way.enter Path.enter
  split
  · rfl
  split
  · split
    · rename_i hnone
      rw [follow, follow, hnone, List.append_nil, List.append_nil, List.dropLast_eq_take,
        List.length_take, List.take_take]
      congr 1
      dsimp only
      omega
    · rename_i hsome
      rw [follow, follow, List.dropLast_append_of_ne_nil hsome]
  · exact (List.append_assoc _ _ _).symm

/-- Entering the components one by one is following the way they come to. -/
theorem foldl_enter (components : List String) (directory : Place) :
    components.foldl enter directory = (way components).follow directory := by
  induction components using List.reverseRecOn with
  | nil =>
    show directory = directory.take (directory.length - 0) ++ []
    rw [Nat.sub_zero, List.take_length, List.append_nil]
  | append_singleton components component ih =>
    have hway : way (components ++ [component]) = (way components).enter component :=
      List.foldl_append
    rw [List.foldl_append, List.foldl_cons, List.foldl_nil, ih, hway, Way.follow_enter]

/-- A path leads into a directory from there: its way is relative and enters again whatever names
it goes up, or it is absolute and enters the names of the directory. -/
def LeadsInto (p : Path) (directory : Place) : Prop :=
  (if p.absolute then directory
    else directory.drop (directory.length - (way p.components).up)) <+: (way p.components).names

instance (p : Path) (directory : Place) : Decidable (p.LeadsInto directory) :=
  inferInstanceAs (Decidable (_ <+: _))

theorem prefix_resolve_iff (p : Path) (directory : Place) :
    directory <+: p.resolve directory ↔ p.LeadsInto directory := by
  rw [resolve, foldl_enter, LeadsInto, Way.follow]
  split
  · rw [List.take_nil, List.nil_append]
  · have hsplit := List.take_append_drop (directory.length - (way p.components).up) directory
    conv_lhs => lhs; rw [← hsplit]
    rw [List.prefix_append_right_inj]

/-- A path of names leads into every directory. -/
lemma leadsInto_of_isName {names : List String} (h : ∀ name ∈ names, IsName name)
    (directory : Place) : (Path.mk false names).LeadsInto directory := by
  have hresolve : ∀ place, names.foldl enter place = place ++ names := by
    induction names with
    | nil => exact fun place => (List.append_nil place).symm
    | cons name names ih =>
      intro place
      rw [List.foldl_cons, enter_of_isName (h name List.mem_cons_self),
        ih fun other hother => h other (List.mem_cons_of_mem _ hother), List.append_assoc]
      rfl
  refine (prefix_resolve_iff _ _).mp ⟨names, ?_⟩
  exact (hresolve directory).symm

/-! ## Directories on the way -/

/-- The directories that the names among some components enter, one after the other. -/
def entered : List String → Place → List Place
  | [], _ => []
  | component :: rest, place =>
    (if IsName component then [enter place component] else []) ++
      entered rest (enter place component)

/-- The directories that the names of a path enter on its way. -/
def passed (p : Path) (directory : Place) : List Place :=
  entered p.components (if p.absolute then [] else directory)

/-- Where some directories are there, the ones on the way to them are there too. -/
def IsThere (there : List Place) (place : Place) : Prop := ∃ directory ∈ there, place <+: directory

instance (there : List Place) (place : Place) : Decidable (IsThere there place) :=
  inferInstanceAs (Decidable (∃ directory ∈ there, place <+: directory))

/-- The directories that have to be made for a path, where some are there. -/
def missing (p : Path) (directory : Place) (there : List Place) : List Place :=
  (p.passed directory).filter fun place => ¬ IsThere (directory :: there) place

lemma mem_missing {p : Path} {directory place : Place} {there : List Place} :
    place ∈ p.missing directory there ↔
      place ∈ p.passed directory ∧ ¬ IsThere (directory :: there) place := by
  rw [missing, List.mem_filter, decide_eq_true_eq]

lemma entered_append (first second : List String) (place : Place) :
    entered (first ++ second) place =
      entered first place ++ entered second (first.foldl enter place) := by
  induction first generalizing place with
  | nil => rfl
  | cons component first ih =>
    rw [List.cons_append, entered, ih, entered, List.append_assoc, List.foldl_cons]

/-- A name at the end of a path enters one more directory. -/
lemma passed_join_name {name : String} (h : IsName name) (p : Path) (directory : Place) :
    (p.join (Path.mk false [name])).passed directory =
      p.passed directory ++ [p.resolve directory ++ [name]] := by
  show entered (p.components ++ [name]) _ = _
  rw [entered_append, entered, if_pos h, entered, List.append_nil, enter_of_isName h]
  rfl

/-- Strictly below a directory. -/
def Below (directory place : Place) : Prop := directory <+: place ∧ directory ≠ place

instance (directory place : Place) : Decidable (Below directory place) :=
  inferInstanceAs (Decidable (_ ∧ _))

lemma Below.append {directory place : Place} (h : directory <+: place) {names : List String}
    (hnames : names ≠ []) : Below directory (place ++ names) := by
  refine ⟨h.trans (List.prefix_append _ _), fun heq => hnames ?_⟩
  have hlength := congrArg List.length heq
  have hle := h.length_le
  rw [List.length_append] at hlength
  exact List.eq_nil_of_length_eq_zero (by omega)

/-- One name below a place is strictly below a directory exactly when the place is within it. -/
lemma below_concat_iff {directory place : Place} {name : String} :
    Below directory (place ++ [name]) ↔ directory <+: place := by
  constructor
  · rintro ⟨hpre, hne⟩
    exact (List.prefix_concat_iff.mp hpre).resolve_left hne
  · exact fun h => Below.append h (by simp)

end Path

end Lib
