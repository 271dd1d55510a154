import Mathlib.Data.List.Infix
import Mathlib.Data.List.TakeWhile
import Mathlib.Tactic

/-!
# Patterns of a SQL `LIKE`

`like` matches a text with a pattern, both up to their first NUL: a percent sign stands for any
text, an underscore for any character, the character after the escape character for itself, and
letters of ASCII are the same in both cases. A pattern made of an escaped text and a percent sign
finds the texts that begin with it up to the case of their letters; where the escaped text has a
NUL, the percent sign is lost and the pattern finds one text up to that NUL (`like_escapeLike`).
-/

namespace Lib

/-- The character a decoder hands on: the two code points at the end of the first plane, which are
not characters, become the replacement character. -/
def decoded (c : Char) : Char := if c = '\uFFFE' ∨ c = '\uFFFF' then '\uFFFD' else c

/-- What a character of a pattern and one of a text have in common where they are the same: the
character, or the letter of ASCII in either case. -/
def asRead (c : Char) : Char := (decoded c).toLower

def sameLetter (c d : Char) : Bool := asRead c == asRead d

/-- A text up to its first NUL. -/
def untilNul (text : List Char) : List Char := text.takeWhile (· ≠ '\x00')

/-- A pattern and a text without NUL. -/
def likeChars (escape : Char) : List Char → List Char → Bool
  | [], text => text.isEmpty
  | p :: pattern, text =>
    if p = escape then
      match pattern, text with
      | c :: pattern, d :: text => sameLetter c d && likeChars escape pattern text
      | _, _ => false
    else if p = '%' then text.tails.any fun rest => likeChars escape pattern rest
    else
      match text with
      | [] => false
      | d :: text => (p == '_' || sameLetter p d) && likeChars escape pattern text

/-- `text LIKE pattern ESCAPE escape`. -/
def like (escape : Char) (pattern text : List Char) : Bool :=
  likeChars escape (untilNul pattern) (untilNul text)

/-- A text as a pattern that stands for itself. -/
def escapeLike (escape : Char) (text : List Char) : List Char :=
  text.flatMap fun c => if c = escape ∨ c = '%' ∨ c = '_' then [escape, c] else [c]

/-- The pattern of a text takes this text away, and what follows it has to match the rest. -/
lemma likeChars_escapeLike {escape : Char} (tail pre : List Char) :
    ∀ text : List Char, likeChars escape (escapeLike escape pre ++ tail) text = true ↔
      ∃ taken rest, text = taken ++ rest ∧ taken.map asRead = pre.map asRead ∧
        likeChars escape tail rest = true := by
  induction pre with
  | nil =>
    intro text
    constructor
    · exact fun h => ⟨[], text, rfl, rfl, h⟩
    · rintro ⟨taken, rest, rfl, htaken, h⟩
      rwa [List.map_eq_nil_iff.mp htaken]
  | cons c pre ih =>
    intro text
    have hcons : escapeLike escape (c :: pre) ++ tail
        = (if c = escape ∨ c = '%' ∨ c = '_' then [escape, c] else [c]) ++
          (escapeLike escape pre ++ tail) := by
      rw [escapeLike, List.flatMap_cons, List.append_assoc, escapeLike]
    -- one letter of the text against one of the prefix, in either case
    have hletter : ∀ d text,
        (sameLetter c d && likeChars escape (escapeLike escape pre ++ tail) text) = true ↔
          ∃ taken rest, d :: text = taken ++ rest ∧ taken.map asRead = (c :: pre).map asRead ∧
            likeChars escape tail rest = true := by
      intro d text
      rw [Bool.and_eq_true, sameLetter, beq_iff_eq, ih]
      constructor
      · rintro ⟨hd, taken, rest, rfl, htaken, h⟩
        exact ⟨d :: taken, rest, rfl, by rw [List.map_cons, List.map_cons, hd, htaken], h⟩
      · rintro ⟨taken, rest, htext, htaken, h⟩
        obtain ⟨d', taken, rfl, hd, hpre⟩ := List.map_eq_cons_iff.mp htaken
        obtain ⟨rfl, rfl⟩ := List.cons.inj htext
        exact ⟨hd.symm, taken, rest, rfl, hpre, h⟩
    have hnil : ¬ ∃ taken rest, [] = taken ++ rest ∧ taken.map asRead = (c :: pre).map asRead ∧
        likeChars escape tail rest = true := by
      rintro ⟨taken, rest, htext, htaken, -⟩
      rw [(List.nil_eq_append_iff.mp htext).1] at htaken
      cases htaken
    rw [hcons]
    -- a special character of the prefix is escaped, and read like any other letter
    by_cases hspecial : c = escape ∨ c = '%' ∨ c = '_'
    · rw [if_pos hspecial, List.cons_append, List.cons_append, List.nil_append, likeChars.eq_def]
      simp only [if_true]
      cases text with
      | nil => exact iff_of_false Bool.false_ne_true hnil
      | cons d text => exact hletter d text
    · rw [if_neg hspecial, List.singleton_append, likeChars.eq_def]
      rw [not_or, not_or] at hspecial
      obtain ⟨hnotEscape, hnotAny, hnotOne⟩ := hspecial
      simp only [hnotEscape, hnotAny, if_false]
      cases text with
      | nil => exact iff_of_false Bool.false_ne_true hnil
      | cons d text =>
        have hother : (c == '_') = false := beq_false_of_ne hnotOne
        simp only [hother, Bool.false_or]
        exact hletter d text

lemma likeChars_percent {escape : Char} (hescape : escape ≠ '%') (text : List Char) :
    likeChars escape ['%'] text = true := by
  rw [likeChars.eq_def]
  simp only [Ne.symm hescape, if_false, if_true]
  exact List.any_eq_true.mpr ⟨[], (List.mem_tails _ _).mpr List.nil_suffix, rfl⟩

/-! ## The first NUL -/

lemma untilNul_eq_self {text : List Char} : untilNul text = text ↔ '\x00' ∉ text := by
  rw [untilNul, List.takeWhile_eq_self_iff]
  constructor
  · exact fun h hmem => of_decide_eq_true (h _ hmem) rfl
  · exact fun h c hc => decide_eq_true fun hnul => h (hnul ▸ hc)

/-- What follows a NUL does not count. -/
lemma untilNul_append_of_mem {text : List Char} (h : '\x00' ∈ text) (rest : List Char) :
    untilNul (text ++ rest) = untilNul text := by
  rw [untilNul, List.takeWhile_append, if_neg]
  · rfl
  · intro hlength
    exact untilNul_eq_self.mp ((List.takeWhile_prefix _).eq_of_length hlength) h

lemma untilNul_append_of_notMem {text : List Char} (h : '\x00' ∉ text) (rest : List Char) :
    untilNul (text ++ rest) = text ++ untilNul rest :=
  List.takeWhile_append_of_pos fun _ hc => decide_eq_true fun hnul => h (hnul ▸ hc)

lemma mem_escapeLike {escape c : Char} {text : List Char} :
    c ∈ escapeLike escape text ↔
      c ∈ text ∨ c = escape ∧ ∃ d ∈ text, d = escape ∨ d = '%' ∨ d = '_' := by
  rw [escapeLike, List.mem_flatMap]
  constructor
  · rintro ⟨d, hd, hc⟩
    split at hc
    next hspecial =>
      rcases List.mem_pair.mp hc with rfl | rfl
      · exact .inr ⟨rfl, d, hd, hspecial⟩
      · exact .inl hd
    next => exact .inl (List.mem_singleton.mp hc ▸ hd)
  · rintro (hc | ⟨rfl, d, hd, hspecial⟩)
    · refine ⟨c, hc, ?_⟩
      split
      · exact List.mem_pair.mpr (.inr rfl)
      · exact List.mem_singleton.mpr rfl
    · exact ⟨d, hd, by rw [if_pos hspecial]; exact List.mem_pair.mpr (.inl rfl)⟩

/-- Escaping neither makes nor hides a NUL. -/
lemma nul_mem_escapeLike {escape : Char} (hescape : escape ≠ '\x00') {text : List Char} :
    '\x00' ∈ escapeLike escape text ↔ '\x00' ∈ text := by
  rw [mem_escapeLike, or_iff_left fun h => hescape h.1.symm]

lemma untilNul_escapeLike {escape : Char} (hescape : escape ≠ '\x00') (text : List Char) :
    untilNul (escapeLike escape text) = escapeLike escape (untilNul text) := by
  by_cases hnul : '\x00' ∈ text
  · obtain ⟨before, after, rfl, hbefore⟩ := List.eq_append_cons_of_mem hnul
    have hplain : ¬('\x00' = escape ∨ '\x00' = '%' ∨ '\x00' = '_') :=
      not_or.mpr ⟨hescape.symm, by decide⟩
    have hkept : ∀ rest, untilNul ('\x00' :: rest) = [] := fun rest =>
      List.takeWhile_cons_of_neg (by decide)
    rw [escapeLike, List.flatMap_append, List.flatMap_cons, if_neg hplain, List.singleton_append,
      ← escapeLike, untilNul_append_of_notMem (mt (nul_mem_escapeLike hescape).mp hbefore), hkept,
      untilNul_append_of_notMem hbefore, hkept, List.append_nil, List.append_nil]
  · rw [untilNul_eq_self.mpr hnul, untilNul_eq_self.mpr (mt (nul_mem_escapeLike hescape).mp hnul)]

lemma asRead_eq_nul {c : Char} : asRead c = '\x00' ↔ c = '\x00' := by
  constructor
  · intro h
    unfold asRead decoded at h
    split at h
    · exact absurd h (by decide)
    · unfold Char.toLower at h
      split at h
      next hupper =>
        have hvalue := congrArg (fun c : Char => c.val.toNat) h
        have hshift : ('a'.val - 'A'.val).toNat = 32 := rfl
        have hnul : '\x00'.val.toNat = 0 := rfl
        have hZ : 'Z'.val.toNat = 90 := rfl
        have htop := UInt32.le_iff_toNat_le.mp hupper.2
        simp only [UInt32.toNat_add] at hvalue
        omega
      next => exact h
  · rintro rfl
    decide

lemma nul_mem_of_map_asRead {text other : List Char} (h : text.map asRead = other.map asRead) :
    '\x00' ∈ text ↔ '\x00' ∈ other := by
  have hmem : ∀ text : List Char, '\x00' ∈ text ↔ '\x00' ∈ text.map asRead := by
    intro text
    simp only [List.mem_map, asRead_eq_nul, exists_eq_right]
  rw [hmem, h, ← hmem]

/-- What the pattern of a prefix finds: the texts that begin with it up to the case of letters, or,
where the prefix has a NUL, those that agree with it as far as their first NUL. -/
def Finds (pre text : List Char) : Prop :=
  if '\x00' ∈ pre then (untilNul text).map asRead = (untilNul pre).map asRead
  else pre.map asRead <+: text.map asRead

instance (pre text : List Char) : Decidable (Finds pre text) :=
  inferInstanceAs (Decidable (if '\x00' ∈ pre then (untilNul text).map asRead =
    (untilNul pre).map asRead else pre.map asRead <+: text.map asRead))

/-- A pattern made of an escaped text and a percent sign. -/
lemma like_escapeLike {escape : Char} (hany : escape ≠ '%') (hnul : escape ≠ '\x00')
    (pre text : List Char) :
    like escape (escapeLike escape pre ++ ['%']) text = true ↔ Finds pre text := by
  unfold like Finds
  by_cases hpre : '\x00' ∈ pre
  · have hpattern : untilNul (escapeLike escape pre ++ ['%']) =
        escapeLike escape (untilNul pre) ++ [] := by
      rw [untilNul_append_of_mem ((nul_mem_escapeLike hnul).mpr hpre), untilNul_escapeLike hnul,
        List.append_nil]
    rw [if_pos hpre, hpattern, likeChars_escapeLike]
    constructor
    · rintro ⟨taken, rest, htext, htaken, hrest⟩
      rw [htext, List.isEmpty_iff.mp hrest, List.append_nil, htaken]
    · exact fun h => ⟨untilNul text, [], (List.append_nil _).symm, h, rfl⟩
  · have hpattern : untilNul (escapeLike escape pre ++ ['%']) =
        escapeLike escape pre ++ ['%'] :=
      untilNul_append_of_notMem (mt (nul_mem_escapeLike hnul).mp hpre) ['%']
    rw [if_neg hpre, hpattern, likeChars_escapeLike]
    constructor
    · rintro ⟨taken, rest, htext, htaken, -⟩
      have hbegin : taken <+: untilNul text := htext ▸ List.prefix_append taken rest
      rw [← htaken]
      exact (hbegin.trans (List.takeWhile_prefix _)).map asRead
    · rintro ⟨rest, hrest⟩
      obtain ⟨taken, rest, rfl, htaken, -⟩ := List.map_eq_append_iff.mp hrest.symm
      have hkept : '\x00' ∉ taken := mt (nul_mem_of_map_asRead htaken).mp hpre
      exact ⟨taken, untilNul rest, untilNul_append_of_notMem hkept rest, htaken,
        likeChars_percent hany _⟩

/-- A text that begins with the prefix is found. -/
lemma finds_of_prefix {pre text : List Char} (h : pre <+: text) : Finds pre text := by
  unfold Finds
  split
  next hnul =>
    obtain ⟨rest, rfl⟩ := h
    rw [untilNul_append_of_mem hnul]
  next => exact h.map asRead

end Lib
