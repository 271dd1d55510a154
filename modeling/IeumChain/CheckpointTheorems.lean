import IeumChain.BackupTheorems
import IeumChain.PeriodTheorems

/-!
# Checkpoints and their names

`load_latest_snapshot` takes the checkpoint with the greatest name. A name begins with the period and
goes on with the height, both with zeros in front, so that names stand in the order of periods and
heights as long as these fit their widths (`checkpointName_lt`).
-/

namespace IeumChain

open Lib Lib.Calendar Lib.Disk

/-! ## Periods -/

/-- The period of a timestamp. -/
def periodOf (timestamp : UInt64) : String :=
  zeroPadded 4 (year (monthOf (timestamp.toNat / 86400)) : ℕ) ++
    zeroPadded 2 (month (monthOf (timestamp.toNat / 86400)) : ℕ) ++ "M"

lemma periodFromTimestamp_eq (timestamp : UInt64) :
    periodFromTimestamp timestamp = .ok (periodOf timestamp) := (period_calendar timestamp).2.1

lemma toList_periodOf (timestamp : UInt64) :
    (periodOf timestamp).toList = padded 4 (year (monthOf (timestamp.toNat / 86400))) ++
      (padded 2 (month (monthOf (timestamp.toNat / 86400))) ++ ['M']) := by
  rw [periodOf, zeroPadded_natCast, zeroPadded_natCast, String.toList_append, String.toList_append,
    String.toList_ofList, String.toList_ofList, List.append_assoc]
  rfl

lemma trim_periodOf (timestamp : UInt64) : trim (periodOf timestamp) = periodOf timestamp := by
  apply trim_of_forall
  intro c hc
  have hdigit : ∀ c : Char, c.isDigit → isWhitespace c = false := by
    intro c hc
    obtain ⟨hlow, hhigh⟩ := digit_bounds hc
    simp only [isWhitespace, Bool.or_eq_false_iff, Bool.and_eq_false_imp, decide_eq_true_eq,
      decide_eq_false_iff_not, beq_eq_false_iff_ne]
    omega
  rw [toList_periodOf, List.mem_append, List.mem_append, List.mem_singleton] at hc
  rcases hc with hc | hc | rfl
  · exact hdigit c (isDigit_of_mem_padded hc)
  · exact hdigit c (isDigit_of_mem_padded hc)
  · rfl

/-- Before the year 10000 a year has four digits. -/
lemma year_lt {timestamp : UInt64} (h : timestamp < 253402300800) :
    year (monthOf (timestamp.toNat / 86400)) < 10 ^ 4 := by
  have hday : timestamp.toNat / 86400 < 2932897 := by
    have hseconds := UInt64.lt_iff_toNat_lt.mp h
    have hvalue : (253402300800 : UInt64).toNat = 253402300800 := rfl
    omega
  have hstart := (monthOf_spec (timestamp.toNat / 86400)).1
  have hlt : monthOf (timestamp.toNat / 86400) < 96360 := by
    by_contra hge
    have hmono := monotone_marchStart (show 96360 + 23638 ≤
      monthOf (timestamp.toNat / 86400) + 23638 by omega)
    have hvalue : marchStart (96360 + 23638) = 2932897 + 719468 := by decide
    rw [← monthStart_eq (monthOf (timestamp.toNat / 86400)), hvalue] at hmono
    omega
  unfold year
  omega

/-! ## Names -/

namespace ArchiveStore

lemma toList_checkpointName (timestamp height : UInt64) :
    (checkpointName (periodOf timestamp) height).toList =
      padded 4 (year (monthOf (timestamp.toNat / 86400))) ++
        (padded 2 (month (monthOf (timestamp.toNat / 86400))) ++
          (['M', '-', 'h'] ++ (padded 12 height.toNat ++ ".json".toList))) := by
  rw [checkpointName, zeroPadded_natCast, String.toList_append, String.toList_append,
    String.toList_append, String.toList_ofList, toList_periodOf]
  simp

/-- Later checkpoints have greater names. -/
lemma checkpointName_lt {timestamp timestamp' height height' : UInt64}
    (htimestamp : timestamp ≤ timestamp') (hbefore : timestamp' < 253402300800)
    (hheight : height < height') (hbelow : height' < 1000000000000) :
    checkpointName (periodOf timestamp) height < checkpointName (periodOf timestamp') height' := by
  have hmonths : monthOf (timestamp.toNat / 86400) ≤ monthOf (timestamp'.toNat / 86400) :=
    monthOf_mono (Nat.div_le_div_right (UInt64.le_iff_toNat_le.mp htimestamp))
  have hyear := year_lt hbefore
  have hheights : height.toNat < height'.toNat := UInt64.lt_iff_toNat_lt.mp hheight
  have hdigits : height'.toNat < 10 ^ 12 := UInt64.lt_iff_toNat_lt.mp hbelow
  rw [String.lt_iff_toList_lt, toList_checkpointName, toList_checkpointName]
  generalize monthOf (timestamp.toNat / 86400) = k at hmonths
  generalize monthOf (timestamp'.toNat / 86400) = k' at hmonths hyear
  rcases Nat.lt_or_ge (year k) (year k') with hless | hge
  · exact padded_append_lt hless hyear _ _
  have hsame : year k = year k' := by
    unfold year at hge ⊢
    omega
  rw [hsame]
  apply List.append_left_lt
  rcases Nat.lt_or_ge (month k) (month k') with hless | hge'
  · have hmonth : month k' < 10 ^ 2 := by
      unfold month
      omega
    exact padded_append_lt hless hmonth _ _
  have hsame' : month k = month k' := by
    unfold year at hsame
    unfold month at hge' ⊢
    omega
  rw [hsame']
  apply List.append_left_lt
  apply List.append_left_lt
  exact padded_append_lt hheights hdigits _ _

/-- The name beside that of a checkpoint is not that of another. -/
lemma temporaryName_ne_checkpointName (name period : String) (height : UInt64) :
    temporaryName name ≠ checkpointName period height := by
  intro heq
  have hlast := congrArg (fun text => text.toList.getLast?) heq
  rw [temporaryName, checkpointName] at hlast
  simp only [String.toList_append] at hlast
  rw [List.getLast?_append_of_ne_nil _ (by decide), List.getLast?_append_of_ne_nil _ (by decide)]
    at hlast
  exact absurd hlast (by decide)

/-! ## The latest checkpoint -/

/-- The last of the names in order is the greatest. -/
lemma getLast?_sortNames {names : List String} {name : String} :
    (sortNames names).getLast? = some name ↔ name ∈ names ∧ ∀ other ∈ names, other ≤ name := by
  have hperm : (sortNames names).Perm names := List.perm_insertionSort _ _
  have hsorted : (sortNames names).Pairwise (· ≤ ·) := List.pairwise_insertionSort _ _
  have hgreatest : ∀ last, (sortNames names).getLast? = some last →
      last ∈ names ∧ ∀ other ∈ names, other ≤ last := by
    intro last hlast
    refine ⟨hperm.mem_iff.mp (List.mem_of_getLast? hlast), fun other hother => ?_⟩
    obtain ⟨front, hfront⟩ := List.getLast?_eq_some_iff.mp hlast
    have hmem := hperm.mem_iff.mpr hother
    rw [hfront] at hmem hsorted
    rcases List.mem_append.mp hmem with hmem | hmem
    · exact (List.pairwise_append.mp hsorted).2.2 other hmem last (List.mem_singleton.mpr rfl)
    · exact (List.mem_singleton.mp hmem).le
  constructor
  · exact hgreatest name
  · rintro ⟨hmem, hall⟩
    cases hlast : (sortNames names).getLast? with
    | none =>
      rw [List.getLast?_eq_none_iff] at hlast
      rw [← hperm.mem_iff, hlast] at hmem
      cases hmem
    | some last =>
      obtain ⟨hlastMem, hlastAll⟩ := hgreatest last hlast
      rw [le_antisymm (hall last hlastMem) (hlastAll name hmem)]

variable {listing : Listing ArchivePlace} {codec : ArchiveCodec}
  {files : HashMap ArchivePlace Bytes}

/-- The checkpoint with the greatest name is read. -/
lemma returns_loadLatestSnapshot {name : String} {bytes : Bytes} {snapshot : StateSnapshot}
    (hbytes : files.lookup (.checkpoints, name) = some bytes)
    (hparse : codec.parseSnapshot bytes = .ok snapshot)
    (hgreatest : ∀ other, ((.checkpoints, other) : ArchivePlace) ∈ files → other ≤ name) :
    Returns (loadLatestSnapshot listing codec)
      (fun found after => found = some snapshot ∧ after = files) files := by
  refine Returns.bind (Returns.mono returns_listFiles ?_)
  rintro names after ⟨hafter, rfl⟩
  have hlast : (sortNames (namesIn listing files .checkpoints)).getLast? = some name := by
    refine getLast?_sortNames.mpr ⟨?_, fun other hother => hgreatest other (mem_namesIn.mp hother)⟩
    rw [mem_namesIn, ← Finmap.lookup_isSome, hbytes]
    rfl
  rw [hafter, hlast]
  refine Returns.bind (Returns.read (Returns.bind (Returns.lift (okOr_eq_ok.mpr hbytes) ?_)))
  exact Returns.bind (Returns.lift hparse (Returns.pure ⟨rfl, rfl⟩))

/-- Without checkpoints there is no snapshot. -/
lemma returns_loadLatestSnapshot_none
    (hnone : ∀ name, ((.checkpoints, name) : ArchivePlace) ∉ files) :
    Returns (loadLatestSnapshot listing codec)
      (fun found after => found = none ∧ after = files) files := by
  refine Returns.bind (Returns.mono returns_listFiles ?_)
  rintro names after ⟨hafter, rfl⟩
  rw [hafter, namesIn_eq_nil hnone]
  exact Returns.pure ⟨rfl, rfl⟩

lemma wp_loadLatestSnapshot_none {C : HashMap ArchivePlace Bytes → Prop} (hC : C files)
    (hnone : ∀ name, ((.checkpoints, name) : ArchivePlace) ∉ files) :
    wp (loadLatestSnapshot listing codec) (fun found after => found = none ∧ after = files) C
      files := by
  refine wp_bind (wp_listFiles hC ?_)
  rw [namesIn_eq_nil hnone]
  exact wp_pure ⟨rfl, rfl⟩

end ArchiveStore

end IeumChain
