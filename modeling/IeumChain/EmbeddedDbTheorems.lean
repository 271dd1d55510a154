import IeumChain.EmbeddedDb

/-!
# The embedded database as a map

Puts, removals, commits and a new start act on what `get` answers as they do on a map (`view`). A
scan agrees with `get` up to what a `LIKE` does not tell apart, the case of ASCII letters above all:
it is exact while every committed key that the pattern finds begins with the prefix
(`scan_exact_iff`).
-/

namespace IeumChain

open Lib

namespace Database

/-! ## Writing to the file -/

/-- A write SQLite takes: the key, and the row it is in, are not too long. -/
def Fits (write : String × Option Bytes) : Prop :=
  textLen write.1 ≤ maxLength ∧
    ∀ value, write.2 = some value → recordLen write.1 value ≤ maxLength

/-- A text is bound as it is. -/
lemma bindText_eq_ok {value : String} {bound : BoundText} :
    bindText value = .ok bound ↔ bound.1 = value := by
  have hmax : maxLength < 2 ^ 31 := by decide
  unfold bindText
  constructor
  · intro h
    split at h
    · cases h
    · split at h
      · rw [← Except.ok.inj h]
      · cases h
  · rintro rfl
    rw [if_neg (Nat.not_le.mpr (bound.2.trans_lt hmax)), dif_pos bound.2]

lemma length_le_of_recordLen {key : String} {value : Bytes} (h : recordLen key value ≤ maxLength) :
    value.length ≤ maxLength := by
  unfold recordLen at h
  omega

lemma bindBlob_eq_ok {value : Bytes} : bindBlob value = .ok () ↔ value.length ≤ maxLength := by
  have hmax : maxLength < 2 ^ 31 := by decide
  simp only [bindBlob, bind_eq_ok, ensure_eq_ok]
  constructor
  · rintro ⟨_, -, h⟩
    exact h
  · exact fun h => ⟨(), h.trans_lt hmax, h⟩

/-- One write changes the row of its key. -/
lemma applyEntry_eq_ok {d d' : Database} {write : String × Option Bytes}
    (h : d.applyEntry write = .ok d') :
    Fits write ∧ d'.metadata = d.metadata ∧
      ∀ k, d'.kv.lookup k = if k = write.1 then write.2 else d.kv.lookup k := by
  obtain ⟨key, _ | value⟩ := write
  · simp only [applyEntry, bind_eq_ok, pure_eq_ok, bindText_eq_ok] at h
    obtain ⟨bound, rfl, rfl⟩ := h
    refine ⟨⟨bound.2, fun _ hvalue => by cases hvalue⟩, rfl, fun k => ?_⟩
    by_cases hk : k = bound.1
    · rw [if_pos hk, hk]
      exact Finmap.lookup_erase bound.1 d.kv
    · rw [if_neg hk]
      exact Finmap.lookup_erase_ne hk
  · simp only [applyEntry, bind_eq_ok, pure_eq_ok, bindText_eq_ok, ensure_eq_ok] at h
    obtain ⟨bound, rfl, -, -, -, hrow, rfl⟩ := h
    refine ⟨⟨bound.2, fun v hv => ?_⟩, rfl, fun k => HashMap.lookup_insert _ _ _ _⟩
    obtain rfl := Option.some.inj hv
    exact hrow

lemma applyEntry_of_fits (d : Database) {write : String × Option Bytes} (h : Fits write) :
    ∃ d', d.applyEntry write = .ok d' := by
  obtain ⟨key, _ | value⟩ := write
  · refine ⟨d.delete ⟨key, h.1⟩, ?_⟩
    simp only [applyEntry, bind_eq_ok, pure_eq_ok, bindText_eq_ok]
    exact ⟨⟨key, h.1⟩, rfl, rfl⟩
  · have hrow := h.2 value rfl
    refine ⟨d.upsert ⟨key, h.1⟩ value, ?_⟩
    simp only [applyEntry, bind_eq_ok, pure_eq_ok, bindText_eq_ok, ensure_eq_ok]
    exact ⟨⟨key, h.1⟩, rfl, (), bindBlob_eq_ok.mpr (length_le_of_recordLen hrow), (), hrow, rfl⟩

/-- Writes of different keys change the rows of these keys. -/
lemma foldlM_applyEntry {writes : List (String × Option Bytes)} :
    ∀ {d d' : Database}, (writes.map Prod.fst).Nodup →
      writes.foldlM applyEntry d = .ok d' →
      (∀ write ∈ writes, Fits write) ∧ d'.metadata = d.metadata ∧
        (∀ k w, (k, w) ∈ writes → d'.kv.lookup k = w) ∧
        ∀ k, k ∉ writes.map Prod.fst → d'.kv.lookup k = d.kv.lookup k := by
  induction writes with
  | nil =>
    intro d d' _ h
    obtain rfl := Except.ok.inj h
    exact ⟨List.forall_mem_nil _, rfl, fun _ _ hmem => absurd hmem List.not_mem_nil, fun _ _ => rfl⟩
  | cons write writes ih =>
    intro d d' hnodup h
    rw [List.map_cons, List.nodup_cons] at hnodup
    obtain ⟨mid, hmid, hrest⟩ := foldlM_cons_eq_ok.mp h
    obtain ⟨hfits, hmetadata, hlookup⟩ := applyEntry_eq_ok hmid
    obtain ⟨hfits', hmetadata', hwritten, hother⟩ := ih hnodup.2 hrest
    refine ⟨List.forall_mem_cons.mpr ⟨hfits, hfits'⟩, hmetadata'.trans hmetadata, ?_, ?_⟩
    · intro k w hmem
      rcases List.mem_cons.mp hmem with rfl | hmem
      · rw [hother k hnodup.1, hlookup, if_pos rfl]
      · exact hwritten k w hmem
    · intro k hk
      rw [List.map_cons, List.mem_cons, not_or] at hk
      rw [hother k hk.2, hlookup, if_neg hk.1]

lemma foldlM_applyEntry_of_fits {writes : List (String × Option Bytes)} :
    ∀ d : Database, (∀ write ∈ writes, Fits write) →
      ∃ d', writes.foldlM applyEntry d = .ok d' := by
  induction writes with
  | nil => exact fun d _ => ⟨d, rfl⟩
  | cons write writes ih =>
    intro d h
    obtain ⟨hfits, hrest⟩ := List.forall_mem_cons.mp h
    obtain ⟨mid, hmid⟩ := applyEntry_of_fits d hfits
    obtain ⟨d', hd'⟩ := ih mid hrest
    exact ⟨d', foldlM_cons_eq_ok.mpr ⟨mid, hmid, hd'⟩⟩

lemma updateGeneration_kv (d : Database) (generation : UInt64) :
    (d.updateGeneration generation).kv = d.kv := by
  unfold updateGeneration
  split <;> rfl

end Database

namespace EmbeddedDb

/-! ## The map -/

/-- What the database holds: the pending write of a key, or its row. -/
def view (db : EmbeddedDb) (key : String) : Option Bytes :=
  (db.pending.lookup key).getD (db.file.kv.lookup key)

lemma get_eq_some {db : EmbeddedDb} {key : String} {value : Bytes} :
    db.get key = .ok (some value) ↔ db.view key = some value := by
  unfold get view
  cases hpending : db.pending.lookup key with
  | some write => simp
  | none =>
    simp only [bind_eq_ok, Database.bindText_eq_ok, pure_eq_ok, Option.getD_none]
    constructor
    · rintro ⟨bound, rfl, h⟩
      exact h
    · intro h
      exact ⟨⟨key, db.file.bound key (Finmap.mem_of_lookup_eq_some h)⟩, rfl, h⟩

@[simp] lemma view_put (db : EmbeddedDb) (key : String) (value : Bytes) (k : String) :
    (db.put key value).view k = if k = key then some value else db.view k := by
  unfold view put
  simp only [HashMap.lookup_insert]
  split <;> rfl

@[simp] lemma view_remove (db : EmbeddedDb) (key k : String) :
    (db.remove key).view k = if k = key then none else db.view k := by
  unfold view remove
  simp only [HashMap.lookup_insert]
  split <;> rfl

/-- A commit that succeeds moves the pending writes into the file. -/
lemma commitWithGeneration_eq_ok {db db' : EmbeddedDb} {generation : UInt64}
    (h : db.commitWithGeneration generation = (.ok (), db')) :
    (∀ write ∈ sortedEntries db.pending, Database.Fits write) ∧ db'.pending = ∅ ∧
      (∃ file : Database, file.metadata = db.file.metadata ∧
        db'.file = file.updateGeneration generation) ∧
      ∀ k, db'.file.kv.lookup k = db.view k := by
  unfold commitWithGeneration at h
  cases hfile : (sortedEntries db.pending).foldlM Database.applyEntry db.file with
  | error e =>
    rw [hfile] at h
    cases h
  | ok file =>
    rw [hfile] at h
    obtain rfl := (Prod.mk.inj h).2
    obtain ⟨hfits, hmetadata, hwritten, hother⟩ :=
      Database.foldlM_applyEntry (nodup_sortedEntries db.pending) hfile
    refine ⟨hfits, rfl, ⟨file, hmetadata, rfl⟩, fun k => ?_⟩
    show (file.updateGeneration generation).kv.lookup k = _
    rw [Database.updateGeneration_kv, view]
    cases hpending : db.pending.lookup k with
    | some write => exact hwritten k write (mem_sortedEntries.mpr hpending)
    | none =>
      refine hother k fun hmem => ?_
      obtain ⟨write, hwrite⟩ := mem_keys_sortedEntries.mp hmem
      rw [hpending] at hwrite
      cases hwrite

/-- No commit changes what the database holds. -/
lemma view_commit (db : EmbeddedDb) (k : String) : db.commit.2.view k = db.view k := by
  unfold commit
  cases db.generation with
  | error e => rfl
  | ok generation =>
    simp only
    generalize (if generation.toNat + 1 < 2 ^ 64 then generation + 1 else generation) = next
    rcases hcommit : db.commitWithGeneration next with ⟨e | u, db'⟩
    · have hsame : db' = db := by
        unfold commitWithGeneration at hcommit
        split at hcommit
        · exact (Prod.mk.inj hcommit).2.symm
        · cases hcommit
      rw [hsame]
    · obtain ⟨_, hempty, _, hkv⟩ := commitWithGeneration_eq_ok hcommit
      simp only [view, hempty]
      exact hkv k

/-! ## The scan -/

/-- The three replacements escape every character once. -/
lemma prefixPattern_eq (pre : String) :
    prefixPattern pre = String.ofList (escapeLike '\\' pre.toList ++ ['%']) := by
  rw [prefixPattern, replaceChar, replaceChar, replaceChar, List.flatMap_assoc, List.flatMap_assoc,
    escapeLike]
  congr 2
  refine List.flatMap_congr fun c _ => ?_
  by_cases hback : c = '\\'
  · rw [hback]
    decide
  by_cases hany : c = '%'
  · rw [hany]
    decide
  by_cases hone : c = '_'
  · rw [hone]
    decide
  simp [hback, hany, hone]

/-- A row that the pattern of a prefix finds. -/
abbrev Found (pre key : String) : Prop := Finds pre.toList key.toList

lemma found_of_startsWith {pre key : String} (h : startsWith key pre = true) : Found pre key := by
  rw [startsWith, List.isPrefixOf_iff_prefix] at h
  exact finds_of_prefix h

/-- The rows of the file a scan starts with. The length of the pattern matters where there are rows
to compare with it. -/
lemma selectLike_eq_ok {d : Database} {pre : String} {pattern : BoundText}
    {rows : List (String × Bytes)} (hpattern : pattern.1 = prefixPattern pre) :
    d.selectLike pattern = .ok rows ↔
      (∀ k ∈ d.kv, textLen (prefixPattern pre) ≤ maxLikePattern) ∧
      rows = (sortedEntries d.kv).filter fun row =>
        like '\\' (prefixPattern pre).toList row.1.toList := by
  have hrows : ((sortedEntries d.kv).isEmpty = true ∨ textLen (prefixPattern pre) ≤ maxLikePattern) ↔
      ∀ k ∈ d.kv, textLen (prefixPattern pre) ≤ maxLikePattern := by
    constructor
    · rintro (hempty | hlen) k hk
      · obtain ⟨v, hv⟩ := Finmap.mem_iff.mp hk
        have hmem := mem_sortedEntries.mpr hv
        rw [List.isEmpty_iff.mp hempty] at hmem
        exact absurd hmem List.not_mem_nil
      · exact hlen
    · intro h
      rcases hentries : sortedEntries d.kv with _ | ⟨⟨k, v⟩, rest⟩
      · exact .inl rfl
      · have hv : d.kv.lookup k = some v :=
          mem_sortedEntries.mp (hentries ▸ List.mem_cons_self)
        exact .inr (h k (Finmap.mem_of_lookup_eq_some hv))
  simp only [Database.selectLike, bind_eq_ok, ensure_eq_ok, pure_eq_ok, hpattern, hrows]
  constructor
  · rintro ⟨_, hlen, rfl⟩
    exact ⟨hlen, rfl⟩
  · rintro ⟨hlen, rfl⟩
    exact ⟨(), hlen, rfl⟩

lemma mem_filter_like {d : Database} {pre k : String} {v : Bytes} :
    (k, v) ∈ ((sortedEntries d.kv).filter fun row =>
        like '\\' (prefixPattern pre).toList row.1.toList) ↔
      d.kv.lookup k = some v ∧ Found pre k := by
  rw [List.mem_filter, mem_sortedEntries, prefixPattern_eq, String.toList_ofList,
    like_escapeLike (by decide) (by decide)]

lemma mem_overlay {pre k key : String} {v : Bytes} {values : List (String × Bytes)}
    {write : Option Bytes} : (k, v) ∈ overlay pre values (key, write) ↔
      if startsWith key pre = true ∧ k = key then write = some v else (k, v) ∈ values := by
  unfold overlay
  by_cases hpre : startsWith key pre = true
  · rw [if_pos hpre, List.mem_append, List.mem_filter, Option.mem_toList]
    by_cases hk : k = key
    · simp [hpre, hk]
    · simp [hk, Ne.symm hk]
  · simp [hpre]

/-- The loop puts the pending writes of the keys with the prefix over the rows. -/
lemma mem_foldl_overlay {pre k : String} {v : Bytes} {writes : List (String × Option Bytes)} :
    ∀ {values : List (String × Bytes)}, (writes.map Prod.fst).Nodup →
      ((k, v) ∈ writes.foldl (overlay pre) values ↔
        (startsWith k pre = true ∧ (k, some v) ∈ writes) ∨
        ((k, v) ∈ values ∧ (startsWith k pre = true → k ∉ writes.map Prod.fst))) := by
  induction writes with
  | nil =>
    intro values _
    simp
  | cons write writes ih =>
    obtain ⟨key, write⟩ := write
    intro values hnodup
    rw [List.map_cons, List.nodup_cons] at hnodup
    rw [List.foldl_cons, ih hnodup.2, mem_overlay]
    by_cases hk : k = key
    · have hother : (k, some v) ∉ writes := by
        intro hmem
        exact hnodup.1 (List.mem_map.mpr ⟨_, hmem, hk⟩)
      by_cases hpre : startsWith key pre = true
      · simp [hk ▸ hother, hk, hpre, hnodup.1, eq_comm]
      · simp [hk, hpre]
    · simp [hk]

lemma nodup_foldl_overlay {pre : String} {writes : List (String × Option Bytes)} :
    ∀ {values : List (String × Bytes)}, (values.map Prod.fst).Nodup →
      ((writes.foldl (overlay pre) values).map Prod.fst).Nodup := by
  induction writes with
  | nil => exact fun h => h
  | cons write writes ih =>
    intro values h
    rw [List.foldl_cons]
    apply ih
    unfold overlay
    split
    · have hkept : ((values.filter fun row => row.1 ≠ write.1).map Prod.fst).Nodup :=
        (List.filter_sublist.map _).nodup h
      rw [List.map_append, List.nodup_append]
      refine ⟨hkept, ?_, ?_⟩
      · cases write.2 with
        | none => exact List.nodup_nil
        | some value => exact List.nodup_singleton _
      · intro a ha b hb heq
        obtain ⟨row, hrow, rfl⟩ := List.mem_map.mp ha
        obtain ⟨row', hrow', rfl⟩ := List.mem_map.mp hb
        obtain ⟨value, _, rfl⟩ := Option.map_eq_some_iff.mp (Option.mem_toList.mp hrow')
        have hne := (List.mem_filter.mp hrow).2
        exact of_decide_eq_true hne heq
    · exact h

/-- A pattern SQLite takes: it can be bound, and where there are rows it can be compared with
them. -/
def PatternFits (db : EmbeddedDb) (pre : String) : Prop :=
  textLen (prefixPattern pre) ≤ maxLength ∧
    ∀ k ∈ db.file.kv, textLen (prefixPattern pre) ≤ maxLikePattern

/-- What a scan returns. -/
lemma scanPrefix_eq_ok {db : EmbeddedDb} {pre : String} {rows : List (String × Bytes)}
    (h : db.scanPrefix pre = .ok rows) :
    db.PatternFits pre ∧ (rows.Pairwise fun a b => a.1 < b.1) ∧
      ∀ k v, (k, v) ∈ rows ↔ if startsWith k pre = true then db.view k = some v
        else db.file.kv.lookup k = some v ∧ Found pre k := by
  simp only [scanPrefix, bind_eq_ok, Database.bindText_eq_ok, pure_eq_ok] at h
  obtain ⟨pattern, hpattern, values, hvalues, rfl⟩ := h
  obtain ⟨hlen, rfl⟩ := (selectLike_eq_ok hpattern).mp hvalues
  have hrows : (((sortedEntries db.file.kv).filter fun row =>
      like '\\' (prefixPattern pre).toList row.1.toList).map Prod.fst).Nodup :=
    (List.filter_sublist.map _).nodup (nodup_sortedEntries db.file.kv)
  refine ⟨⟨hpattern ▸ pattern.2, hlen⟩, pairwise_sortByKey (nodup_foldl_overlay hrows),
    fun k v => ?_⟩
  rw [mem_sortByKey, mem_foldl_overlay (nodup_sortedEntries db.pending), mem_sortedEntries,
    mem_filter_like, mem_keys_sortedEntries]
  by_cases hpre : startsWith k pre = true
  · have hfound := found_of_startsWith hpre
    rw [if_pos hpre, view]
    cases hpending : db.pending.lookup k with
    | some write => simp [hpre]
    | none => simp [hfound]
  · simp [hpre]

lemma scanPrefix_of_fits {db : EmbeddedDb} {pre : String} (h : db.PatternFits pre) :
    ∃ rows, db.scanPrefix pre = .ok rows := by
  simp only [scanPrefix, bind_eq_ok, Database.bindText_eq_ok, pure_eq_ok]
  exact ⟨_, ⟨prefixPattern pre, h.1⟩, rfl, _, (selectLike_eq_ok rfl).mpr ⟨h.2, rfl⟩, rfl⟩

/-- The result of a scan: the pairs of the keys that begin with the prefix and for which `get` has a
value, each key once, in ascending order. -/
structure IsScan (db : EmbeddedDb) (pre : String) (rows : List (String × Bytes)) : Prop where
  sorted : rows.Pairwise fun a b => a.1 < b.1
  mem : ∀ k v, (k, v) ∈ rows ↔ startsWith k pre = true ∧ db.get k = .ok (some v)

/-- A scan is exact when SQLite takes the pattern and finds no other row with it. -/
lemma isScan_iff (db : EmbeddedDb) (pre : String) :
    (∃ rows, db.scanPrefix pre = .ok rows ∧ db.IsScan pre rows) ↔
      db.PatternFits pre ∧ ∀ k ∈ db.file.kv, Found pre k → startsWith k pre = true := by
  constructor
  · rintro ⟨rows, hrows, hscan⟩
    obtain ⟨hfits, _, hmem⟩ := scanPrefix_eq_ok hrows
    refine ⟨hfits, fun k hk hfound => ?_⟩
    obtain ⟨v, hv⟩ := Finmap.mem_iff.mp hk
    by_contra hpre
    have hrow := (hmem k v).mpr (by rw [if_neg hpre]; exact ⟨hv, hfound⟩)
    exact hpre ((hscan.mem k v).mp hrow).1
  · rintro ⟨hfits, hexact⟩
    obtain ⟨rows, hrows⟩ := scanPrefix_of_fits hfits
    obtain ⟨_, hsorted, hmem⟩ := scanPrefix_eq_ok hrows
    refine ⟨rows, hrows, hsorted, fun k v => ?_⟩
    rw [hmem, get_eq_some]
    by_cases hpre : startsWith k pre = true
    · rw [if_pos hpre]
      exact (and_iff_right hpre).symm
    · rw [if_neg hpre]
      refine iff_of_false ?_ fun h => hpre h.1
      rintro ⟨hv, hfound⟩
      exact hpre (hexact k (Finmap.mem_of_lookup_eq_some hv) hfound)

/-! ## Runs -/

/-- Opening the file of a database again. -/
def reopen (db : EmbeddedDb) : Result EmbeddedDb :=
  (Directory.openSteps { database := some db.file, legacy := none, legacyCopy := none }).2

inductive Call where
  | put (key : String) (value : Bytes)
  | remove (key : String)
  | commit
  | reopen

/-- The handle after a call. -/
def call (db : EmbeddedDb) : Call → EmbeddedDb
  | .put key value => db.put key value
  | .remove key => db.remove key
  | .commit => db.commit.2
  | .reopen => getOk db.reopen db

def run (db : EmbeddedDb) (calls : List Call) : EmbeddedDb := calls.foldl call db

/-- A file that is open already has its rows, and a new handle sees these. -/
lemma reopen_eq_ok {db db' : EmbeddedDb} (h : db.reopen = .ok db') :
    db'.view = db.file.kv.lookup := by
  unfold reopen Directory.openSteps at h
  simp only [Option.getD_some, Option.isNone_some] at h
  split at h
  · cases h
  · split at h
    · cases h
    · obtain rfl := Except.ok.inj h
      rfl

/-- **The calls act as on a map.** What the handle holds is updated by a put and a removal, is kept
by a commit, and is what the file holds after a new start. -/
theorem view_call (db : EmbeddedDb) :
    (∀ key value, (db.call (.put key value)).view = Function.update db.view key (some value)) ∧
    (∀ key, (db.call (.remove key)).view = Function.update db.view key none) ∧
    (db.call .commit).view = db.view ∧
    ∀ db', db.reopen = .ok db' → (db.call .reopen).view = db.file.kv.lookup := by
  refine ⟨fun key value => ?_, fun key => ?_, funext (view_commit db), fun db' h => ?_⟩
  · funext k
    rw [call, view_put, Function.update_apply]
  · funext k
    rw [call, view_remove, Function.update_apply]
  · rw [call, h, getOk_ok]
    exact reopen_eq_ok h

/-- **A scan agrees with `get` up to what `LIKE` does not tell apart.** After every sequence of puts,
removals, commits and new starts: a scan returns the pairs of the keys that begin with the prefix
and for which `get` has a value, each once and in order, exactly when the pattern is not too long
for SQLite and every committed key that it finds begins with the prefix. It finds keys that begin
with the prefix in another case too, and for a prefix with a NUL those that agree with it as far as
their first NUL. -/
theorem scan_exact_iff (db : EmbeddedDb) (calls : List Call) (pre : String) :
    (∃ rows, (db.run calls).scanPrefix pre = .ok rows ∧ (db.run calls).IsScan pre rows) ↔
      (textLen (prefixPattern pre) ≤ maxLength ∧
        ∀ k ∈ (db.run calls).file.kv, textLen (prefixPattern pre) ≤ maxLikePattern) ∧
      ∀ k ∈ (db.run calls).file.kv, Finds pre.toList k.toList → startsWith k pre = true :=
  isScan_iff (db.run calls) pre

/-! ### A key in capitals -/

/-- A database that was just opened. -/
def opened : EmbeddedDb := { file := Database.empty.insertRows, pending := ∅ }

/-- A scan for `state/` returns the key `State/root`. -/
theorem scan_ignores_case :
    ¬ ∃ rows, (opened.run [.put "State/root" [1], .commit]).scanPrefix "state/" = .ok rows ∧
      (opened.run [.put "State/root" [1], .commit]).IsScan "state/" rows := by
  rintro ⟨rows, hrows, hscan⟩
  obtain ⟨_, _, hmem⟩ := scanPrefix_eq_ok hrows
  have hcase : startsWith "State/root" "state/" = false := by decide
  have hstored : (opened.run [.put "State/root" [1], .commit]).file.kv.lookup "State/root"
      = some [1] := by
    decide
  have hrow : ("State/root", [1]) ∈ rows := by
    rw [hmem, hcase, if_neg Bool.false_ne_true]
    exact ⟨hstored, by decide⟩
  have hpre := ((hscan.mem _ _).mp hrow).1
  rw [hcase] at hpre
  cases hpre

end EmbeddedDb

end IeumChain
