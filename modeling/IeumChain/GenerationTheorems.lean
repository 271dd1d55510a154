import IeumChain.EmbeddedDbTheorems
import IeumChain.Lib.Runs

/-!
# Generations and commits

Several handles are open on one file. `commit` reads the generation in one statement and writes the
next one in a transaction after it, and other handles may commit in between. The transactions
themselves do not overlap. So every successful commit counts one up, and no two return the same
number, exactly when none of them writes over a commit it has not seen and the number fits
(`commits_count_iff`).
-/

namespace IeumChain

open Lib

/-! ## Handles on one file -/

/-- A handle, with the generation that a running `commit` has read. -/
structure DbHandle where
  pending : HashMap String (Option Bytes)
  seen : Option UInt64

/-- The file, the handles on it, and what the successful commits returned. -/
structure SharedDb where
  file : Database
  handles : ℕ → DbHandle
  returned : List UInt64

namespace SharedDb

/-- A step of one of the handles. A transaction that is not granted fails. -/
inductive Step where
  | put (handle : ℕ) (key : String) (value : Option Bytes)
  | read (handle : ℕ)
  | transact (handle : ℕ) (granted : Bool)

/-- What `EmbeddedDb` sees of a handle. -/
def db (s : SharedDb) (handle : ℕ) : EmbeddedDb :=
  { file := s.file, pending := (s.handles handle).pending }

def setHandle (s : SharedDb) (handle : ℕ) (h : DbHandle) : SharedDb :=
  { s with handles := Function.update s.handles handle h }

/-- `saturating_add(1)`. -/
def nextGeneration (generation : UInt64) : UInt64 :=
  if generation.toNat + 1 < 2 ^ 64 then generation + 1 else generation

/-- The state after a step. `commit` borrows the handle, so nothing is written while it runs. -/
def step (s : SharedDb) : Step → SharedDb
  | .put handle key value =>
    match (s.handles handle).seen with
    | some _ => s
    | none => s.setHandle handle
        { pending := (s.handles handle).pending.insert key value, seen := none }
  | .read handle =>
    match (s.handles handle).seen, (s.db handle).generation with
    | none, .ok generation => s.setHandle handle
        { pending := (s.handles handle).pending, seen := some generation }
    | _, _ => s
  | .transact handle granted =>
    match (s.handles handle).seen with
    | none => s
    | some generation =>
      let failed := s.setHandle handle
        { pending := (s.handles handle).pending, seen := none }
      if granted then
        match (s.db handle).commitWithGeneration (nextGeneration generation) with
        | (.error _, _) => failed
        | (.ok (), db) =>
          { s.setHandle handle { pending := db.pending, seen := none } with
            file := db.file
            returned := s.returned ++ [nextGeneration generation] }
      else failed

def run (s : SharedDb) (steps : List Step) : SharedDb := steps.foldl step s

/-- The stored generation. -/
def generation (s : SharedDb) : Result UInt64 := s.file.readMetadata "generation"

/-- Does a step end a `commit` with success? -/
def Commits (s : SharedDb) (t : Step) : Prop := (s.step t).returned ≠ s.returned

/-- Every successful commit increases the stored generation by one. -/
def CountsUp (start : SharedDb) : List Step → Prop :=
  Along fun before t => (start.run before).Commits t →
    ∃ stored stored', (start.run before).generation = .ok stored ∧
      ((start.run before).step t).generation = .ok stored' ∧ stored'.toNat = stored.toNat + 1

/-- The stored generation is the one that a running `commit` has read, and the next one is a 64-bit
signed integer. -/
def Fresh (s : SharedDb) (handle : ℕ) : Prop :=
  ∀ generation, (s.handles handle).seen = some generation →
    s.generation = .ok generation ∧ generation.toNat + 1 < 2 ^ 63

/-- Does the file take the writes of a handle? -/
def Applies (s : SharedDb) (handle : ℕ) : Prop :=
  ∃ file, (sortedEntries (s.handles handle).pending).foldlM Database.applyEntry s.file = .ok file

/-- Every transaction of the run that is granted, and whose writes the file takes, is fresh. -/
def AlwaysFresh (start : SharedDb) : List Step → Prop :=
  Along fun before t => ∀ handle, t = .transact handle true →
    (start.run before).Applies handle → (start.run before).Fresh handle

/-! ## One step -/

@[simp] lemma setHandle_self (s : SharedDb) (handle : ℕ) (h : DbHandle) :
    (s.setHandle handle h).handles handle = h := Function.update_self _ _ _

lemma setHandle_of_ne (s : SharedDb) {handle i : ℕ} (h : DbHandle) (hne : handle ≠ i) :
    (s.setHandle i h).handles handle = s.handles handle := Function.update_of_ne hne _ _

/-- A handle that nothing interferes with commits as `commit` does. -/
lemma commit_eq (s : SharedDb) (handle : ℕ) (hidle : (s.handles handle).seen = none) :
    ((s.step (.read handle)).step (.transact handle true)).db handle =
      (s.db handle).commit.2 := by
  rw [EmbeddedDb.commit]
  cases hgeneration : (s.db handle).generation with
  | error e =>
    have hread : s.step (.read handle) = s := by
      simp only [step, hidle, hgeneration]
    rw [hread, step, hidle]
  | ok generation =>
    have hread : s.step (.read handle) =
        s.setHandle handle ⟨(s.handles handle).pending, some generation⟩ := by
      simp only [step, hidle, hgeneration]
    have hdb : (s.setHandle handle ⟨(s.handles handle).pending, some generation⟩).db handle =
        s.db handle := by
      rw [db, setHandle_self]
      rfl
    rw [hread]
    rw [step, setHandle_self]
    simp only [if_true, hdb]
    show _ = ((s.db handle).commitWithGeneration (nextGeneration generation)).2
    rcases hcommit : (s.db handle).commitWithGeneration (nextGeneration generation) with
      ⟨e | u, db'⟩
    · have hsame : db' = s.db handle := by
        unfold EmbeddedDb.commitWithGeneration at hcommit
        split at hcommit
        · exact (Prod.mk.inj hcommit).2.symm
        · cases hcommit
      rw [hsame, db, setHandle_self]
      rfl
    · rw [db, setHandle_self]

/-- A step commits nothing and leaves the file alone, or it is a transaction whose writes the file
takes. -/
lemma step_cases (s : SharedDb) (t : Step) :
    ((s.step t).file = s.file ∧ (s.step t).returned = s.returned) ∨
      ∃ handle generation, t = .transact handle true ∧
        (s.handles handle).seen = some generation ∧
        (∃ file, (sortedEntries (s.handles handle).pending).foldlM Database.applyEntry s.file =
          .ok file ∧ file.metadata = s.file.metadata ∧
          (s.step t).file = file.updateGeneration (nextGeneration generation)) ∧
        (s.step t).returned = s.returned ++ [nextGeneration generation] := by
  cases t with
  | put handle key value =>
    left
    rw [step]
    split <;> exact ⟨rfl, rfl⟩
  | read handle =>
    left
    rw [step]
    split <;> exact ⟨rfl, rfl⟩
  | transact handle granted =>
    rw [step]
    cases hseen : (s.handles handle).seen with
    | none => exact .inl ⟨rfl, rfl⟩
    | some generation =>
      cases granted with
      | false => exact .inl ⟨rfl, rfl⟩
      | true =>
        simp only [if_true]
        cases hfile : (sortedEntries (s.handles handle).pending).foldlM Database.applyEntry
            s.file with
        -- an entry that cannot be applied rolls the transaction back
        | error e =>
          have hcommit : (s.db handle).commitWithGeneration (nextGeneration generation) =
              (.error e, s.db handle) := by
            rw [EmbeddedDb.commitWithGeneration, db, hfile]
          rw [hcommit]
          exact .inl ⟨rfl, rfl⟩
        | ok file =>
          have hcommit : (s.db handle).commitWithGeneration (nextGeneration generation) =
              (.ok (), { file := file.updateGeneration (nextGeneration generation),
                         pending := ∅ }) := by
            rw [EmbeddedDb.commitWithGeneration, db, hfile]
          rw [hcommit]
          exact .inr ⟨handle, generation, rfl, hseen, ⟨file, hfile,
            (Database.foldlM_applyEntry (nodup_sortedEntries _) hfile).2.1, rfl⟩, rfl⟩

/-- What a step leaves a handle having read: what it had, or what is stored now. -/
lemma seen_step (s : SharedDb) (t : Step) (handle : ℕ) {generation : UInt64}
    (h : ((s.step t).handles handle).seen = some generation) :
    (s.handles handle).seen = some generation ∨ s.generation = .ok generation := by
  have hset : ∀ i new, ((s.setHandle i new).handles handle).seen = some generation →
      (s.handles handle).seen = some generation ∨ new.seen = some generation := by
    intro i new hi
    by_cases heq : handle = i
    · subst heq
      rw [setHandle_self] at hi
      exact .inr hi
    · rw [setHandle_of_ne s new heq] at hi
      exact .inl hi
  cases t with
  | put i key value =>
    rw [step] at h
    split at h
    · exact .inl h
    · rcases hset i _ h with hold | hnew
      · exact .inl hold
      · cases hnew
  | read i =>
    rw [step] at h
    split at h
    · rename_i g _ hgeneration
      rcases hset i _ h with hold | hnew
      · exact .inl hold
      · rw [← Option.some.inj hnew]
        exact .inr hgeneration
    · exact .inl h
  -- a transaction leaves the handle without a generation that it has seen
  | transact i granted =>
    rw [step] at h
    split at h
    · exact .inl h
    · split at h
      · split at h
        · rcases hset i _ h with hold | hnew
          · exact .inl hold
          · cases hnew
        · rcases hset i _ h with hold | hnew
          · exact .inl hold
          · cases hnew
      · rcases hset i _ h with hold | hnew
        · exact .inl hold
        · cases hnew

/-! ## Runs -/

section Run
variable {start : SharedDb}

lemma run_concat (steps : List Step) (t : Step) :
    start.run (steps ++ [t]) = (start.run steps).step t := by
  rw [run, run, List.foldl_append, List.foldl_cons, List.foldl_nil]

/-- The generation in a file after a commit over a generation that could be read. -/
lemma readMetadata_updateGeneration {file old : Database} {stored next : UInt64}
    (hmetadata : file.metadata = old.metadata)
    (hstored : old.readMetadata "generation" = .ok stored) :
    ∃ stored', (file.updateGeneration next).readMetadata "generation" = .ok stored' ∧
      stored'.toNat = min next.toNat (2 ^ 63 - 1) := by
  have hmem : "generation" ∈ file.metadata := by
    simp only [Database.readMetadata, bind_eq_ok, okOr_eq_ok] at hstored
    obtain ⟨value, hvalue, _⟩ := hstored
    rw [hmetadata]
    exact Finmap.mem_of_lookup_eq_some hvalue
  have hnext := next.toNat_lt
  refine ⟨UInt64.ofNat (Database.storedInteger next).toNat, ?_, ?_⟩
  · rw [Database.updateGeneration, if_pos hmem]
    simp only [Database.readMetadata, HashMap.lookup_insert_self, bind_eq_ok, okOr_eq_ok,
      ensure_eq_ok, pure_eq_ok]
    refine ⟨_, rfl, (), ?_, rfl⟩
    unfold Database.storedInteger
    omega
  · unfold Database.storedInteger
    rw [UInt64.toNat_ofNat_of_lt']
    · omega
    · show _ < 2 ^ 64
      omega

lemma toNat_nextGeneration (generation : UInt64) :
    (nextGeneration generation).toNat = min (generation.toNat + 1) (2 ^ 64 - 1) := by
  have hlt := generation.toNat_lt
  unfold nextGeneration
  split
  · rw [UInt64.toNat_add, show (1 : UInt64).toNat = 1 from rfl, Nat.mod_eq_of_lt (by omega)]
    omega
  · omega

/-- What holds while the commits count up: no handle has read a later generation than is stored, and
what was returned is different and not later either. -/
structure Counted (s : SharedDb) : Prop where
  seen : ∀ handle generation, (s.handles handle).seen = some generation →
    ∃ stored, s.generation = .ok stored ∧ generation.toNat ≤ stored.toNat
  returned : ∀ generation ∈ s.returned, ∃ stored, s.generation = .ok stored ∧
    generation.toNat ≤ stored.toNat
  nodup : s.returned.Nodup

/-- What a transaction stores and returns, where the generation can be read. -/
lemma step_commits {s : SharedDb} {t : Step} (h : s.Commits t) {stored : UInt64}
    (hstored : s.generation = .ok stored) :
    ∃ handle generation stored', t = .transact handle true ∧
      (s.handles handle).seen = some generation ∧ s.Applies handle ∧
      (s.step t).generation = .ok stored' ∧
      stored'.toNat = min (generation.toNat + 1) (2 ^ 63 - 1) ∧
      (s.step t).returned = s.returned ++ [nextGeneration generation] := by
  rcases step_cases s t with ⟨_, hsame⟩ | ⟨handle, generation, rfl, hseen, ⟨file, hfile, hmetadata,
    hstep⟩, hreturned⟩
  · exact absurd hsame h
  · obtain ⟨stored', hstored', hvalue⟩ :=
      @readMetadata_updateGeneration file _ stored (nextGeneration generation) hmetadata hstored
    refine ⟨handle, generation, stored', rfl, hseen, ⟨file, hfile⟩, ?_, ?_, hreturned⟩
    · rw [SharedDb.generation, hstep]
      exact hstored'
    · rw [hvalue, toNat_nextGeneration]
      omega

/-- A handle that commits has read a generation, so one is stored. -/
lemma Counted.exists_stored {s : SharedDb} (h : Counted s) {t : Step} (hcommits : s.Commits t) :
    ∃ stored, s.generation = .ok stored := by
  rcases step_cases s t with ⟨_, hsame⟩ | ⟨handle, generation, _, hseen, _, _⟩
  · exact absurd hsame hcommits
  · obtain ⟨stored, hstored, _⟩ := h.seen handle generation hseen
    exact ⟨stored, hstored⟩

/-- A commit counts up exactly when its transaction is fresh. -/
lemma Counted.counts_iff {s : SharedDb} (h : Counted s) {t : Step} (hcommits : s.Commits t) :
    (∃ stored stored', s.generation = .ok stored ∧ (s.step t).generation = .ok stored' ∧
      stored'.toNat = stored.toNat + 1) ↔ ∀ handle, t = .transact handle true → s.Fresh handle := by
  obtain ⟨stored, hstored⟩ := h.exists_stored hcommits
  obtain ⟨handle, generation, stored', rfl, hseen, _, hstored', hvalue, _⟩ :=
    step_commits hcommits hstored
  obtain ⟨current, hcurrent, hle⟩ := h.seen handle generation hseen
  obtain rfl : stored = current := Except.ok.inj (hstored.symm.trans hcurrent)
  constructor
  · rintro ⟨old, new, hold, hnew, hcount⟩ other heq seen hother
    obtain rfl : handle = other := (Step.transact.inj heq).1
    obtain rfl : generation = seen := Option.some.inj (hseen.symm.trans hother)
    obtain rfl : stored = old := Except.ok.inj (hstored.symm.trans hold)
    obtain rfl : stored' = new := Except.ok.inj (hstored'.symm.trans hnew)
    have heq : generation = stored := UInt64.toNat_inj.mp (by omega)
    exact ⟨heq ▸ hstored, by omega⟩
  · intro hfresh
    obtain ⟨hread, hfits⟩ := hfresh handle rfl generation hseen
    obtain rfl : stored = generation := Except.ok.inj (hstored.symm.trans hread)
    exact ⟨stored, stored', hstored, hstored', by omega⟩

/-- A step that counts up if it commits. -/
theorem Counted.step {s : SharedDb} (h : Counted s) {t : Step}
    (hcounts : s.Commits t → ∃ stored stored', s.generation = .ok stored ∧
      (s.step t).generation = .ok stored' ∧ stored'.toNat = stored.toNat + 1) :
    Counted (s.step t) := by
  by_cases hcommits : s.Commits t
  · -- the stored counter goes up by one, past everything that was seen or returned
    obtain ⟨stored, stored', hstored, hstored', hcount⟩ := hcounts hcommits
    obtain ⟨handle, generation, new, rfl, hseen, _, hnew, hvalue, hreturned⟩ :=
      step_commits hcommits hstored
    obtain rfl : stored' = new := Except.ok.inj (hstored'.symm.trans hnew)
    have hnext : (nextGeneration generation).toNat = stored'.toNat := by
      obtain ⟨current, hcurrent, hle⟩ := h.seen handle generation hseen
      obtain rfl : stored = current := Except.ok.inj (hstored.symm.trans hcurrent)
      rw [toNat_nextGeneration]
      omega
    refine ⟨fun i g hi => ⟨stored', hstored', ?_⟩, fun g hg => ⟨stored', hstored', ?_⟩, ?_⟩
    · rcases seen_step s _ i hi with hold | hread
      · obtain ⟨current, hcurrent, hle⟩ := h.seen i g hold
        obtain rfl : stored = current := Except.ok.inj (hstored.symm.trans hcurrent)
        omega
      · obtain rfl : stored = g := Except.ok.inj (hstored.symm.trans hread)
        omega
    · rw [hreturned, List.mem_append, List.mem_singleton] at hg
      rcases hg with hold | rfl
      · obtain ⟨current, hcurrent, hle⟩ := h.returned g hold
        obtain rfl : stored = current := Except.ok.inj (hstored.symm.trans hcurrent)
        omega
      · omega
    · -- what is returned now is later than everything before
      rw [hreturned, List.nodup_append]
      refine ⟨h.nodup, List.nodup_singleton _, ?_⟩
      rintro g hg g' hg' rfl
      rw [List.mem_singleton] at hg'
      obtain ⟨current, hcurrent, hle⟩ := h.returned g hg
      obtain rfl : stored = current := Except.ok.inj (hstored.symm.trans hcurrent)
      rw [hg'] at hle
      omega
  · -- the step leaves the file as it is
    have hsame : (s.step t).file = s.file ∧ (s.step t).returned = s.returned := by
      rcases step_cases s t with hsame | ⟨_, _, _, _, _, hreturned⟩
      · exact hsame
      · refine absurd ?_ hcommits
        rw [Commits, hreturned]
        simp
    have hgeneration : (s.step t).generation = s.generation := by
      rw [SharedDb.generation, SharedDb.generation, hsame.1]
    refine ⟨fun i g hi => ?_, fun g hg => ?_, ?_⟩
    · rw [hgeneration]
      rcases seen_step s t i hi with hold | hread
      · exact h.seen i g hold
      · exact ⟨g, hread, Nat.le_refl _⟩
    · rw [hgeneration]
      rw [hsame.2] at hg
      exact h.returned g hg
    · rw [hsame.2]
      exact h.nodup

/-- While every commit counts up, the state is as it should be. -/
theorem counted_run (hstart : Counted start) {steps : List Step} (h : CountsUp start steps) :
    Counted (start.run steps) := by
  induction steps using List.reverseRecOn with
  | nil => exact hstart
  | append_singleton steps t ih =>
    obtain ⟨hsteps, hlast⟩ := along_concat.mp h
    rw [run_concat]
    exact (ih hsteps).step hlast

/-- A granted transaction whose writes the file takes commits, if a `commit` is running. -/
lemma commits_of_applies {s : SharedDb} {handle : ℕ} {generation : UInt64}
    (hseen : (s.handles handle).seen = some generation) (happlies : s.Applies handle) :
    s.Commits (.transact handle true) := by
  obtain ⟨file, hfile⟩ := happlies
  have hcommit : (s.db handle).commitWithGeneration (nextGeneration generation) =
      (.ok (), { file := file.updateGeneration (nextGeneration generation), pending := ∅ }) := by
    rw [EmbeddedDb.commitWithGeneration, db, hfile]
  rw [Commits, SharedDb.step, hseen]
  simp only [if_true, hcommit]
  simp

/-- **Generations count commits exactly when every transaction is fresh.** For any handles on a file,
none of them within a `commit`, and any interleaving of their steps. -/
theorem commits_count_iff (start : SharedDb) (steps : List Step)
    (hidle : ∀ handle, (start.handles handle).seen = none) (hnone : start.returned = []) :
    (CountsUp start steps ∧ (start.run steps).returned.Nodup) ↔ AlwaysFresh start steps := by
  have hstart : Counted start := by
    refine ⟨fun handle g h => ?_, fun g hg => ?_, ?_⟩
    · rw [hidle] at h
      cases h
    · rw [hnone] at hg
      cases hg
    · rw [hnone]
      exact List.nodup_nil
  have hiff : CountsUp start steps ↔ AlwaysFresh start steps := by
    induction steps using List.reverseRecOn with
    | nil => exact ⟨fun _ => along_nil _, fun _ => along_nil _⟩
    | append_singleton steps t ih =>
      rw [CountsUp, AlwaysFresh, along_concat, along_concat]
      constructor
      · rintro ⟨hsteps, hlast⟩
        have hcounted := counted_run hstart hsteps
        refine ⟨ih.mp hsteps, ?_⟩
        rintro handle rfl happlies generation hseen
        have hcommits := commits_of_applies hseen happlies
        exact (hcounted.counts_iff hcommits).mp (hlast hcommits) handle rfl generation hseen
      · rintro ⟨hsteps, hlast⟩
        have hcounts := ih.mpr hsteps
        have hcounted := counted_run hstart hcounts
        refine ⟨hcounts, fun hcommits => (hcounted.counts_iff hcommits).mpr ?_⟩
        rintro handle rfl
        obtain ⟨stored, hstored⟩ := hcounted.exists_stored hcommits
        obtain ⟨other, _, _, heq, _, happlies, _⟩ := step_commits hcommits hstored
        obtain rfl : handle = other := (Step.transact.inj heq).1
        exact hlast handle rfl happlies
  rw [hiff, and_iff_left_iff_imp]
  exact fun h => (counted_run hstart (hiff.mpr h)).nodup

/-- A new database with idle handles. -/
def fresh : SharedDb :=
  { file := Database.empty.insertRows, handles := fun _ => ⟨∅, none⟩, returned := [] }

/-- The second handle reads after the first one has committed. -/
def turns : List Step := [.read 0, .transact 0 true, .read 1, .transact 1 true]

lemma alwaysFresh_turns : AlwaysFresh fresh turns := by
  have hfirst : (fresh.run [.read 0]).Fresh 0 := by
    intro generation hseen
    obtain rfl : 0 = generation := Option.some.inj hseen
    exact ⟨rfl, by decide⟩
  have hsecond : (fresh.run [.read 0, .transact 0 true, .read 1]).Fresh 1 := by
    intro generation hseen
    obtain rfl : 1 = generation := Option.some.inj hseen
    exact ⟨rfl, by decide⟩
  have hread : AlwaysFresh fresh ([] ++ [.read 0]) :=
    along_concat.mpr ⟨along_nil _, fun _ heq => by cases heq⟩
  have hcommit : AlwaysFresh fresh ([.read 0] ++ [.transact 0 true]) :=
    along_concat.mpr ⟨hread, fun _ heq _ => by cases heq; exact hfirst⟩
  have hreadAgain : AlwaysFresh fresh ([.read 0, .transact 0 true] ++ [.read 1]) :=
    along_concat.mpr ⟨hcommit, fun _ heq => by cases heq⟩
  show AlwaysFresh fresh ([.read 0, .transact 0 true, .read 1] ++ [.transact 1 true])
  exact along_concat.mpr ⟨hreadAgain, fun _ heq _ => by cases heq; exact hsecond⟩

/-- Two handles that commit one after the other count up. -/
theorem commits_count_iff_turns :
    (fresh.run turns).returned = [1, 2] ∧ (fresh.run turns).generation = .ok 2 ∧
      CountsUp fresh turns ∧ (fresh.run turns).returned.Nodup :=
  ⟨rfl, rfl, (commits_count_iff fresh turns (fun _ => rfl) rfl).mpr alwaysFresh_turns⟩

/-- Both handles read before either writes. -/
def race : List Step := [.read 0, .read 1, .transact 0 true, .transact 1 true]

/-- Both commits return 1, and 1 is what is stored. -/
theorem commits_share_generation :
    (∀ handle, (fresh.handles handle).seen = none) ∧ fresh.returned = [] ∧
      (fresh.run race).returned = [1, 1] ∧ (fresh.run race).generation = .ok 1 ∧
      ¬ (CountsUp fresh race ∧ (fresh.run race).returned.Nodup) := by
  have hreturned : (fresh.run race).returned = [1, 1] := rfl
  refine ⟨fun _ => rfl, rfl, hreturned, rfl, ?_⟩
  rintro ⟨_, hnodup⟩
  rw [hreturned] at hnodup
  exact absurd hnodup (by decide)

end Run

end SharedDb

end IeumChain
