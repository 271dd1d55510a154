import IeumChain.TipQuorum

/-!
# The tip that enough peers report

The vote map holds every peer's latest report (`votes_observed`) and the counting loop counts them
(`getD_counts`). So `observe` returns the highest of the tips that enough distinct peers report
last, whatever order the reports came in (`observe_quorum`).
-/

namespace IeumChain

open Lib

section MaxByKey
variable {α : Type} {key : α → UInt64}

lemma foldl_max (l : List α) (a : α) :
    (l.foldl (fun best b => if key b < key best then best else b) a ∈ a :: l) ∧
      ∀ b ∈ a :: l, key b ≤ key (l.foldl (fun best b => if key b < key best then best else b) a) := by
  induction l generalizing a with
  | nil => simp
  | cons b l ih =>
    rw [List.foldl_cons]
    by_cases hlt : key b < key a
    · rw [if_pos hlt]
      obtain ⟨hmem, hmax⟩ := ih a
      refine ⟨?_, fun c hc => ?_⟩
      · rcases List.mem_cons.mp hmem with heq | hrest
        · rw [heq]
          exact List.mem_cons_self
        · exact List.mem_cons_of_mem a (List.mem_cons_of_mem b hrest)
      · rcases List.mem_cons.mp hc with rfl | hc
        · exact hmax c List.mem_cons_self
        · rcases List.mem_cons.mp hc with rfl | hc
          · exact UInt64.le_trans (UInt64.le_of_lt hlt) (hmax a List.mem_cons_self)
          · exact hmax c (List.mem_cons_of_mem a hc)
    · rw [if_neg hlt]
      obtain ⟨hmem, hmax⟩ := ih b
      refine ⟨List.mem_cons_of_mem a hmem, fun c hc => ?_⟩
      rcases List.mem_cons.mp hc with rfl | hc
      · exact UInt64.le_trans (UInt64.not_lt.mp hlt) (hmax b List.mem_cons_self)
      · exact hmax c hc

lemma maxByKey_isSome {l : List α} : (maxByKey key l).isSome ↔ ∃ a, a ∈ l := by
  cases l with
  | nil => simp [maxByKey]
  | cons a l => simp [maxByKey]

lemma maxByKey_eq_some {l : List α} {a : α} (h : maxByKey key l = some a) :
    a ∈ l ∧ ∀ b ∈ l, key b ≤ key a := by
  cases l with
  | nil => exact absurd h (by simp [maxByKey])
  | cons b l =>
    rw [maxByKey, Option.some.injEq] at h
    exact h ▸ foldl_max l b

end MaxByKey

namespace TipQuorum

/-! ## The vote map -/

lemma votes_observed (q : TipQuorum) (hnew : q.votes = ∅) (calls : List (String × SyncTip)) :
    (q.observed calls).votes = HashMap.ofList calls ∧
      (q.observed calls).minimumPeers = q.minimumPeers := by
  induction calls using List.reverseRecOn with
  | nil => exact ⟨hnew, rfl⟩
  | append_singleton calls call ih =>
    rw [observed, List.foldl_append, HashMap.ofList_concat, ← ih.1]
    exact ⟨rfl, ih.2⟩

lemma lookup_latest (calls : List (String × SyncTip)) (peer : String) :
    (HashMap.ofList calls).lookup peer = latest calls peer := by
  induction calls using List.reverseRecOn with
  | nil => rfl
  | append_singleton calls call ih =>
    rw [HashMap.ofList_concat, HashMap.lookup_insert, latest, List.filter_append]
    by_cases hpeer : peer = call.1
    · rw [if_pos hpeer]
      simp [hpeer]
    · rw [if_neg hpeer, ih, latest]
      simp [Ne.symm hpeer]

/-- The reports of a tip in the map are one for each peer that reported it last. -/
lemma total_reports (calls : List (String × SyncTip)) (tip : SyncTip) :
    HashMap.total (fun value => if value = tip then 1 else 0) (HashMap.ofList calls) =
      reporters calls tip := by
  rw [HashMap.total_eq_sum_share _ (List.nodup_dedup (calls.map Prod.fst)), reporters]
  · generalize (calls.map Prod.fst).dedup = peers
    induction peers with
    | nil => rfl
    | cons peer peers ih =>
      rw [List.map_cons, List.sum_cons, ih, List.filter_cons, HashMap.share, lookup_latest]
      cases latest calls peer with
      | none => simp
      | some value =>
        by_cases heq : value = tip
        · simp [heq, Nat.add_comm]
        · simp [heq]
  · intro peer value h
    rw [lookup_latest, latest] at h
    obtain ⟨call, hlast, _⟩ := Option.map_eq_some_iff.mp h
    have hmem := List.mem_of_getLast? hlast
    rw [List.mem_filter, decide_eq_true_eq] at hmem
    rw [List.mem_dedup]
    exact List.mem_map.mpr ⟨call, hmem.1, hmem.2⟩

/-! ## The counts -/

/-- The counting loop counts how often every tip occurs. -/
lemma getD_counts (values : List SyncTip) (tip : SyncTip) :
    ((values.foldl countTip ∅).lookup tip.toKey).getD 0 =
      (values.map fun value => if value = tip then 1 else 0).sum := by
  induction values using List.reverseRecOn with
  | nil => rfl
  | append_singleton values value ih =>
    rw [List.foldl_append, List.foldl_cons, List.foldl_nil, countTip, HashMap.lookup_insert,
      List.map_append, List.sum_append, List.map_singleton, List.sum_singleton]
    by_cases heq : value = tip
    · rw [heq, if_pos rfl, Option.getD_some, ih, if_pos rfl]
    · have hkey : tip.toKey ≠ value.toKey := fun h =>
        heq (by rw [← SyncTip.ofKey_toKey value, ← h, SyncTip.ofKey_toKey])
      rw [if_neg hkey, ih, if_neg heq, Nat.add_zero]

lemma pos_of_counts {values : List SyncTip} {key : TipKey} {count : ℕ}
    (h : (values.foldl countTip ∅).lookup key = some count) : 0 < count := by
  induction values using List.reverseRecOn with
  | nil => exact absurd h (by simp)
  | append_singleton values value ih =>
    rw [List.foldl_append, List.foldl_cons, List.foldl_nil, countTip, HashMap.lookup_insert] at h
    split at h
    · rw [Option.some.injEq] at h
      omega
    · exact ih h

/-- An entry of the counts is a tip with its number of reports. -/
lemma lookup_counts {values : List SyncTip} {key : TipKey} {count : ℕ} :
    (values.foldl countTip ∅).lookup key = some count ↔
      0 < count ∧ (values.map fun value => if value = SyncTip.ofKey key then 1 else 0).sum =
        count := by
  have hcount := getD_counts values (SyncTip.ofKey key)
  rw [SyncTip.toKey_ofKey] at hcount
  constructor
  · intro h
    rw [h, Option.getD_some] at hcount
    exact ⟨pos_of_counts h, hcount.symm⟩
  · rintro ⟨hpos, hsum⟩
    rw [hsum] at hcount
    cases hlookup : (values.foldl countTip ∅).lookup key with
    | none =>
      rw [hlookup, Option.getD_none] at hcount
      omega
    | some other =>
      rw [hlookup, Option.getD_some] at hcount
      rw [hcount]

/-- The counts depend on the reports of each tip only. -/
lemma counts_congr {values values' : List SyncTip}
    (h : ∀ tip : SyncTip, (values.map fun value => if value = tip then 1 else 0).sum =
      (values'.map fun value => if value = tip then 1 else 0).sum) :
    values.foldl countTip ∅ = values'.foldl countTip ∅ := by
  apply Finmap.ext_lookup
  intro key
  apply Option.ext
  intro count
  rw [lookup_counts, lookup_counts, h]

/-! ## The chosen tip -/

section Observe
variable {minimum : ℕ} {q : TipQuorum}

lemma new_eq_ok (h : new minimum = .ok q) : 2 ≤ q.minimumPeers ∧ q.votes = ∅ := by
  simp only [new, bind_eq_ok, ensure_eq_ok, pure_eq_ok] at h
  obtain ⟨_, hrange, rfl⟩ := h
  exact ⟨hrange.1, rfl⟩

lemma sum_reports (hnew : q.votes = ∅) {calls : List (String × SyncTip)} {values : List SyncTip}
    (hvalues : (q.observed calls).votes.Values values) (tip : SyncTip) :
    (values.map fun value => if value = tip then 1 else 0).sum = reporters calls tip := by
  rw [HashMap.sum_values hvalues, (votes_observed q hnew calls).1, total_reports]

/-- The tips among which `observe` chooses. -/
lemma mem_enough (hmin : 2 ≤ q.minimumPeers) (hnew : q.votes = ∅)
    {calls : List (String × SyncTip)} {values : List SyncTip}
    (hvalues : (q.observed calls).votes.Values values) {entry : TipKey × ℕ} :
    entry ∈ (sortedEntries (values.foldl countTip ∅)).filter
        (fun entry => (q.observed calls).minimumPeers ≤ entry.2) ↔
      q.minimumPeers ≤ entry.2 ∧ reporters calls (SyncTip.ofKey entry.1) = entry.2 := by
  rw [List.mem_filter, decide_eq_true_eq, (votes_observed q hnew calls).2, mem_sortedEntries,
    lookup_counts, sum_reports hnew hvalues]
  constructor
  · rintro ⟨⟨_, hcount⟩, hmin⟩
    exact ⟨hmin, hcount⟩
  · rintro ⟨henough, hcount⟩
    exact ⟨⟨by omega, hcount⟩, henough⟩

lemma choose_isSome (hmin : 2 ≤ q.minimumPeers) (hnew : q.votes = ∅)
    {calls : List (String × SyncTip)} {values : List SyncTip}
    (hvalues : (q.observed calls).votes.Values values) :
    ((q.observed calls).choose values).isSome ↔
      ∃ tip, q.minimumPeers ≤ reporters calls tip := by
  rw [choose, Option.isSome_map, maxByKey_isSome]
  constructor
  · rintro ⟨entry, hmem⟩
    obtain ⟨henough, hcount⟩ := (mem_enough hmin hnew hvalues).mp hmem
    exact ⟨SyncTip.ofKey entry.1, by rw [hcount]; exact henough⟩
  · rintro ⟨tip, henough⟩
    exact ⟨(tip.toKey, reporters calls tip),
      (mem_enough hmin hnew hvalues).mpr ⟨henough, by rw [SyncTip.ofKey_toKey]⟩⟩

lemma choose_eq_some (hmin : 2 ≤ q.minimumPeers) (hnew : q.votes = ∅)
    {calls : List (String × SyncTip)} {values : List SyncTip}
    (hvalues : (q.observed calls).votes.Values values) {tip : SyncTip}
    (h : (q.observed calls).choose values = some tip) :
    q.minimumPeers ≤ reporters calls tip ∧
      ∀ other, q.minimumPeers ≤ reporters calls other → other.height ≤ tip.height := by
  rw [choose, Option.map_eq_some_iff] at h
  obtain ⟨entry, hmax, rfl⟩ := h
  obtain ⟨hmem, hgreatest⟩ := maxByKey_eq_some hmax
  obtain ⟨henough, hcount⟩ := (mem_enough hmin hnew hvalues).mp hmem
  refine ⟨by rw [hcount]; exact henough, fun other hother => ?_⟩
  exact hgreatest (other.toKey, reporters calls other)
    ((mem_enough hmin hnew hvalues).mpr ⟨hother, by rw [SyncTip.ofKey_toKey]⟩)

lemma choose_congr (hnew : q.votes = ∅) {calls calls' : List (String × SyncTip)}
    (hsame : ∀ peer, latest calls peer = latest calls' peer) {values values' : List SyncTip}
    (hvalues : (q.observed calls).votes.Values values)
    (hvalues' : (q.observed calls').votes.Values values') :
    (q.observed calls).choose values = (q.observed calls').choose values' := by
  have hmaps : HashMap.ofList calls = HashMap.ofList calls' := by
    apply Finmap.ext_lookup
    intro peer
    rw [lookup_latest, lookup_latest, hsame]
  have hcounts : values.foldl countTip ∅ = values'.foldl countTip ∅ := by
    apply counts_congr
    intro tip
    rw [sum_reports hnew hvalues, sum_reports hnew hvalues', ← total_reports, ← total_reports,
      hmaps]
  rw [choose, choose, hcounts, (votes_observed q hnew calls).2, (votes_observed q hnew calls').2]

/-- `observe` returns a tip exactly when enough distinct peers have one as their latest report, it
is then such a tip of the greatest height, and it depends on the latest reports only. -/
theorem observe_quorum (h : new minimum = .ok q) :
    (∀ calls peer tip values, (q.observed (calls ++ [(peer, tip)])).votes.Values values →
      (((q.observed calls).observe peer tip values).2.isSome ↔
        ∃ t, q.minimumPeers ≤ reporters (calls ++ [(peer, tip)]) t) ∧
      ∀ t, ((q.observed calls).observe peer tip values).2 = some t →
        q.minimumPeers ≤ reporters (calls ++ [(peer, tip)]) t ∧
          ∀ other, q.minimumPeers ≤ reporters (calls ++ [(peer, tip)]) other →
            other.height ≤ t.height) ∧
      ∀ calls peer tip values calls' peer' tip' values',
        (∀ p, latest (calls ++ [(peer, tip)]) p = latest (calls' ++ [(peer', tip')]) p) →
        (q.observed (calls ++ [(peer, tip)])).votes.Values values →
        (q.observed (calls' ++ [(peer', tip')])).votes.Values values' →
        ((q.observed calls).observe peer tip values).2 =
          ((q.observed calls').observe peer' tip' values').2 := by
  obtain ⟨hmin, hnew⟩ := new_eq_ok h
  have hlast : ∀ calls peer tip values, ((q.observed calls).observe peer tip values).2 =
      (q.observed (calls ++ [(peer, tip)])).choose values := by
    intro calls peer tip values
    rw [observed, observed, List.foldl_append]
    rfl
  constructor
  · intro calls peer tip values hvalues
    rw [hlast]
    exact ⟨choose_isSome hmin hnew hvalues, fun t ht => choose_eq_some hmin hnew hvalues ht⟩
  · intro calls peer tip values calls' peer' tip' values' hsame hvalues hvalues'
    rw [hlast, hlast]
    exact choose_congr hnew hsame hvalues hvalues'

/-- Two tips. -/
def lower : SyncTip := ⟨9, "b", "s"⟩

def higher : SyncTip := ⟨10, "c", "t"⟩

/-- One peer goes back from the higher tip to the lower one, which another one has as well. -/
def reports : List (String × SyncTip) :=
  [("a", higher), ("b", lower), ("a", lower), ("c", higher)]

/-- With the report of a fourth peer both tips have two peers, and the higher one is returned. -/
theorem observe_quorum_reports : ∃ q, new 2 = .ok q ∧ ∀ values,
    (q.observed (reports ++ [("d", higher)])).votes.Values values →
      ((q.observed reports).observe "d" higher values).2 = some higher := by
  refine ⟨{ minimumPeers := 2, votes := ∅ }, rfl, fun values hvalues => ?_⟩
  obtain ⟨hsome, hbest⟩ := (@observe_quorum 2 _ rfl).1 reports "d" higher values hvalues
  have hhigher : 2 ≤ reporters (reports ++ [("d", higher)]) higher := by decide
  obtain ⟨tip, htip⟩ := Option.isSome_iff_exists.mp (hsome.mpr ⟨higher, hhigher⟩)
  obtain ⟨henough, hgreatest⟩ := hbest tip htip
  have hheight : higher.height ≤ tip.height := hgreatest higher hhigher
  rw [htip]
  -- every tip that some peer reported is one of the two
  obtain ⟨peer, hpeer⟩ := List.exists_mem_of_length_pos (Nat.lt_of_lt_of_le Nat.two_pos henough)
  obtain ⟨hmem, hlatest⟩ := List.mem_filter.mp hpeer
  have hreported : ∀ peer ∈ ((reports ++ [("d", higher)]).map Prod.fst).dedup,
      latest (reports ++ [("d", higher)]) peer = some lower ∨
        latest (reports ++ [("d", higher)]) peer = some higher := by decide
  rcases hreported peer hmem with hlower | hhigh
  · rw [of_decide_eq_true hlatest] at hlower
    rw [Option.some.inj hlower] at hheight
    exact absurd hheight (by decide)
  · rw [← hhigh]
    exact (of_decide_eq_true hlatest).symm

end Observe

end TipQuorum

end IeumChain
