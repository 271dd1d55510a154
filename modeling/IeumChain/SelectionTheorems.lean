import IeumChain.TrafficRewards

/-!
# The balanced selection of peers

The candidates are the first usable entries of their peers (`lookup_unique`). Each of the four passes
keeps the limits, and a candidate skipped once is skipped for good, since the counts only grow. So a
peer beyond the caps for its country or network is chosen in the last pass only, after a pass with
caps found nobody for its places, and places stay empty only where nobody is left
(`select_balanced`). The result depends on the input through these first entries alone
(`select_congr`), and they do depend on the order of the input where a peer comes twice
(`select_order_iff`).
-/

namespace IeumChain

open Lib

namespace Selection

/-! ## The candidates -/

/-- The first usable entry of a peer. -/
def firstEntry (entries : List PeerCandidate) (id : String) : Option PeerCandidate :=
  entries.find? fun c => c.isUsable ∧ c.peerId = id

/-- A candidate is the first usable entry of its peer. -/
def IsCandidate (entries : List PeerCandidate) (c : PeerCandidate) : Prop :=
  firstEntry entries c.peerId = some c

/-- The map of the first loop. -/
def unique (entries : List PeerCandidate) : HashMap String PeerCandidate :=
  entries.foldl addUnique ∅

lemma unique_concat (entries : List PeerCandidate) (c : PeerCandidate) :
    unique (entries ++ [c]) = addUnique (unique entries) c := by
  rw [unique, List.foldl_append, List.foldl_cons, List.foldl_nil, unique]

/-- The first loop keeps the first usable entry of every peer. -/
lemma lookup_unique (entries : List PeerCandidate) (id : String) :
    (unique entries).lookup id = firstEntry entries id := by
  induction entries using List.reverseRecOn generalizing id with
  | nil => rfl
  | append_singleton entries c ih =>
    have hknown : c.peerId ∈ unique entries ↔ (firstEntry entries c.peerId).isSome = true := by
      rw [← ih, Option.isSome_iff_exists, Finmap.mem_iff]
    rw [unique_concat, addUnique, firstEntry, List.find?_append, ← firstEntry]
    split
    case isTrue hnew =>
      obtain ⟨husable, hfresh⟩ := hnew
      rw [HashMap.lookup_insert]
      split
      case isTrue hid =>
        subst hid
        have hnone : firstEntry entries c.peerId = none := by
          rwa [hknown, Bool.not_eq_true, Option.isSome_eq_false_iff, Option.isNone_iff_eq_none]
            at hfresh
        simp [hnone, husable]
      case isFalse hid =>
        rw [ih]
        have hother : ¬ (c.isUsable = true ∧ c.peerId = id) := fun h => hid h.2.symm
        simp [hother]
    case isFalse hold =>
      rw [ih]
      by_cases hmatch : c.isUsable = true ∧ c.peerId = id
      · obtain ⟨husable, rfl⟩ := hmatch
        have hsome : (firstEntry entries c.peerId).isSome = true := by
          rw [← hknown]
          by_contra hfresh
          exact hold ⟨husable, hfresh⟩
        obtain ⟨first, hfirst⟩ := Option.isSome_iff_exists.mp hsome
        rw [hfirst, Option.some_or]
      · simp [hmatch]

/-- The candidates in some order. -/
structure IsPool (entries pool : List PeerCandidate) : Prop where
  mem : ∀ c, c ∈ pool ↔ IsCandidate entries c
  distinct : (pool.map PeerCandidate.peerId).Nodup

lemma firstEntry_peerId {entries : List PeerCandidate} {id : String} {c : PeerCandidate}
    (h : firstEntry entries id = some c) : c.peerId = id ∧ c ∈ entries := by
  have hc : c.isUsable = true ∧ c.peerId = id := by simpa using List.find?_some h
  exact ⟨hc.2, List.mem_of_find?_eq_some h⟩

/-- The values of the map are the candidates. -/
lemma isPool_values (iteration : HashMap.Iteration String PeerCandidate)
    (entries : List PeerCandidate) : IsPool entries (iteration.values (unique entries)) := by
  have hvalues := iteration.exact (unique entries)
  have hkeys : ∀ entry ∈ (unique entries).entries, entry.2.peerId = entry.1 := by
    intro entry hentry
    have hlookup := Finmap.lookup_eq_some_iff.mpr hentry
    rw [lookup_unique] at hlookup
    exact (firstEntry_peerId hlookup).1
  constructor
  · intro c
    rw [HashMap.mem_values hvalues]
    constructor
    · rintro ⟨id, hid⟩
      rw [lookup_unique] at hid
      rw [IsCandidate, (firstEntry_peerId hid).1, hid]
    · intro hc
      exact ⟨c.peerId, by rw [lookup_unique]; exact hc⟩
  · have hmap : ((iteration.values (unique entries)).map PeerCandidate.peerId : Multiset String) =
        (unique entries).entries.map fun entry => entry.1 := by
      rw [← Multiset.map_coe, ← hvalues, Multiset.map_map]
      exact Multiset.map_congr rfl hkeys
    rw [← Multiset.coe_nodup, hmap]
    exact (unique entries).keys.nodup

/-! ## The passes -/

/-- The peer stands at the cap for its country or its network. -/
def Exceeds (p : TrafficPolicy) (selected : List PeerCandidate) (c : PeerCandidate) : Prop :=
  p.maxPerCountry ≤ countryCount selected c.countryCode ∨ p.maxPerAsn ≤ asnCount selected c.asn

lemma skips_eq_false {p : TrafficPolicy} {relaxed : Bool} {selected : List PeerCandidate}
    {c : PeerCandidate} : p.skips relaxed selected c = false ↔
      (∀ peer ∈ selected, peer.peerId ≠ c.peerId) ∧ p.minimumUptimeBps ≤ c.uptimeBps ∧
        (c.isBootstrap = true → bootstrapCount selected < p.maxBootstrapConnections) ∧
        (relaxed = false → ¬ Exceeds p selected c) := by
  rw [TrafficPolicy.skips, Exceeds]
  simp only [Bool.or_eq_false_iff, Bool.and_eq_false_iff, List.any_eq_false, decide_eq_true_eq,
    decide_eq_false_iff_not, Bool.not_eq_false', UInt16.not_lt, Nat.not_le, not_or, and_assoc]
  cases c.isBootstrap <;> cases relaxed <;> simp

/-- A count over a longer selection is no smaller. -/
lemma length_filter_le {s s' : List PeerCandidate} (h : s <+: s') (q : PeerCandidate → Bool) :
    (s.filter q).length ≤ (s'.filter q).length :=
  (h.sublist.filter q).length_le

/-- The counts only grow, so a candidate skipped once is skipped for good. -/
lemma persistent_skips (p : TrafficPolicy) (relaxed : Bool) : Persistent (p.skips relaxed) where
  stays := by
    intro s s' c hpre hskip
    by_contra hfree
    rw [Bool.not_eq_true, skips_eq_false] at hfree
    obtain ⟨hids, huptime, hboot, hcaps⟩ := hfree
    have hfree : p.skips relaxed s c = false := by
      refine skips_eq_false.mpr ⟨fun peer hpeer => hids peer (hpre.subset hpeer), huptime,
        fun hc => (length_filter_le hpre _).trans_lt (hboot hc), fun hr hexceeds => ?_⟩
      exact hcaps hr (hexceeds.imp (fun h => h.trans (length_filter_le hpre _))
        fun h => h.trans (length_filter_le hpre _))
    rw [hfree] at hskip
    cases hskip
  once := by
    intro s c hc
    by_contra hfree
    rw [Bool.not_eq_true, skips_eq_false] at hfree
    exact hfree.1 c hc rfl

/-- What every pass keeps: the selection consists of candidates that are allowed to be there. -/
structure Limits (p : TrafficPolicy) (entries selected : List PeerCandidate) : Prop where
  candidates : ∀ c ∈ selected, IsCandidate entries c
  distinct : (selected.map PeerCandidate.peerId).Nodup
  uptime : ∀ c ∈ selected, p.minimumUptimeBps ≤ c.uptimeBps
  bootstrap : bootstrapCount selected ≤ p.maxBootstrapConnections

lemma limits_nil (p : TrafficPolicy) (entries : List PeerCandidate) : Limits p entries [] where
  candidates _ hc := absurd hc List.not_mem_nil
  distinct := List.nodup_nil
  uptime _ hc := absurd hc List.not_mem_nil
  bootstrap := Nat.zero_le _

/-- Taking a candidate that is not skipped keeps the limits. -/
lemma Limits.concat {p : TrafficPolicy} {entries selected : List PeerCandidate} {relaxed : Bool}
    {c : PeerCandidate} (h : Limits p entries selected) (hc : IsCandidate entries c)
    (hfree : p.skips relaxed selected c = false) : Limits p entries (selected ++ [c]) := by
  obtain ⟨hids, huptime, hboot, -⟩ := skips_eq_false.mp hfree
  refine ⟨?_, ?_, ?_, ?_⟩
  · intro c' hc'
    obtain hmem | hlast := List.mem_append.mp hc'
    · exact h.candidates c' hmem
    · exact List.mem_singleton.mp hlast ▸ hc
  · rw [List.map_append, List.map_singleton, List.nodup_append]
    refine ⟨h.distinct, List.nodup_singleton _, fun id hid id' hid' => ?_⟩
    obtain ⟨peer, hpeer, rfl⟩ := List.mem_map.mp hid
    exact List.mem_singleton.mp hid' ▸ hids peer hpeer
  · intro c' hc'
    obtain hmem | hlast := List.mem_append.mp hc'
    · exact h.uptime c' hmem
    · exact List.mem_singleton.mp hlast ▸ huptime
  · rw [bootstrapCount, List.filter_append, List.length_append, ← bootstrapCount]
    by_cases hb : c.isBootstrap = true
    · have hlt := hboot hb
      simp only [hb, List.filter_cons_of_pos, List.filter_nil, List.length_singleton]
      omega
    · simpa [hb] using h.bootstrap

/-- A pass over the candidates, in any order, keeps the limits. -/
lemma Limits.fillSlots {p : TrafficPolicy} {entries pool sorted selected : List PeerCandidate}
    (h : Limits p entries selected) (hpool : IsPool entries pool) (hsorted : sorted.Perm pool)
    (count : ℕ) (relaxed : Bool) :
    Limits p entries (p.fillSlots sorted count selected relaxed) :=
  fill_induction (Limits p entries) (fun _ c hc hs _ hfree =>
    hs.concat ((hpool.mem c).mp (hsorted.mem_iff.mp hc)) hfree) h

/-- A pass over the candidates from one selection to the next. -/
structure Pass (p : TrafficPolicy) (pool : List PeerCandidate) (relaxed : Bool) (count : ℕ)
    (s s' : List PeerCandidate) : Prop where
  grows : s <+: s'
  bounded : s'.length ≤ s.length + count
  complete : s'.length < s.length + count →
    ∀ c ∈ pool, ∀ later, s' <+: later → p.skips relaxed later c = true

lemma pass_fillSlots (p : TrafficPolicy) {pool sorted : List PeerCandidate}
    (hsorted : sorted.Perm pool) (relaxed : Bool) (count : ℕ) (s : List PeerCandidate) :
    Pass p pool relaxed count s (p.fillSlots sorted count s relaxed) where
  grows := prefix_fill sorted s
  bounded := length_fill_le (Nat.le_add_right _ _)
  complete := fun hroom c hc =>
    fill_complete (persistent_skips p relaxed) hroom c (hsorted.mem_iff.mpr hc)

/-! ## The selection -/

/-- The selection after the pass over the nearby candidates. -/
def nearby (p : TrafficPolicy) (pool : List PeerCandidate) : List PeerCandidate :=
  p.fillSlots (sortBy nearbyKey pool) p.nearbySlots [] false

/-- The selection after the pass over the diverse candidates. -/
def diverse (p : TrafficPolicy) (pool : List PeerCandidate) : List PeerCandidate :=
  p.fillSlots (sortBy (diverseKey (nearby p pool)) pool) p.diversitySlots (nearby p pool) false

/-- The selection after the three passes with caps. -/
def capped (p : TrafficPolicy) (pool : List PeerCandidate) : List PeerCandidate :=
  p.fillSlots (sortBy lowLoadKey pool) p.lowLoadSlots (diverse p pool) false

/-- The selection after the last pass. -/
def chosen (p : TrafficPolicy) (pool : List PeerCandidate) : List PeerCandidate :=
  p.fillSlots (sortBy fallbackKey pool) (p.targetConnections - (capped p pool).length)
    (capped p pool) true

section Chosen

variable {p : TrafficPolicy} {entries pool : List PeerCandidate}

lemma limits_chosen (hpool : IsPool entries pool) : Limits p entries (chosen p pool) := by
  have hnearby := (limits_nil p entries).fillSlots hpool (perm_sortBy nearbyKey pool)
    p.nearbySlots false
  have hdiverse := hnearby.fillSlots hpool (perm_sortBy (diverseKey (nearby p pool)) pool)
    p.diversitySlots false
  have hcapped := hdiverse.fillSlots hpool (perm_sortBy lowLoadKey pool) p.lowLoadSlots false
  exact hcapped.fillSlots hpool (perm_sortBy fallbackKey pool) _ true

/-- In the passes with caps everyone was below the caps when taken. -/
lemma taken_capped : Taken (p.skips false) 0 (capped p pool) := by
  have hempty : Taken (p.skips false) 0 [] := taken_length []
  exact taken_fill (taken_fill (taken_fill hempty))

lemma pass_nearby : Pass p pool false p.nearbySlots [] (nearby p pool) :=
  pass_fillSlots p (perm_sortBy nearbyKey pool) false _ _

lemma pass_diverse : Pass p pool false p.diversitySlots (nearby p pool) (diverse p pool) :=
  pass_fillSlots p (perm_sortBy (diverseKey (nearby p pool)) pool) false _ _

lemma pass_capped : Pass p pool false p.lowLoadSlots (diverse p pool) (capped p pool) :=
  pass_fillSlots p (perm_sortBy lowLoadKey pool) false _ _

lemma pass_chosen : Pass p pool true (p.targetConnections - (capped p pool).length)
    (capped p pool) (chosen p pool) :=
  pass_fillSlots p (perm_sortBy fallbackKey pool) true _ _

/-- Where the passes with caps leave places empty, one of them found nobody, and nobody will be
found with caps later. -/
lemma skips_of_short (hslots : p.nearbySlots + p.diversitySlots + p.lowLoadSlots =
      p.targetConnections) (hshort : (capped p pool).length < p.targetConnections)
    {later : List PeerCandidate} (hlater : capped p pool <+: later) :
    ∀ c ∈ pool, p.skips false later c = true := by
  intro c hc
  by_cases hnearby : (nearby p pool).length < p.nearbySlots
  · exact pass_nearby.complete (by simpa using hnearby) c hc later
      (pass_diverse.grows.trans (pass_capped.grows.trans hlater))
  by_cases hdiverse : (diverse p pool).length < (nearby p pool).length + p.diversitySlots
  · exact pass_diverse.complete hdiverse c hc later (pass_capped.grows.trans hlater)
  · exact pass_capped.complete (by omega) c hc later hlater

lemma length_capped_le (hslots : p.nearbySlots + p.diversitySlots + p.lowLoadSlots =
    p.targetConnections) : (capped p pool).length ≤ p.targetConnections := by
  have hnearby := (@pass_nearby p pool).bounded
  have hdiverse := (@pass_diverse p pool).bounded
  have hcapped := (@pass_capped p pool).bounded
  rw [List.length_nil] at hnearby
  omega

lemma length_chosen_le (hslots : p.nearbySlots + p.diversitySlots + p.lowLoadSlots =
    p.targetConnections) : (chosen p pool).length ≤ p.targetConnections := by
  have hcapped := @length_capped_le p pool hslots
  have hchosen := (@pass_chosen p pool).bounded
  omega

/-- A candidate with the id of a selected one is that one. -/
lemma mem_of_peerId {selected : List PeerCandidate}
    (h : ∀ c ∈ selected, IsCandidate entries c) {c : PeerCandidate} (hc : IsCandidate entries c)
    {peer : PeerCandidate}
    (hpeer : peer ∈ selected) (hid : peer.peerId = c.peerId) : c ∈ selected := by
  have hsame : some peer = some c := by
    rw [← h peer hpeer, hid, hc]
  exact Option.some.inj hsame ▸ hpeer

/-- A peer beyond a cap is taken only when every other candidate that could be is beyond one. -/
lemma exceeds_of_exceeds (hpool : IsPool entries pool)
    (hslots : p.nearbySlots + p.diversitySlots + p.lowLoadSlots = p.targetConnections)
    {before after : List PeerCandidate} {c : PeerCandidate}
    (hsplit : chosen p pool = before ++ c :: after) (hc : Exceeds p before c)
    {other : PeerCandidate} (hother : IsCandidate entries other) (hnot : other ∉ before)
    (huptime : p.minimumUptimeBps ≤ other.uptimeBps)
    (hboot : other.isBootstrap = true → bootstrapCount before < p.maxBootstrapConnections) :
    Exceeds p before other := by
  have hbefore : before <+: chosen p pool := ⟨_, hsplit.symm⟩
  have hcapped : capped p pool <+: chosen p pool := pass_chosen.grows
  have hlength := congrArg List.length hsplit
  rw [List.length_append, List.length_cons] at hlength
  by_cases hlate : (capped p pool).length ≤ before.length
  · -- the last pass had places to fill
    have hbounded := (@pass_chosen p pool).bounded
    have hskip := skips_of_short hslots (by omega)
      (List.prefix_of_prefix_length_le hcapped hbefore hlate) other ((hpool.mem other).mpr hother)
    by_contra hbelow
    have hfree : p.skips false before other = false := by
      have hcandidates : ∀ peer ∈ before, IsCandidate entries peer := fun peer hpeer =>
        (limits_chosen hpool).candidates peer (hbefore.subset hpeer)
      exact skips_eq_false.mpr ⟨fun peer hpeer hid =>
        hnot (mem_of_peerId hcandidates hother hpeer hid), huptime, hboot, fun _ => hbelow⟩
    rw [hfree] at hskip
    cases hskip
  · -- a pass with caps took it, below the caps
    obtain ⟨rest, hrest⟩ : before ++ [c] <+: capped p pool := by
      refine List.prefix_of_prefix_length_le ⟨after, ?_⟩ hcapped ?_
      · rw [hsplit, List.append_assoc]
        rfl
      · rw [List.length_append, List.length_singleton]
        omega
    have hfree := taken_capped before c rest (by rw [← hrest, List.append_assoc]; rfl)
      (Nat.zero_le _)
    exact absurd hc ((skips_eq_false.mp hfree).2.2.2 rfl)

/-- Where places stay empty, whoever is not chosen lacks the uptime or is one bootstrap node too
many. -/
lemma unfit_of_short (hpool : IsPool entries pool)
    (hslots : p.nearbySlots + p.diversitySlots + p.lowLoadSlots = p.targetConnections)
    (hshort : (chosen p pool).length < p.targetConnections) {other : PeerCandidate}
    (hother : IsCandidate entries other) (hnot : other ∉ chosen p pool) :
    other.uptimeBps < p.minimumUptimeBps ∨
      other.isBootstrap = true ∧ p.maxBootstrapConnections ≤ bootstrapCount (chosen p pool) := by
  have hcapped := @length_capped_le p pool hslots
  have hskip := (@pass_chosen p pool).complete (by omega) other
    ((hpool.mem other).mpr hother) _ (List.prefix_refl _)
  by_contra! hfit
  have hfree : p.skips true (chosen p pool) other = false := by
    refine skips_eq_false.mpr ⟨fun peer hpeer hid => ?_, UInt16.not_lt.mp hfit.1, hfit.2, nofun⟩
    exact hnot (mem_of_peerId (limits_chosen hpool).candidates hother hpeer hid)
  rw [hfree] at hskip
  cases hskip

end Chosen

/-- The slots of an accepted policy add up to its connections. -/
lemma slots_of_validate {p : TrafficPolicy} (h : p.validate = .ok ()) :
    p.nearbySlots + p.diversitySlots + p.lowLoadSlots = p.targetConnections := by
  rw [TrafficPolicy.validate] at h
  simp only [bind_eq_ok, ensure_eq_ok] at h
  obtain ⟨_, -, _, -, _, hslots, -⟩ := h
  exact hslots

lemma select_eq_ok {iteration : HashMap.Iteration String PeerCandidate} {p : TrafficPolicy}
    (h : p.validate = .ok ()) (entries : List PeerCandidate) :
    selectBalancedPeers iteration p entries =
      .ok (chosen p (iteration.values (unique entries))) := by
  have hlength := @length_chosen_le p (iteration.values (unique entries)) (slots_of_validate h)
  rw [← List.take_of_length_le hlength, selectBalancedPeers, h]
  rfl

/-- What a balanced selection of an accepted policy is. -/
structure Balanced (p : TrafficPolicy) (entries selected : List PeerCandidate) : Prop extends
    Limits p entries selected where
  count : selected.length ≤ p.targetConnections
  lastResort : ∀ before c after, selected = before ++ c :: after → Exceeds p before c →
    ∀ other, IsCandidate entries other → other ∉ before →
      p.minimumUptimeBps ≤ other.uptimeBps →
      (other.isBootstrap = true → bootstrapCount before < p.maxBootstrapConnections) →
      Exceeds p before other
  noneLeft : selected.length < p.targetConnections →
    ∀ other, IsCandidate entries other → other ∉ selected →
      other.uptimeBps < p.minimumUptimeBps ∨
        other.isBootstrap = true ∧ p.maxBootstrapConnections ≤ bootstrapCount selected

lemma balanced_chosen {p : TrafficPolicy} {entries pool : List PeerCandidate}
    (h : p.validate = .ok ()) (hpool : IsPool entries pool) :
    Balanced p entries (chosen p pool) :=
  { limits_chosen hpool with
    count := length_chosen_le (slots_of_validate h)
    lastResort := fun _ _ _ hsplit hc _ hother hnot huptime hboot =>
      exceeds_of_exceeds hpool (slots_of_validate h) hsplit hc hother hnot huptime hboot
    noneLeft := fun hshort _ hother hnot =>
      unfit_of_short hpool (slots_of_validate h) hshort hother hnot }

/-- An accepted policy selects peers within its limits and wastes no slot. -/
theorem select_balanced (iteration : HashMap.Iteration String PeerCandidate) (p : TrafficPolicy)
    (h : p.validate = .ok ()) (entries : List PeerCandidate) :
    ∃ selected, selectBalancedPeers iteration p entries = .ok selected ∧
      Balanced p entries selected :=
  ⟨_, select_eq_ok h entries, balanced_chosen h (isPool_values iteration entries)⟩

/-- A peer with the numbers of the tests. -/
def peer (index : ℕ) (country : String) (asn latency load : UInt32) : PeerCandidate where
  peerId := s!"peer-{index}"
  countryCode := country
  asn := asn
  latencyMs := latency
  uptimeBps := 9500
  capacity := 100
  activeConnections := load
  isBootstrap := index ≤ 2

/-- Of two bootstrap nodes one is chosen, and then nobody is left. -/
theorem select_balanced_two : ∃ selected,
    selectBalancedPeers .sorted .default [peer 1 "KR" 100 1 80, peer 2 "KR" 100 2 80] =
      .ok selected ∧ bootstrapCount selected ≤ 1 ∧ (selected.map PeerCandidate.peerId).Nodup := by
  obtain ⟨selected, hselect, hbalanced⟩ := select_balanced .sorted .default (by decide)
    [peer 1 "KR" 100 1 80, peer 2 "KR" 100 2 80]
  exact ⟨selected, hselect, hbalanced.bootstrap, hbalanced.distinct⟩

/-! ## The order of the input -/

/-- Keys that tell the peer are distinct over the candidates. -/
lemma nodup_key {κ : Type} {pool : List PeerCandidate} {key : PeerCandidate → κ} (id : κ → String)
    (hid : ∀ c, id (key c) = c.peerId) (h : (pool.map PeerCandidate.peerId).Nodup) :
    (pool.map key).Nodup := by
  have hmap : (pool.map key).map id = pool.map PeerCandidate.peerId := by
    rw [List.map_map]
    exact List.map_congr_left fun c _ => hid c
  exact List.Nodup.of_map id (hmap ▸ h)

/-- The passes sort, so the order of the candidates has no influence. -/
lemma chosen_perm {p : TrafficPolicy} {pool pool' : List PeerCandidate} (hperm : pool.Perm pool')
    (h : (pool.map PeerCandidate.peerId).Nodup) : chosen p pool = chosen p pool' := by
  have hnearby : nearby p pool = nearby p pool' := by
    rw [nearby, nearby, sortBy_congr hperm
      (nodup_key (fun k => (ofLex (ofLex k).2).2) (fun _ => rfl) h)]
  have hdiverse : diverse p pool = diverse p pool' := by
    rw [diverse, diverse, hnearby, sortBy_congr hperm
      (nodup_key (fun k => (ofLex (ofLex (ofLex (ofLex k).2).2).2).2) (fun _ => rfl) h)]
  have hcapped : capped p pool = capped p pool' := by
    rw [capped, capped, hdiverse, sortBy_congr hperm
      (nodup_key (fun k => (ofLex (ofLex (ofLex k).2).2).2) (fun _ => rfl) h)]
  rw [chosen, chosen, hcapped, sortBy_congr hperm
    (nodup_key (fun k => (ofLex (ofLex (ofLex k).2).2).2) (fun _ => rfl) h)]

/-- The result depends on the first usable entries alone, whatever the order of the map is. -/
theorem select_congr {iteration iteration' : HashMap.Iteration String PeerCandidate}
    {p : TrafficPolicy} (h : p.validate = .ok ()) {entries entries' : List PeerCandidate}
    (hfirst : ∀ id, firstEntry entries id = firstEntry entries' id) :
    selectBalancedPeers iteration p entries = selectBalancedPeers iteration' p entries' := by
  have hunique : unique entries = unique entries' :=
    Finmap.ext_lookup fun id => by rw [lookup_unique, lookup_unique, hfirst]
  have hperm : (iteration.values (unique entries)).Perm (iteration'.values (unique entries')) := by
    rw [← Multiset.coe_eq_coe, ← iteration.exact, ← iteration'.exact, hunique]
  rw [select_eq_ok h, select_eq_ok h,
    chosen_perm hperm (isPool_values iteration entries).distinct]

/-- A policy without effective limits. -/
def wide : TrafficPolicy where
  targetConnections := 2 ^ 64 - 1
  nearbySlots := 2 ^ 64 - 1
  diversitySlots := 0
  lowLoadSlots := 0
  maxPerCountry := 2 ^ 64 - 1
  maxPerAsn := 2 ^ 64 - 1
  maxBootstrapConnections := 2 ^ 64 - 1
  minimumUptimeBps := 0

lemma validate_wide : wide.validate = .ok () := by decide

/-- Without effective limits every candidate is chosen. -/
lemma mem_of_wide {entries selected : List PeerCandidate} (hlength : entries.length < 2 ^ 63)
    (h : Balanced wide entries selected) {c : PeerCandidate} :
    c ∈ selected ↔ IsCandidate entries c := by
  refine ⟨h.candidates c, fun hc => ?_⟩
  have hsubset : selected ⊆ entries := fun c' hc' => (firstEntry_peerId (h.candidates c' hc')).2
  have hnodup : selected.Nodup := List.Nodup.of_map PeerCandidate.peerId h.distinct
  have hle : selected.length ≤ entries.length := (hnodup.subperm hsubset).length_le
  have hshort : selected.length < wide.targetConnections := by
    show selected.length < 2 ^ 64 - 1
    omega
  by_contra hnot
  obtain huptime | ⟨-, hboot⟩ := h.noneLeft hshort c hc hnot
  · exact absurd huptime (UInt16.not_lt.mpr (UInt16.le_iff_toNat_le.mpr (Nat.zero_le _)))
  · have hcount : bootstrapCount selected ≤ selected.length := List.length_filter_le _ _
    have hmax : 2 ^ 64 - 1 ≤ bootstrapCount selected := hboot
    omega

/-- Two arrangements of the same entries give the same result under every policy, and in every
order of the hash map, exactly when the same entry of each peer comes first. -/
theorem select_order_iff (entries entries' : List PeerCandidate) (hperm : entries'.Perm entries)
    (hlength : entries.length < 2 ^ 63) :
    (∀ (p : TrafficPolicy) (iteration iteration' : HashMap.Iteration String PeerCandidate),
      p.validate = .ok () →
      selectBalancedPeers iteration p entries = selectBalancedPeers iteration' p entries') ↔
    ∀ id, firstEntry entries id = firstEntry entries' id := by
  constructor
  · intro hsame id
    obtain ⟨selected, hselect, hbalanced⟩ : ∃ selected,
        selectBalancedPeers .sorted wide entries = .ok selected ∧ Balanced wide entries selected :=
      ⟨_, select_eq_ok validate_wide entries,
        balanced_chosen validate_wide (isPool_values .sorted entries)⟩
    obtain ⟨selected', hselect', hbalanced'⟩ : ∃ selected',
        selectBalancedPeers .sorted wide entries' = .ok selected' ∧
          Balanced wide entries' selected' :=
      ⟨_, select_eq_ok validate_wide entries',
        balanced_chosen validate_wide (isPool_values .sorted entries')⟩
    have heq := hsame wide .sorted .sorted validate_wide
    rw [hselect, hselect', Except.ok.injEq] at heq
    subst heq
    ext c
    have hiff : ∀ {l : List PeerCandidate}, firstEntry l id = some c ↔
        IsCandidate l c ∧ c.peerId = id := by
      intro l
      constructor
      · intro hc
        obtain ⟨rfl, -⟩ := firstEntry_peerId hc
        exact ⟨hc, rfl⟩
      · rintro ⟨hc, rfl⟩
        exact hc
    rw [hiff, hiff, ← mem_of_wide hlength hbalanced,
      ← mem_of_wide (hperm.length_eq ▸ hlength) hbalanced']
  · intro hfirst p iteration iteration' h
    exact select_congr h hfirst

/-- Where usable entries of one peer are equal, the order of the input has no influence on which
entry comes first. -/
lemma firstEntry_perm {entries entries' : List PeerCandidate} (hperm : entries'.Perm entries)
    (hsame : ∀ c ∈ entries, ∀ c' ∈ entries, c.isUsable = true → c'.isUsable = true →
      c.peerId = c'.peerId → c = c') (id : String) :
    firstEntry entries id = firstEntry entries' id := by
  have hiff : ∀ {l : List PeerCandidate}, l.Perm entries → ∀ c,
      firstEntry l id = some c ↔ c ∈ entries ∧ c.isUsable = true ∧ c.peerId = id := by
    intro l hl c
    constructor
    · intro hc
      have husable : c.isUsable = true ∧ c.peerId = id := by simpa using List.find?_some hc
      exact ⟨hl.mem_iff.mp (List.mem_of_find?_eq_some hc), husable⟩
    · rintro ⟨hmem, husable, hid⟩
      have hsome : (firstEntry l id).isSome = true :=
        List.find?_isSome.mpr ⟨c, hl.mem_iff.mpr hmem, by simp [husable, hid]⟩
      obtain ⟨first, hfirst⟩ := Option.isSome_iff_exists.mp hsome
      have hother : first.isUsable = true ∧ first.peerId = id := by
        simpa using List.find?_some hfirst
      rw [hfirst, hsame first (hl.mem_iff.mp (List.mem_of_find?_eq_some hfirst)) c hmem hother.1
        husable (hother.2.trans hid.symm)]
  ext c
  rw [hiff (.refl _), hiff hperm]

/-- Two peers in either order. -/
theorem select_order_two :
    selectBalancedPeers .sorted .default [peer 1 "KR" 100 1 80, peer 2 "JP" 200 2 80] =
      selectBalancedPeers .sorted .default [peer 2 "JP" 200 2 80, peer 1 "KR" 100 1 80] :=
  (select_order_iff [peer 1 "KR" 100 1 80, peer 2 "JP" 200 2 80]
    [peer 2 "JP" 200 2 80, peer 1 "KR" 100 1 80] (.swap _ _ _) (by decide)).mpr
    (firstEntry_perm (.swap _ _ _) (by decide)) .default .sorted .sorted (by decide)

/-- One peer with two latencies: the entry that comes first is the one that is chosen. -/
theorem select_order_twice :
    [peer 1 "KR" 100 2 80, peer 1 "KR" 100 1 80].Perm
        [peer 1 "KR" 100 1 80, peer 1 "KR" 100 2 80] ∧
      selectBalancedPeers .sorted .default [peer 1 "KR" 100 1 80, peer 1 "KR" 100 2 80] =
        .ok [peer 1 "KR" 100 1 80] ∧
      selectBalancedPeers .sorted .default [peer 1 "KR" 100 2 80, peer 1 "KR" 100 1 80] =
        .ok [peer 1 "KR" 100 2 80] := by
  exact ⟨.swap _ _ _, by decide +kernel, by decide +kernel⟩

end Selection

end IeumChain
