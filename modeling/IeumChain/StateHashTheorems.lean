import IeumChain.SnapshotTheorems
import IeumChain.Devnet

/-!
# The state root

`state_hash` hashes the accounts one after the other, each as address, balance and next nonce,
and then the executed events. Balances and nonces have a fixed width, but addresses and event ids
are written without their lengths, and a nonce that is 0 looks like no nonce. So two states with
one root are equal exactly when the root does not have to say where a text ends and which accounts
have a nonce entry (`stateHash_commits`).
-/

namespace IeumChain

open Lib

section
variable [Primitives]

namespace Blockchain

/-- What an account adds to the bytes under the root. -/
def accountBytes (c : Blockchain) (address : String) : Bytes :=
  textBytes address ++ beBytes 16 (c.balanceOf address).toNat ++
    beBytes 8 (c.nextNonce address).toNat

omit [Primitives] in
lemma length_accountBytes (c : Blockchain) (address : String) :
    (c.accountBytes address).length = textLen address + 24 := by
  simp only [accountBytes, List.length_append, length_beBytes, textLen]

omit [Primitives] in
/-- The bytes of two accounts whose addresses are equally long are read in one way. -/
lemma accountBytes_inj {c d : Blockchain} {a b : String} (hlen : textLen a = textLen b)
    (h : c.accountBytes a = d.accountBytes b) :
    a = b ∧ c.balanceOf a = d.balanceOf b ∧ c.nextNonce a = d.nextNonce b := by
  simp only [accountBytes, List.append_assoc] at h
  obtain ⟨haddress, h⟩ := append_inj_of_length hlen h
  obtain ⟨hbalance, hnonce⟩ := append_inj_of_length (by simp) h
  exact ⟨textBytes_inj.mp haddress, beBytes_bitVec_inj hbalance, beBytes_uint64_inj hnonce⟩

/-- What an executed event adds to the bytes under the root. -/
def eventBytes (eventId : String) : Bytes := textBytes "event:" ++ textBytes eventId

omit [Primitives] in
lemma length_eventBytes (eventId : String) :
    (eventBytes eventId).length = textLen "event:" + textLen eventId := by
  simp only [eventBytes, List.length_append, textLen]

omit [Primitives] in
lemma stateBytes_eq (c : Blockchain) :
    c.stateBytes = (sortedList c.balances.keys).flatMap c.accountBytes ++
      (sortedList c.executedEvents).flatMap eventBytes := rfl

/-- The part of two states the root does not record: the lengths of the addresses in order, the
lengths of the event ids in order, and the accounts that have a nonce entry. -/
structure SameShape (c d : Blockchain) : Prop where
  addresses : (sortedList c.balances.keys).map textLen = (sortedList d.balances.keys).map textLen
  events : (sortedList c.executedEvents).map textLen = (sortedList d.executedEvents).map textLen
  nonces : c.nextNonces.keys = d.nextNonces.keys

omit [Primitives] in
/-- Two maps with the same keys and the same values at them are equal. -/
lemma map_eq_of_getD {V : Type} {m n : HashMap String V} (default : V) (hkeys : m.keys = n.keys)
    (h : ∀ a ∈ m, (m.lookup a).getD default = (n.lookup a).getD default) : m = n := by
  apply Finmap.ext_lookup
  intro a
  by_cases ha : a ∈ m
  · have ha' : a ∈ n := by rwa [← Finmap.mem_keys, ← hkeys, Finmap.mem_keys]
    obtain ⟨v, hv⟩ := Finmap.mem_iff.mp ha
    obtain ⟨w, hw⟩ := Finmap.mem_iff.mp ha'
    have hvalue := h a ha
    rw [hv, hw] at hvalue ⊢
    exact congrArg some hvalue
  · have ha' : a ∉ n := by rwa [← Finmap.mem_keys, ← hkeys, Finmap.mem_keys]
    rw [Finmap.lookup_eq_none.mpr ha, Finmap.lookup_eq_none.mpr ha']

omit [Primitives] in
/-- States of one shape can be read back from the bytes under the root. -/
lemma SameShape.state_eq {c d : Blockchain} (h : SameShape c d)
    (hc : c.nextNonces.keys ⊆ c.balances.keys) (hbytes : c.stateBytes = d.stateBytes) :
    c.balances = d.balances ∧ c.nextNonces = d.nextNonces ∧
      c.executedEvents = d.executedEvents := by
  rw [stateBytes_eq, stateBytes_eq] at hbytes
  obtain ⟨haddresses, haccounts, hevents⟩ := flatMap_append_inj textLen
    (fun a b hab => by rw [length_accountBytes, length_accountBytes, hab])
    (fun a b hab heq => (accountBytes_inj hab heq).1) h.addresses hbytes
  rw [← List.append_nil (List.flatMap _ (sortedList c.executedEvents)),
    ← List.append_nil (List.flatMap _ (sortedList d.executedEvents))] at hevents
  obtain ⟨hids, _, _⟩ := flatMap_append_inj (f := eventBytes) (g := eventBytes) textLen
    (fun a b hab => by rw [length_eventBytes, length_eventBytes, hab])
    (fun a b _ heq => textBytes_inj.mp (List.append_cancel_left heq)) h.events hevents
  have hkeys := sortedList_inj haddresses
  have hread : ∀ a ∈ c.balances.keys,
      c.balanceOf a = d.balanceOf a ∧ c.nextNonce a = d.nextNonce a := by
    intro a ha
    exact (accountBytes_inj rfl (haccounts a (mem_sortedList.mpr ha))).2
  refine ⟨map_eq_of_getD 0 hkeys fun a ha => (hread a (Finmap.mem_keys.mpr ha)).1,
    map_eq_of_getD 0 h.nonces fun a ha => ?_, sortedList_inj hids⟩
  exact (hread a (hc (Finmap.mem_keys.mpr ha))).2

/-- **When the state root commits to the state.** Take two chains made from snapshots with nonces
for accounts that have a balance only, whose state bytes are no collision of SHA-256. If they have
the same state hash, then their balances, nonces and executed events are equal exactly when
their addresses have the same lengths in order, their event ids have the same lengths in order, and
their nonce maps have entries for the same accounts. -/
theorem stateHash_commits (chainId chainId' : UInt64) (commitment commitment' : String)
    (height height' : UInt64) (blockHash blockHash' : String) (balances balances' : Balances)
    (nextNonces nextNonces' : Nonces) (executedEvents executedEvents' : Finset String)
    (c d : Blockchain)
    (hc : fromSnapshotWithEvents chainId commitment height blockHash balances nextNonces
      executedEvents = .ok c)
    (hd : fromSnapshotWithEvents chainId' commitment' height' blockHash' balances' nextNonces'
      executedEvents' = .ok d)
    (hnonces : nextNonces.keys ⊆ balances.keys) (hnonces' : nextNonces'.keys ⊆ balances'.keys)
    (hcollision : CollisionFree fun bytes => bytes = c.stateBytes ∨ bytes = d.stateBytes)
    (hhash : c.stateHash = d.stateHash) :
    (c.balances = d.balances ∧ c.nextNonces = d.nextNonces ∧
        c.executedEvents = d.executedEvents) ↔
      (sortedList balances.keys).map textLen = (sortedList balances'.keys).map textLen ∧
        (sortedList executedEvents).map textLen = (sortedList executedEvents').map textLen ∧
        nextNonces.keys = nextNonces'.keys := by
  obtain ⟨_, hstate, _⟩ := fromSnapshotWithEvents_eq_ok hc
  obtain ⟨_, hstate', _⟩ := fromSnapshotWithEvents_eq_ok hd
  obtain ⟨rfl, rfl, rfl⟩ := LedgerState.mk.inj hstate
  obtain ⟨rfl, rfl, rfl⟩ := LedgerState.mk.inj hstate'
  have hbytes : c.stateBytes = d.stateBytes := hcollision.eq_of_hex (.inl rfl) (.inr rfl) hhash
  constructor
  · rintro ⟨hbalances, hnonces, hevents⟩
    rw [hbalances, hnonces, hevents]
    exact ⟨rfl, rfl, rfl⟩
  · rintro ⟨haddresses, hevents, hkeys⟩
    exact SameShape.state_eq ⟨haddresses, hevents, hkeys⟩ hnonces hbytes

end Blockchain

end

namespace Blockchain

section
attribute [local instance] Devnet.primitives

/-- A digest for snapshots to stand at. -/
def snapshotHash : String := hexEncode (List.replicate 32 0)

/-- A chain made from a snapshot with nothing but balances. -/
lemma fromSnapshot_balances (height : UInt64) (balances : Balances) :
    ∃ c, fromSnapshotWithEvents 1 "" height snapshotHash balances ∅ ∅ = .ok c ∧
      c.state = ⟨balances, ∅, ∅⟩ := by
  obtain ⟨anchor, _, _, _, hc⟩ := fromSnapshotWithEvents_of_hex
    (trimStart0x_hexEncode (List.replicate 32 0)) (textLen_hexEncode _) 1 "" height balances ∅ ∅
  exact ⟨_, hc, rfl⟩

/-- The bytes under the root of such a chain. -/
lemma stateBytes_balances {c : Blockchain} {balances : Balances}
    (hc : c.state = ⟨balances, ∅, ∅⟩) :
    c.stateBytes = (sortedList balances.keys).flatMap fun address =>
      textBytes address ++ beBytes 16 (balanceIn balances address).toNat ++
        beBytes 8 0 := by
  obtain ⟨hbalances, hnonces, hevents⟩ := LedgerState.mk.inj hc
  simp only [stateBytes, balanceOf, nextNonce, hbalances, hnonces, hevents]
  rw [show sortedList (∅ : Finset String) = [] from rfl, List.flatMap_nil, List.append_nil]
  rfl

/-- Equal byte strings are no collision. -/
lemma collisionFree_of_eq {x y : Bytes} (h : x = y) :
    CollisionFree fun bytes => bytes = x ∨ bytes = y := by
  intro a b ha hb _
  rw [h, or_self] at ha hb
  rw [ha, hb]

/-- Two snapshots of one account, taken at different heights, have one root. -/
theorem stateHash_commits_account :
    ∃ c d, fromSnapshotWithEvents 1 "" 7 snapshotHash (HashMap.ofList [("a", 5)]) ∅ ∅ = .ok c ∧
      fromSnapshotWithEvents 1 "" 9 snapshotHash (HashMap.ofList [("a", 5)]) ∅ ∅ = .ok d ∧
      c.stateHash = d.stateHash ∧ c.balances = d.balances := by
  obtain ⟨c, hc, hstate⟩ := fromSnapshot_balances 7 (HashMap.ofList [("a", 5)])
  obtain ⟨d, hd, hstate'⟩ := fromSnapshot_balances 9 (HashMap.ofList [("a", 5)])
  have hbytes : c.stateBytes = d.stateBytes := by
    rw [stateBytes_balances hstate, stateBytes_balances hstate']
  have hhash : c.stateHash = d.stateHash := by rw [stateHash, stateHash, hbytes]
  have hiff := stateHash_commits _ _ _ _ _ _ _ _ _ _ _ _ _ _ c d hc hd (Finset.empty_subset _)
    (Finset.empty_subset _) (collisionFree_of_eq hbytes) hhash
  exact ⟨c, d, hc, hd, hhash, (hiff.mpr ⟨rfl, rfl, rfl⟩).1⟩

/-- An address that ends like an account without coins and goes on like the next account. -/
def mergedAddress : String := "a" ++ String.ofList (List.replicate 24 (Char.ofNat 0)) ++ "b"

/-- Two accounts, one of them without coins, have the root of one account with a longer
address. -/
theorem stateHash_merges_accounts :
    ∃ c d, fromSnapshotWithEvents 1 "" 7 snapshotHash (HashMap.ofList [("a", 0), ("b", 5)]) ∅ ∅
        = .ok c ∧
      fromSnapshotWithEvents 1 "" 7 snapshotHash (HashMap.ofList [(mergedAddress, 5)]) ∅ ∅ = .ok d ∧
      CollisionFree (fun bytes => bytes = c.stateBytes ∨ bytes = d.stateBytes) ∧
      c.stateHash = d.stateHash ∧ c.balances ≠ d.balances := by
  obtain ⟨c, hc, hstate⟩ := fromSnapshot_balances 7 (HashMap.ofList [("a", 0), ("b", 5)])
  obtain ⟨d, hd, hstate'⟩ := fromSnapshot_balances 7 (HashMap.ofList [(mergedAddress, 5)])
  have hkeys : sortedList (HashMap.ofList [("a", (0 : U128)), ("b", 5)]).keys = ["a", "b"] := by
    refine sortedList_of_sorted (by decide) fun a => ?_
    simp only [HashMap.ofList, List.foldl_cons, List.foldl_nil, Finmap.mem_keys,
      Finmap.mem_insert, Finmap.notMem_empty, or_false, List.mem_cons, List.not_mem_nil]
    exact or_comm
  have hkeys' : sortedList (HashMap.ofList [(mergedAddress, (5 : U128))]).keys
      = [mergedAddress] := by
    refine sortedList_of_sorted (List.pairwise_singleton _ _) fun a => ?_
    simp only [HashMap.ofList, List.foldl_cons, List.foldl_nil, Finmap.mem_keys,
      Finmap.mem_insert, Finmap.notMem_empty, or_false, List.mem_singleton]
  have hmerged : textBytes mergedAddress
      = textBytes "a" ++ (beBytes 16 0 ++ beBytes 8 0) ++ textBytes "b" := by
    rw [mergedAddress, textBytes_append, textBytes_append, textBytes_ofList]
    rfl
  have hbytes : c.stateBytes = d.stateBytes := by
    rw [stateBytes_balances hstate, stateBytes_balances hstate', hkeys, hkeys']
    simp only [List.flatMap_cons, List.flatMap_nil, hmerged, List.append_nil, List.append_assoc]
    rfl
  refine ⟨c, d, hc, hd, collisionFree_of_eq hbytes, by rw [stateHash, stateHash, hbytes],
    fun hsame => ?_⟩
  obtain ⟨hbalances, _, _⟩ := LedgerState.mk.inj hstate
  obtain ⟨hbalances', _, _⟩ := LedgerState.mk.inj hstate'
  rw [hbalances, hbalances'] at hsame
  have hlength := congrArg (fun m : Balances => (sortedList m.keys).length) hsame
  simp only [hkeys, hkeys'] at hlength
  exact absurd hlength (by decide)

end

end Blockchain

end IeumChain
