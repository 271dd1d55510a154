import IeumChain.AddressTheorems

/-!
# The supply a genesis file allocates

`from_genesis` normalises the addresses of the initial balances and collects the entries into a
map. Of entries whose addresses normalise to one text the last one stays, and the amounts of the
others are in no account. The check of the configuration does not look at the balances.
-/

namespace IeumChain

open Lib

/-- No entry with an amount is followed by one for the same normalised address. -/
def GenesisConfig.AllocatesOnce (g : GenesisConfig) : Prop :=
  g.initialBalances.Pairwise fun a b => normalizeAddress a.1 = normalizeAddress b.1 → a.2 = 0

/-- The sum of the amounts in the file. -/
def GenesisConfig.allocated (g : GenesisConfig) : ℕ :=
  (g.initialBalances.map fun entry => entry.2.toNat).sum

/-- The map of the normalised entries has the sum of the file exactly when nothing is replaced. -/
lemma supply_normalized_iff (g : GenesisConfig) :
    supply (HashMap.ofList (g.initialBalances.map fun entry => (normalizeAddress entry.1, entry.2)))
      = g.allocated ↔ g.AllocatesOnce := by
  have hsum := HashMap.total_ofList_eq_iff BitVec.toNat
    (g.initialBalances.map fun entry => (normalizeAddress entry.1, entry.2))
  rw [List.map_map] at hsum
  rw [supply, GenesisConfig.allocated]
  refine hsum.trans ?_
  rw [HashMap.ReplacesNothing, List.pairwise_map, GenesisConfig.AllocatesOnce]
  have hzero : ∀ amount : U128, amount.toNat = 0 ↔ amount = 0 := fun amount => by
    rw [← BitVec.toNat_inj]
    rfl
  simp only [hzero]

section
variable [Primitives]

/-- **The genesis supply is what the file says, if no address is named twice.** A valid
configuration gives a ledger, and its balances sum to the amounts of the file exactly when no
entry with an amount is followed by one whose address normalises to the same text. -/
theorem Blockchain.genesis_supply_iff (genesis : GenesisConfig)
    (hvalid : genesis.validate = .ok ()) :
    ∃ c, fromGenesis genesis = .ok c ∧
      (supply c.balances = genesis.allocated ↔ genesis.AllocatesOnce) :=
  ⟨_, fromGenesis_eq_ok.mpr ⟨hvalid, rfl⟩, supply_normalized_iff genesis⟩

end

namespace Checksum
attribute [local instance] primitives

/-- The same address in two spellings, the first time without an amount, among other entries. -/
def funded : GenesisConfig :=
  { genesis with
    initialBalances := [("treasury", 1000), (receiver, 0), ("faucet", 30), (normalReceiver, 7)] }

/-- All the amounts are in the ledger. -/
theorem genesis_supply_iff_funded : funded.validate = .ok () ∧
    ∃ c, Blockchain.fromGenesis funded = .ok c ∧ supply c.balances = 1037 := by
  have hvalid : funded.validate = .ok () := genesis_valid
  obtain ⟨c, hc, hiff⟩ := Blockchain.genesis_supply_iff funded hvalid
  -- the entry that is replaced has no amount
  have honce : funded.AllocatesOnce := by
    refine List.pairwise_cons.mpr ⟨by decide, List.pairwise_cons.mpr ⟨fun _ _ _ => rfl, ?_⟩⟩
    exact List.pairwise_pair.mpr (by decide)
  exact ⟨hvalid, c, hc, hiff.mpr honce⟩

/-- The same address in two spellings, with an amount each. -/
def spelledTwice : GenesisConfig :=
  { genesis with initialBalances := [(receiver, 5), (normalReceiver, 7)] }

/-- The first of the two amounts is lost. -/
theorem allocation_lost : spelledTwice.validate = .ok () ∧
    ∃ c, Blockchain.fromGenesis spelledTwice = .ok c ∧ supply c.balances ≠ spelledTwice.allocated := by
  have hvalid : spelledTwice.validate = .ok () := genesis_valid
  refine ⟨hvalid, _, Blockchain.fromGenesis_eq_ok.mpr ⟨hvalid, rfl⟩, fun heq => ?_⟩
  have honce := (supply_normalized_iff spelledTwice).mp heq
  have hnormal : IsNormal (normalizeAddress receiver) := isNormal_of_validateAddress (by decide)
  have hfirst := (List.pairwise_cons.mp honce).1 _ (List.mem_singleton_self _) hnormal.symm
  exact absurd hfirst (by decide)

end Checksum

end IeumChain
