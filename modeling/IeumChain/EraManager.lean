import IeumChain.Consensus
import IeumChain.Lib.SortedEntries

/-!
# Changes of the validator set (`consensus_era.rs`)

A new validator set is scheduled for the start of an era and takes effect when a block of that height
is applied. The pending updates are an ordered map by activation height.
-/

namespace IeumChain

open Lib

structure EraConfig where
  eraLength : UInt64
  activationDelay : UInt64
deriving DecidableEq

structure ValidatorSetUpdate where
  requestedHeight : UInt64
  activationHeight : ℕ
  validators : List Validator
deriving DecidableEq

/-- The lengths are those that `new` accepts. -/
structure EraManager where
  config : EraConfig
  active : List Validator
  pending : HashMap ℕ ValidatorSetUpdate
  config_pos : config.eraLength ≠ 0 ∧ config.activationDelay ≠ 0

namespace EraManager

/-- The loop of `validate_set`: does some validator have no power or an id that was there? -/
def anyRefused : List Validator → Finset String → Bool
  | [], _ => false
  | v :: validators, ids =>
    v.votingPower = 0 || decide (v.id ∈ ids) || anyRefused validators (insert v.id ids)

/-- `validate_set`. -/
def validateSet (validators : List Validator) : Result Unit := do
  ensure (4 ≤ validators.length) "BFT 검증자 세트는 최소 4개여야 합니다."
  ensure (anyRefused validators ∅ = false)
    "검증자 ID는 고유해야 하고 투표권은 1 이상이어야 합니다."

/-- `EraManager::new`. -/
def new (config : EraConfig) (validators : List Validator) : Result EraManager := do
  validateSet validators
  if h : config.eraLength ≠ 0 ∧ config.activationDelay ≠ 0 then
    return { config, active := validators, pending := ∅, config_pos := h }
  else .error "era 길이와 활성화 지연은 1 이상이어야 합니다."

/-- `schedule`. -/
def schedule (m : EraManager) (requestedHeight : UInt64) (validators : List Validator) :
    Result (ℕ × EraManager) := do
  validateSet validators
  let earliest := requestedHeight.toNat + m.config.activationDelay.toNat
  ensure (earliest < 2 ^ 64) "검증자 세트 활성화 높이가 범위를 넘었습니다."
  let length := m.config.eraLength.toNat
  let eras := earliest / length + if earliest % length = 0 then 0 else 1
  let activation := saturatingMul eras length
  return (activation, { m with
    pending := m.pending.insert activation
      { requestedHeight, activationHeight := activation, validators } })

/-- `apply_height`. -/
def applyHeight (m : EraManager) (height : UInt64) : Option ValidatorSetUpdate × EraManager :=
  match (sortedList m.pending.keys).find? fun item => item ≤ height.toNat with
  | none => (none, m)
  | some activation =>
    match m.pending.lookup activation with
    | none => (none, m)
    | some update =>
      (some update, { m with
        active := update.validators
        pending := m.pending.erase activation })

/-! ## Calls -/

inductive EraCall where
  | schedule (requestedHeight : UInt64) (validators : List Validator)
  | applyHeight (height : UInt64)

/-- The manager and the updates scheduled so far, each with its activation height. -/
structure EraState where
  manager : EraManager
  scheduled : List (ℕ × List Validator)

namespace EraState

/-- The state after a call. A refused update is not scheduled. -/
def call (s : EraState) : EraCall → EraState
  | .schedule requestedHeight validators =>
    match s.manager.schedule requestedHeight validators with
    | .ok (activation, manager) =>
      { manager, scheduled := s.scheduled ++ [(activation, validators)] }
    | .error _ => s
  | .applyHeight height => { s with manager := (s.manager.applyHeight height).2 }

/-- The state after a sequence of calls. -/
def run (s : EraState) (calls : List EraCall) : EraState := calls.foldl call s

end EraState

/-- An update is in force at a height: the last one scheduled for the greatest activation height up to
it. -/
structure InForce (scheduled : List (ℕ × List Validator)) (height : ℕ)
    (update : ℕ × List Validator) : Prop where
  started : update.1 ≤ height
  last : (scheduled.filter fun u => u.1 = update.1).getLast? = some update
  greatest : ∀ u ∈ scheduled, u.1 ≤ height → u.1 ≤ update.1

/-- The active set is the one in force, or the initial one if there is none. -/
def Follows (initial : List Validator) (scheduled : List (ℕ × List Validator)) (height : ℕ)
    (active : List Validator) : Prop :=
  (∃ update, InForce scheduled height update ∧ active = update.2) ∨
    ((∀ u ∈ scheduled, height < u.1) ∧ active = initial)

/-- A pending update that is due at a height is the newest of the updates up to it: no other one is
due, and none with a greater activation height took effect before. -/
def OneDue (s : EraState) (height : ℕ) : Prop :=
  ∀ a, a ∈ s.manager.pending → a ≤ height → ∀ u ∈ s.scheduled, u.1 ≤ height → u.1 ≤ a

/-- The heights of the calls of `apply_height`. -/
def heights (calls : List EraCall) : List ℕ :=
  calls.filterMap fun call => match call with
    | .applyHeight height => some height.toNat
    | .schedule _ _ => none

end EraManager

end IeumChain
