import IeumChain.Primitives
import IeumChain.Lib.Result
import IeumChain.Lib.SortedEntries
import IeumChain.Lib.Text

/-!
# Application modules (`modules.rs`)

The modules share one state map. A module writes with `put`, which sets the key behind a prefix and
admits no separator in it; the router holds the modules by name; a migration takes the state of a
module from one version to a later one.
-/

namespace IeumChain

open Lib

structure ModuleContext where
  chainId : UInt64
  height : UInt64
  state : HashMap String Bytes
  events : List String

namespace ModuleContext

/-- The bytes `put` admits in a key: ASCII letters and digits and `b"-_:."`. -/
def isKeyByte (b : UInt8) : Bool := isAsciiAlphanumeric b || [45, 95, 58, 46].contains b

/-- `put`. -/
def put (context : ModuleContext) (pre key : String) (value : Bytes) : Result ModuleContext := do
  ensure ((textBytes key).all isKeyByte = true) "모듈 상태 key에 허용되지 않은 문자가 있습니다."
  return { context with state := context.state.insert (pre ++ key) value }

/-- What `state_root` hashes of an entry. -/
def entryBytes (entry : String × Bytes) : Bytes :=
  pushText entry.1 ++ (beBytes 8 entry.2.length ++ entry.2)

/-- `state_root`. -/
def stateRoot [Primitives] (context : ModuleContext) : String :=
  sha256Hex ((sortedEntries context.state).flatMap entryBytes)

end ModuleContext

/-- The trait `AppModule`. `execute` changes the context also where it fails. -/
structure AppModule where
  name : String
  statePrefix : String
  validate : Bytes → ModuleContext → Result Unit
  execute : Bytes → ModuleContext → Result Unit × ModuleContext

structure ModuleRouter where
  modules : HashMap String AppModule

namespace ModuleRouter

/-- `ModuleRouter::default`. -/
def default : ModuleRouter := ⟨∅⟩

/-- `register`. -/
def register (router : ModuleRouter) (m : AppModule) : Result ModuleRouter := do
  ensure (¬ (endsWith m.statePrefix "/" = false ∨ m.name ∈ router.modules))
    "모듈 이름은 고유하고 prefix는 /로 끝나야 합니다."
  return ⟨router.modules.insert m.name m⟩

/-- `dispatch`. -/
def dispatch (router : ModuleRouter) (name : String) (payload : Bytes) (context : ModuleContext) :
    Result Unit × ModuleContext :=
  match router.modules.lookup name with
  | none => (.error "등록되지 않은 모듈입니다.", context)
  | some handler =>
    match handler.validate payload context with
    | .error e => (.error e, context)
    | .ok () => handler.execute payload context

end ModuleRouter

/-- The trait `StateMigration`. `migrate` changes the context also where it fails. -/
structure StateMigration where
  moduleName : String
  sourceVersion : UInt32
  toVersion : UInt32
  migrate : ModuleContext → Result Unit × ModuleContext

/-- The loop of `apply_migrations`, from the version it has reached, and the check after it. -/
def applyMigrations (name : String) (version target : UInt32) (migrations : List StateMigration)
    (context : ModuleContext) : Result UInt32 × ModuleContext :=
  if version < target then
    match migrations.find? fun item => item.moduleName = name ∧ item.sourceVersion = version with
    | none => (.error "연속된 상태 migration이 없습니다.", context)
    | some migration =>
      if migration.toVersion ≤ version then
        (.error "상태 migration 버전은 반드시 증가해야 합니다.", context)
      else
        match migration.migrate context with
        | (.error e, context) => (.error e, context)
        | (.ok (), context) =>
          applyMigrations name migration.toVersion target migrations context
  else if version ≠ target then (.error "상태 migration이 목표 버전을 지나쳤습니다.", context)
  else (.ok version, context)
termination_by target.toNat - version.toNat
decreasing_by
  -- the version rises, and it was below the target
  have hbelow : version.toNat < target.toNat := UInt32.lt_iff_toNat_lt.mp (by assumption)
  have hrises : ¬ migration.toVersion.toNat ≤ version.toNat := fun hle =>
    absurd (UInt32.le_iff_toNat_le.mpr hle) (by assumption)
  omega

end IeumChain
