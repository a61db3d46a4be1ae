import Tenure.Config
import Tenure.Config.Json

/-!
# Reading settings

Settings are written as a JSON object. Settings that are not written keep their defaults, unknown
ones are passed over, and no known one may be written twice. An array gives the settings in their
order.
-/

namespace Tenure

/-- A natural number of at most 64 bits. -/
def Json.natural64? : Json → Option Nat
  | number (some n) => if n < Nat.pow 2 64 then some n else none
  | _ => none

/-- A truth value. -/
def Json.bool? : Json → Option Bool
  | bool value => some value
  | _ => none

/-- One of some names: a string, or an object with the name as its only key and `null` under it. -/
def Json.variant? : Json → Option String
  | string value => value
  | object [(key, null)] => key
  | _ => none

/-- How settings name a policy. -/
def SuspensionPolicy.name : SuspensionPolicy → String
  | moveCallerOwned => "move_caller_owned"
  | alwaysMove => "always_move"
  | mutableBorrow => "mutable_borrow"

/-- The policy with a name. -/
def SuspensionPolicy.ofName? (name : String) : Option SuspensionPolicy :=
  [moveCallerOwned, alwaysMove, mutableBorrow].find? fun policy => policy.name = name

/-- How settings name a mode. -/
def Mode.name : Mode → String
  | unused => "unused"
  | immutableBorrow => "immutable_borrow"
  | mutableBorrow => "mutable_borrow"
  | moved => "moved"

/-- The mode with a name. -/
def Mode.ofName? (name : String) : Option Mode :=
  [unused, immutableBorrow, mutableBorrow, moved].find? fun mode => mode.name = name

namespace Config

/-- A setting: its name and how it is written into a configuration. -/
structure Setting where
  name : String
  write : Config → Json → Option Config

/-- All settings in their order. -/
def settings : List Setting :=
  [⟨"max_signature_iterations", fun c v =>
      v.natural64?.map fun n => { c with maxSignatureIterations := n }⟩,
   ⟨"parallel", fun c v => v.bool?.map fun b => { c with parallel := b }⟩,
   ⟨"worker_threads", fun c v => v.natural64?.map fun n => { c with workerThreads := n }⟩,
   ⟨"suspension_policy", fun c v =>
      (v.variant?.bind SuspensionPolicy.ofName?).map fun s => { c with suspensionPolicy := s }⟩,
   ⟨"default_extern_mode", fun c v =>
      (v.variant?.bind Mode.ofName?).map fun m => { c with defaultForeignMode := m }⟩,
   ⟨"implicit_function_region", fun c v =>
      v.bool?.map fun b => { c with implicitFunctionRegion := b }⟩,
   ⟨"max_region_depth", fun c v => v.natural64?.map fun n => { c with maxRegionDepth := n }⟩,
   ⟨"suggest_optimizations", fun c v => v.bool?.map fun b => { c with suggestOptimizations := b }⟩]

/-- Write object members into a configuration, where `written` are the settings written before. -/
def writeMembers? : List String → List (Option String × Json) → Config → Option Config
  | _, [], c => some c
  | _, (none, _) :: _, _ => none
  | written, (some key, value) :: rest, c =>
    match settings.find? fun s => s.name = key with
    | none => writeMembers? written rest c
    | some setting =>
      if written.contains key then none
      else (setting.write c value).bind (writeMembers? (key :: written) rest)

/-- Write array elements into a configuration in the order of the settings. -/
def writeElements? : List Setting → List Json → Config → Option Config
  | _, [], c => some c
  | [], _ :: _, _ => none
  | setting :: settings, value :: rest, c =>
    (setting.write c value).bind (writeElements? settings rest)

/-- The configuration that a text denotes. -/
def ofText? (text : String) : Option Config :=
  match Json.ofText? text with
  | some (.object members) => writeMembers? [] members default
  | some (.array elements) => writeElements? settings elements default
  | _ => none

end Config

end Tenure
