import Tenure.Mode

/-!
# Configuration

The settings of an analysis run. Every setting has a default.
-/

namespace Tenure

/-- How a binding kept across a suspension resolves when the programmer wrote no keyword. -/
inductive SuspensionPolicy where
  /-- Parameters are moved into the suspended computation, locals are borrowed. -/
  | moveCallerOwned
  /-- Everything is moved. -/
  | alwaysMove
  /-- Everything is mutably borrowed. -/
  | mutableBorrow
deriving DecidableEq, Inhabited

/-- The settings of a run. -/
structure Config where
  /-- How often the signatures of a recursive unit are recomputed at most. -/
  maxSignatureIterations : Nat
  /-- Whether independent functions may be analysed at the same time. Results do not depend on
  it. -/
  parallel : Bool
  /-- The number of workers, 0 for as many as fit. Results do not depend on it. -/
  workerThreads : Nat
  suspensionPolicy : SuspensionPolicy
  /-- The mode of a foreign function's parameter without a declared keyword. -/
  defaultForeignMode : Mode
  /-- Whether the body region may free allocations in bulk. -/
  implicitFunctionRegion : Bool
  /-- The nesting depth of regions beyond which a hint is given. -/
  maxRegionDepth : Nat
  /-- Whether hints are given at all. -/
  suggestOptimizations : Bool
deriving DecidableEq, Inhabited

namespace Config

/-- The default settings. -/
def default : Config where
  maxSignatureIterations := 16
  parallel := true
  workerThreads := 0
  suspensionPolicy := .moveCallerOwned
  defaultForeignMode := .moved
  implicitFunctionRegion := true
  maxRegionDepth := 10
  suggestOptimizations := true

/-- The default settings for one worker. -/
def sequential : Config := { default with parallel := false }

end Config

end Tenure
