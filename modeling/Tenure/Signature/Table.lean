import Tenure.Ir.Value
import Tenure.Signature

/-!
# The table of signatures

Every function has one slot. A slot is pending until it is finalized with a signature or abandoned,
and stays as it is from then on.
-/

namespace Tenure

/-- What is known about the signature of a function. -/
inductive Slot where
  | pending
  | final (signature : Signature)
  /-- The function will not be analysed. -/
  | abandoned
deriving DecidableEq, Inhabited

/-- A slot of the table with the name of its function. -/
structure TableEntry where
  id : FuncId
  name : String
  slot : Slot
deriving DecidableEq, Inhabited

/-- The signatures of all functions of a program, each function once. -/
structure SignatureTable where
  entries : List TableEntry
deriving DecidableEq, Inhabited

/-- A write that the table refuses. -/
inductive TableError where
  | alreadyFinalized (function : String)
  | unknownFunction (function : String)
deriving DecidableEq, Inhabited

/-- The message of a refused write. -/
def TableError.message : TableError → String
  | alreadyFinalized function => "signature of `" ++ function ++ "` finalized twice"
  | unknownFunction function => "no signature slot for `" ++ function ++ "`"

namespace SignatureTable

/-- Pending slots for some functions. A function listed twice has its last name. -/
def ofFunctions : List (FuncId × String) → SignatureTable
  | functions => ⟨functions.foldl enter []⟩
where
  /-- Add a function, or rename it. -/
  enter (entries : List TableEntry) (function : FuncId × String) : List TableEntry :=
    if entries.any fun e => e.id = function.1 then
      entries.map fun e => if e.id = function.1 then { e with name := function.2 } else e
    else entries ++ [⟨function.1, function.2, .pending⟩]

/-- The entry of a function. -/
def entry? (t : SignatureTable) (f : FuncId) : Option TableEntry :=
  t.entries.find? fun e => e.id = f

/-- The slot of a function. -/
def slot? (t : SignatureTable) (f : FuncId) : Option Slot := (t.entry? f).map TableEntry.slot

/-- Give a function's slot a new content. -/
def write (t : SignatureTable) (f : FuncId) (slot : Slot) : SignatureTable :=
  ⟨t.entries.map fun e => if e.id = f then { e with slot } else e⟩

/-- Publish a signature. Only a pending slot takes it. -/
def finalize (t : SignatureTable) (f : FuncId) (signature : Signature) :
    Except TableError SignatureTable :=
  match t.entry? f with
  | some ⟨_, _, .pending⟩ => .ok (t.write f (.final signature))
  | some ⟨_, name, _⟩ => .error (.alreadyFinalized name)
  | none => .error (.unknownFunction (FuncId.text f))

/-- Give a pending slot up. -/
def abandon (t : SignatureTable) (f : FuncId) : SignatureTable :=
  match t.slot? f with
  | some .pending => t.write f .abandoned
  | _ => t

/-- The signature, if it is published. -/
def get? (t : SignatureTable) (f : FuncId) : Option Signature :=
  match t.slot? f with
  | some (.final signature) => some signature
  | _ => none

/-- Whether a signature is published. -/
def isFinalized (t : SignatureTable) (f : FuncId) : Bool := (t.get? f).isSome

/-- Whether a reader of the signature has to wait. -/
def isPending (t : SignatureTable) (f : FuncId) : Bool := t.slot? f = some .pending

/-- What a reader that may wait gets: nothing while the slot is pending, then the signature, or
that there is none. -/
def wait (t : SignatureTable) (f : FuncId) : Option (Option Signature) :=
  if t.isPending f then none else some (t.get? f)

/-- All published signatures. -/
def snapshot (t : SignatureTable) : List (FuncId × Signature) :=
  t.entries.filterMap fun e => (t.get? e.id).map fun signature => (e.id, signature)

end SignatureTable

end Tenure
