import Tenure.Ir.Func

/-!
# Programs

A compilation unit: its functions in the order of their definition, the foreign functions it may
call, and the names of all declared functions.
-/

namespace Tenure

/-- The declared passing conventions of a foreign function. -/
structure Foreign where
  name : String
  /-- One entry for each parameter; without a keyword the configured default holds. -/
  params : List (Option Keyword)
deriving DecidableEq, Inhabited

/-- A compilation unit. -/
structure Program where
  file : String
  /-- The defined functions, each id once. -/
  functions : List Func
  /-- The foreign functions, each name once. -/
  foreigns : List Foreign
  /-- The names of the declared functions, defined or not. -/
  names : List (FuncId × String)
  /-- An id above all declared ones. -/
  nextId : FuncId
deriving DecidableEq, Inhabited

/-- Put a value into a table: over the entry with the same key, or at the end. -/
def upsert {α β : Type} [DecidableEq β] (key : α → β) (value : α) : List α → List α
  | [] => [value]
  | x :: rest => if key x = key value then value :: rest else x :: upsert key value rest

namespace Program

/-- A program without functions. -/
def empty (file : String) : Program := ⟨file, [], [], [], 0⟩

/-- The defined function with this id. -/
def function? (p : Program) (id : FuncId) : Option Func := p.functions.find? fun f => f.id = id

/-- Whether a function with this id is defined. -/
def defines (p : Program) (id : FuncId) : Bool := p.functions.any fun f => f.id = id

/-- The first defined function with this name. -/
def functionByName? (p : Program) (name : String) : Option Func :=
  p.functions.find? fun f => f.name = name

/-- The name of a declared function. -/
def name? (p : Program) (id : FuncId) : Option String :=
  (p.names.find? fun entry => entry.1 = id).map Prod.snd

/-- The conventions of a foreign function. -/
def foreign? (p : Program) (name : String) : Option Foreign :=
  p.foreigns.find? fun d => d.name = name

/-- Reserve an id for a function, so that calls to it can be written before its body. -/
def declare (p : Program) (name : String) : FuncId × Program :=
  (p.nextId,
   { p with names := upsert Prod.fst (p.nextId, name) p.names, nextId := p.nextId + 1 })

/-- Install a body. A second body for an id takes the place of the first. -/
def define (p : Program) (f : Func) : Program :=
  { p with
    functions := upsert Func.id f p.functions
    names := upsert Prod.fst (f.id, f.name) p.names
    nextId := max p.nextId (f.id + 1) }

/-- Declare a foreign function. A second declaration of a name takes the place of the first. -/
def declareForeign (p : Program) (name : String) (params : List (Option Keyword)) : Program :=
  { p with foreigns := upsert Foreign.name ⟨name, params⟩ p.foreigns }

end Program

end Tenure
