/-!
# Ownership modes

The privilege a use needs and a binding grants, ordered
`unused ⊑ immutableBorrow ⊑ mutableBorrow ⊑ moved`. What several uses or several paths say about
one binding is merged by the least upper bound.

Explicit keywords in the source text pin a binding or a use to one mode.
-/

namespace Tenure

/-- An ownership keyword written by the programmer, on a declaration or on a single use. -/
inductive Keyword where
  | move
  | borrow
  | mutable
  | inout
deriving DecidableEq, Inhabited

/-- The keyword as it is written. -/
def Keyword.text : Keyword → String
  | .move => "move"
  | .borrow => "borrow"
  | .mutable => "mut"
  | .inout => "inout"

/-- An optional keyword as messages name it. -/
def Keyword.textOrNone : Option Keyword → String
  | some keyword => keyword.text
  | none => "none"

/-- Access privilege, from never accessed to consumed. -/
inductive Mode where
  | unused
  | immutableBorrow
  | mutableBorrow
  | moved
deriving DecidableEq, Inhabited

namespace Mode

/-- Position in the order of privilege. -/
def rank : Mode → Nat
  | unused => 0
  | immutableBorrow => 1
  | mutableBorrow => 2
  | moved => 3

/-- `a.within b` says that `b` grants all that `a` needs. -/
def within (a b : Mode) : Bool := a.rank ≤ b.rank

/-- The least mode that grants what both need. -/
def lub (a b : Mode) : Mode := if a.within b then b else a

/-- The greatest mode that both grant. -/
def glb (a b : Mode) : Mode := if a.within b then a else b

/-- The least upper bound of a list of modes, `unused` for none. -/
def lubAll (modes : List Mode) : Mode := modes.foldl lub unused

/-- A mode that excludes every other access at the same time. -/
def isExclusive : Mode → Bool
  | mutableBorrow | moved => true
  | _ => false

/-- A mode that leaves the value with its owner. -/
def isBorrow : Mode → Bool
  | immutableBorrow | mutableBorrow => true
  | _ => false

/-- The mode a keyword stands for. -/
def ofKeyword : Keyword → Mode
  | .move => moved
  | .borrow => immutableBorrow
  | .mutable | .inout => mutableBorrow

/-- The keyword that asks for this mode. -/
def keyword? : Mode → Option String
  | unused => none
  | immutableBorrow => some "borrow"
  | mutableBorrow => some "mut"
  | moved => some "move"

/-- The mode as messages name it. -/
def text : Mode → String
  | unused => "unused"
  | immutableBorrow => "immutable borrow"
  | mutableBorrow => "mutable borrow"
  | moved => "move"

end Mode

end Tenure
