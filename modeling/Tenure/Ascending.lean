/-!
# Ascending order

Finite sets of ids as strictly ascending lists, the search for a number in an ascending list, and
the order of keys made of several numbers.
-/

namespace Tenure

/-- Put a number into a strictly ascending list. -/
def insertAscending (n : Nat) : List Nat → List Nat
  | [] => [n]
  | m :: rest =>
    if n < m then n :: m :: rest
    else if n = m then m :: rest
    else m :: insertAscending n rest

/-- The members of a list in ascending order, each once. -/
def ascending (ns : List Nat) : List Nat := ns.foldr insertAscending []

/-! ## Search by halves -/

/-- What the search for a number ends with. -/
inductive SearchResult where
  /-- The number stands at this position. -/
  | found (i : Nat)
  /-- The number is not there and would have to stand at this position. -/
  | missing (i : Nat)
deriving DecidableEq, Inhabited

/-- Halve a part of `size` numbers from position `base` until one number is left, and give its
position. A part whose upper half begins with a number up to `n` is left for that half. -/
def halve (ns : List Nat) (n base size : Nat) : Nat :=
  if size ≤ 1 then base
  else
    let middle := base + size / 2
    halve ns n (if ns[middle]?.any (n < ·) then base else middle) (size - size / 2)
termination_by size

/-- Search for a number in an ascending list: the place is narrowed down to one position, and the
number there is compared. -/
def searchAscending (ns : List Nat) (n : Nat) : SearchResult :=
  let base := halve ns n 0 ns.length
  match ns[base]? with
  | none => .missing 0
  | some m =>
    if m = n then .found base
    else if m < n then .missing (base + 1)
    else .missing base

/-! ## Keys -/

/-- Whether a key stands before another one or is equal to it: the first difference decides, and a
key stands before its continuations. -/
def keyBefore : List Nat → List Nat → Bool
  | [], _ => true
  | _ :: _, [] => false
  | a :: as, b :: bs => a < b || (a = b && keyBefore as bs)

end Tenure
