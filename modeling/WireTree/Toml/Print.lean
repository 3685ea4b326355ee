/-
**Printing tables of numbers.**

A table is printed as its header and a line for each of its entries, in their order.  Numbers are
printed in decimal.  An integer has 64 bits with a sign, so a number of `2 ^ 63` or more cannot be
printed, and neither can a table that has one.

Main definitions:

* `WireTree.Toml.printPair`, `WireTree.Toml.printTable`.

Main results:

* `WireTree.Toml.printTable_of_le`, `WireTree.Toml.printTable_of_lt` — which tables can be printed.
-/

import WireTree.Words

set_option relaxedAutoImplicit false
set_option autoImplicit false

namespace WireTree.Toml

/-- The largest integer. -/
def maxInteger : Nat := 2 ^ 63 - 1

/-- The line that puts a number under a key. -/
def printPair (pair : String × Nat) : String := pair.1 ++ " = " ++ toString pair.2 ++ "\n"

/-- The table under a key, unless one of its numbers is too large for an integer. -/
def printTable (key : String) (pairs : List (String × Nat)) : Option String :=
  if ∀ pair ∈ pairs, pair.2 ≤ maxInteger then
    some ("[" ++ key ++ "]\n" ++ String.join (pairs.map printPair))
  else none

variable {key : String} {pairs : List (String × Nat)}

theorem printTable_of_le (h : ∀ pair ∈ pairs, pair.2 ≤ maxInteger) :
    printTable key pairs = some ("[" ++ key ++ "]\n" ++ String.join (pairs.map printPair)) :=
  if_pos h

theorem printTable_of_lt {pair : String × Nat} (hmem : pair ∈ pairs) (h : maxInteger < pair.2) :
    printTable key pairs = none :=
  if_neg fun hall => Nat.not_lt.2 (hall pair hmem) h

end WireTree.Toml
