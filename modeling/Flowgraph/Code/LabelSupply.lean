import Flowgraph.Code.Unit

/-!
# A supply of fresh labels

Minted labels are numbered. The supply of a unit starts above every number that one of the unit's
labels carries. Numbers fit 32 bits, and the largest of them is never handed out.
-/

namespace Flowgraph

/-- A supply of labels, given by the number of the next one. -/
structure LabelSupply where
  next : Nat := 0
  deriving DecidableEq, Inhabited

namespace LabelSupply

/-- The number at which a supply is exhausted. -/
def limit : Nat := 4294967295

/-- The minted label with a given number. -/
def label (number : Nat) : String :=
  "_l" ++ toString number

/-- The value of a string of decimal digits. -/
def decimal (digits : List Char) : Nat :=
  digits.foldl (fun value digit => 10 * value + (digit.toNat - '0'.toNat)) 0

/-- Read a number of at most 32 bits: decimal digits, possibly after one plus sign. -/
def number? (text : List Char) : Option Nat :=
  let digits :=
    match text with
    | '+' :: rest => rest
    | _ => text
  if !digits.isEmpty && digits.all Char.isDigit && decimal digits ≤ limit then
    some (decimal digits)
  else
    none

/-- The number that a label carries if it is written like a minted one. -/
def numberOf? (name : String) : Option Nat :=
  match name.toList with
  | '_' :: 'l' :: rest => number? rest
  | _ => none

/-- Move a supply past the number of a label. -/
def avoid (supply : LabelSupply) (name : String) : LabelSupply :=
  match numberOf? name with
  | some number => ⟨max supply.next (min (number + 1) limit)⟩
  | none => supply

/-- The supply that starts above all labels of a list. -/
def avoiding (names : List String) : LabelSupply :=
  names.foldl avoid {}

/-- The supply that starts above all labels of a unit. -/
def ofUnit (unit : CodeUnit) : LabelSupply :=
  avoiding (unit.functionList.flatMap (·.body.labels))

/-- Mint a label, unless the supply is exhausted. -/
def fresh? (supply : LabelSupply) : Option (String × LabelSupply) :=
  if supply.next < limit then some (label supply.next, ⟨supply.next + 1⟩) else none

/-- Mint a number of labels one after another, unless the supply is exhausted on the way. The answer
lists them in order and holds the supply that is left. -/
def draw? : Nat → LabelSupply → Option (List String × LabelSupply)
  | 0, supply => some ([], supply)
  | count + 1, supply =>
    match supply.fresh? with
    | none => none
    | some (label, remaining) =>
      (draw? count remaining).map fun drawn => (label :: drawn.1, drawn.2)

end LabelSupply

end Flowgraph
