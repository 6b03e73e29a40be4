/-!
# Machine words and their operators

Words are signed 64-bit integers. Sums, differences and products wrap around, quotients are cut
toward zero, a shift uses its amount modulo 64, and a comparison gives `1` or `0`. Only division and
remainder by zero have no value.
-/

namespace Flowgraph

/-- A machine word. -/
abbrev Word := Int64

/-- The binary operators of expressions. -/
inductive BinaryOp where
  | add | sub | mul | div | mod
  | and | or | xor | shl | shr
  | eq | ne | lt | le | gt | ge
  deriving DecidableEq, Inhabited

namespace BinaryOp

/-- The sign that stands for an operator in program text. -/
def symbol : BinaryOp → String
  | add => "+"
  | sub => "-"
  | mul => "*"
  | div => "/"
  | mod => "%"
  | and => "&"
  | or => "|"
  | xor => "^"
  | shl => "<<"
  | shr => ">>"
  | eq => "=="
  | ne => "!="
  | lt => "<"
  | le => "<="
  | gt => ">"
  | ge => ">="

/-- All operators. -/
def all : List BinaryOp :=
  [add, sub, mul, div, mod, and, or, xor, shl, shr, eq, ne, lt, le, gt, ge]

/-- The operator with a given sign. -/
def ofSymbol? (text : String) : Option BinaryOp :=
  all.find? (·.symbol == text)

/-- The word that stands for a truth value. -/
def truth (holds : Bool) : Word :=
  if holds then 1 else 0

/-- An operation of division where its quotient is a word. It is none for a divisor of zero, and for
the least word divided by `-1`. -/
def checked (operation : Word → Word → Word) (l r : Word) : Option Word :=
  if r = 0 ∨ l = Int64.minValue ∧ r = -1 then none else some (operation l r)

/-- The value of an operator. There is none exactly for a division or remainder by zero: where a
division by `-1` has no word for its quotient, the quotient is the dividend negated and the
remainder is zero. -/
def apply (op : BinaryOp) (l r : Word) : Option Word :=
  match op with
  | add => some (l + r)
  | sub => some (l - r)
  | mul => some (l * r)
  | div => (checked (· / ·) l r).or (if r = -1 then some (-l) else none)
  | mod => (checked (· % ·) l r).or (if r = -1 then some 0 else none)
  | and => some (l &&& r)
  | or => some (l ||| r)
  | xor => some (l ^^^ r)
  | shl => some (l <<< (r &&& 63))
  | shr => some (l >>> (r &&& 63))
  | eq => some (truth (l == r))
  | ne => some (truth (l != r))
  | lt => some (truth (decide (l < r)))
  | le => some (truth (decide (l ≤ r)))
  | gt => some (truth (decide (r < l)))
  | ge => some (truth (decide (r ≤ l)))

end BinaryOp

end Flowgraph
