import Flowgraph.Names
import Flowgraph.Code.Arithmetic

/-!
# Expressions

An expression reads temporaries and memory and has no effect. Operands are evaluated from left to
right, and the first failure is that of the whole.
-/

namespace Flowgraph

/-- Expression trees. -/
inductive Expr where
  | const (value : Word)
  | temp (name : String)
  | binary (op : BinaryOp) (left right : Expr)
  | mem (address : Expr)
  | symbol (name : String)
  deriving DecidableEq, Inhabited

namespace Expr

/-- The name of an expression that is a bare temporary. -/
def asTemp? : Expr → Option String
  | temp name => some name
  | _ => none

/-- The temporaries that an expression reads. -/
def freeVars : Expr → NameSet
  | const _ => ∅
  | temp name => {name}
  | binary _ left right => left.freeVars ∪ right.freeVars
  | mem address => address.freeVars
  | symbol _ => ∅

/-- The name that a renaming gives to a temporary. Names outside the renaming stay. -/
def renamed (names : NameMap String) (name : String) : String :=
  names.getD name name

/-- Rename all temporaries of an expression at once. -/
def replaceTemps (names : NameMap String) : Expr → Expr
  | const value => const value
  | temp name => temp (renamed names name)
  | binary op left right => binary op (left.replaceTemps names) (right.replaceTemps names)
  | mem address => mem (address.replaceTemps names)
  | symbol name => symbol name

/-- Program text of an expression. -/
def render : Expr → String
  | const value => toString value.toInt
  | temp name => name
  | binary op left right => "(" ++ left.render ++ " " ++ op.symbol ++ " " ++ right.render ++ ")"
  | mem address => "MEM[" ++ address.render ++ "]"
  | symbol name => "@" ++ name

/-- The reasons for which an expression has no value. -/
inductive Failure where
  | divisionByZero
  | symbolAsValue (name : String)
  deriving DecidableEq

/-- The value of an expression when temporaries and memory read as given. -/
def eval (temps : String → Word) (memory : Word → Word) : Expr → Except Failure Word
  | const value => .ok value
  | temp name => .ok (temps name)
  | binary op left right =>
    match left.eval temps memory with
    | .error failure => .error failure
    | .ok l =>
      match right.eval temps memory with
      | .error failure => .error failure
      | .ok r =>
        match op.apply l r with
        | none => .error .divisionByZero
        | some value => .ok value
  | mem address =>
    match address.eval temps memory with
    | .error failure => .error failure
    | .ok place => .ok (memory place)
  | symbol name => .error (.symbolAsValue name)

/-- The values of a list of expressions, from left to right. -/
def evalAll (temps : String → Word) (memory : Word → Word) :
    List Expr → Except Failure (List Word)
  | [] => .ok []
  | expr :: rest =>
    match expr.eval temps memory with
    | .error failure => .error failure
    | .ok value =>
      match evalAll temps memory rest with
      | .error failure => .error failure
      | .ok values => .ok (value :: values)

end Expr

end Flowgraph
