import Flowgraph.Node.Effects

/-!
# Versions of variables

Each variable has a counter and a stack of versions, the top of which is the version that a use
refers to. Version zero is the value at entry. A version is written as the variable, an underscore
and the number.
-/

namespace Flowgraph

/-- The counter and the stack of each variable, with the top of the stack first. -/
structure Versions where
  counters : NameMap Nat := ∅
  live : NameMap (List Nat) := ∅

namespace Versions

/-- The name of a version of a variable. -/
def versionName (var : String) (version : Nat) : String :=
  var ++ "_" ++ toString version

/-- The versions of some variables at entry. -/
def ofVars (vars : List String) : Versions :=
  ⟨.ofList (vars.map (·, 0)), .ofList (vars.map (·, [0]))⟩

/-- The name of the version that a use of a variable refers to. Other names have none. -/
def current? (versions : Versions) (var : String) : Option String :=
  match versions.live[var]? with
  | some (version :: _) => some (versionName var version)
  | _ => none

/-- The name to use for a variable, which is its own name if it has no versions. -/
def current (versions : Versions) (var : String) : String :=
  (versions.current? var).getD var

/-- The renaming of some temporaries to their current versions. -/
def renamer (versions : Versions) (uses : NameSet) : NameMap String :=
  .ofList (uses.toList.filterMap fun var => (versions.current? var).map (var, ·))

/-- Make a new version of a variable the current one. -/
def push (versions : Versions) (var : String) (version : Nat) : Versions :=
  ⟨versions.counters.insert var version,
    versions.live.insert var (version :: versions.live.getD var [])⟩

/-- Go back to the version that was current before the last one of a variable. -/
def pop (versions : Versions) (var : String) : Versions :=
  match versions.live[var]? with
  | some stack => { versions with live := versions.live.insert var stack.tail }
  | none => versions

end Versions

/-- The versions at a point inside a node, and the variables that the node has defined so far, the
last one first. -/
structure Scope where
  versions : Versions
  defined : List String := []

namespace Scope

/-- Define a variable. The answer holds the name of the new version, or the same name for a
temporary that has no versions. -/
def define (scope : Scope) (var : String) : Scope × String :=
  match scope.versions.counters[var]? with
  | none => (scope, var)
  | some counter =>
    (⟨scope.versions.push var (counter + 1), var :: scope.defined⟩,
      Versions.versionName var (counter + 1))

/-- Define several variables from left to right. -/
def defineAll (scope : Scope) : List String → Scope × List String
  | [] => (scope, [])
  | var :: rest =>
    let (defined, name) := scope.define var
    let (final, names) := defined.defineAll rest
    (final, name :: names)

/-- Give the targets of a phi block new versions, in the order given. -/
def defineTargets (scope : Scope) (phi : Phi) : List String → Scope × Phi
  | [] => (scope, phi)
  | target :: rest =>
    let (defined, name) := scope.define target
    defined.defineTargets (phi.renameTarget target name) rest

mutual

/-- Rename the uses and the definitions in a node. -/
def renameNode (scope : Scope) (node : Node) : Scope × Node :=
  match node with
  | .assign target value span =>
    let renamed := value.replaceTemps (scope.versions.renamer (Node.valueUses value))
    if Slot.isResult target then
      (scope, .assign target renamed span)
    else
      let (defined, name) := scope.define target
      (defined, .assign name renamed span)
  | .store address value span =>
    let names := scope.versions.renamer (address.freeVars ∪ value.freeVars)
    (scope, .store (address.replaceTemps names) (value.replaceTemps names) span)
  | .call collectors callee args span =>
    let names := scope.versions.renamer (NameSet.unions (args.map Expr.freeVars))
    let (defined, renamed) := scope.defineAll collectors
    (defined, .call renamed callee (args.map (Expr.replaceTemps names)) span)
  | .branch cond span =>
    (scope, .branch (cond.replaceTemps (scope.versions.renamer cond.freeVars)) span)
  | .block children span =>
    let (defined, renamed) := scope.renameNodes children
    (defined, .block renamed span)
  | .phi phi span =>
    let (defined, renamed) := scope.defineTargets phi phi.targets
    (defined, .phi renamed span)
  | .start span => (scope, .start span)
  | .ret span => (scope, .ret span)
  | .spin span => (scope, .spin span)
  | .stub span => (scope, .stub span)

/-- Rename the uses and the definitions in several nodes in a row. -/
def renameNodes (scope : Scope) (nodes : List Node) : Scope × List Node :=
  match nodes with
  | [] => (scope, [])
  | node :: rest =>
    let (defined, renamed) := scope.renameNode node
    let (final, others) := defined.renameNodes rest
    (final, renamed :: others)

end

end Scope

end Flowgraph
