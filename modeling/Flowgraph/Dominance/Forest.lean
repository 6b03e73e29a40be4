/-!
# A forest with path compression

Each vertex has a rank `semi`, and is a root or is linked to its ancestor. `eval` asks for a vertex
of least rank on the way up to, but not including, the root. Every vertex remembers in `best` the
answer for the way up to its recorded ancestor; `compress` lets vertices skip to a higher ancestor.
-/

namespace Flowgraph

/-- A forest over the numbers below the size of its arrays. -/
structure Forest where
  semi : Array Nat
  ancestor : Array (Option Nat)
  best : Array Nat

namespace Forest

/-- The forest of roots in which each vertex has its own number as rank. -/
def ofSize (size : Nat) : Forest :=
  ⟨Array.range size, Array.replicate size none, Array.range size⟩

/-- The number of vertices. -/
def size (forest : Forest) : Nat :=
  forest.ancestor.size

/-- The rank of a vertex. -/
def semiOf (forest : Forest) (v : Nat) : Nat :=
  forest.semi.getD v v

/-- The recorded ancestor of a vertex, and none for a root. -/
def ancestor? (forest : Forest) (v : Nat) : Option Nat :=
  forest.ancestor[v]?.join

/-- The vertex of least rank that a vertex remembers. -/
def bestOf (forest : Forest) (v : Nat) : Nat :=
  forest.best.getD v v

/-- Give a vertex its rank. -/
def setSemi (forest : Forest) (v rank : Nat) : Forest :=
  { forest with semi := forest.semi.setIfInBounds v rank }

/-- Link a root to another vertex. -/
def link (forest : Forest) (parent child : Nat) : Forest :=
  { forest with ancestor := forest.ancestor.setIfInBounds child (some parent) }

/-- Let a vertex skip its ancestor, and remember the better of the two answers. -/
def skip (forest : Forest) (v a : Nat) : Forest :=
  { forest with
    ancestor := forest.ancestor.setIfInBounds v (forest.ancestor? a)
    best :=
      if forest.semiOf (forest.bestOf a) < forest.semiOf (forest.bestOf v) then
        forest.best.setIfInBounds v (forest.bestOf a)
      else
        forest.best }

/-- Shorten the way from a vertex to the root of its tree, for a way of at most `length` links. -/
def compress : Nat → Forest → Nat → Forest
  | 0, forest, _ => forest
  | length + 1, forest, v =>
    match forest.ancestor? v with
    | none => forest
    | some a =>
      match forest.ancestor? a with
      | none => forest
      | some _ => (compress length forest a).skip v a

/-- A vertex of least rank on the way from a vertex up to the root, and the compressed forest. -/
def eval (forest : Forest) (v : Nat) : Forest × Nat :=
  let compressed := compress forest.size forest v
  (compressed, compressed.bestOf v)

end Forest

end Flowgraph
