/-!
# Source positions

A span is a half-open range of positions in the source text, and is never computed with.
-/

namespace Flowgraph

/-- The range of source positions from `start` up to `stop`. -/
structure Span where
  start : Nat
  stop : Nat
  deriving DecidableEq, Inhabited

namespace Span

/-- The span of code that has no place in a source text. -/
def dummy : Span := ⟨0, 0⟩

/-- Whether a span is the placeholder `Span.dummy`. -/
def isDummy (span : Span) : Bool :=
  span.start == 0 && span.stop == 0

/-- A span is written with two dots between its ends. -/
def render (span : Span) : String :=
  toString span.start ++ ".." ++ toString span.stop

end Span

end Flowgraph
