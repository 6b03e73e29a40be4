import Flowgraph.Flow.Checked
import Flowgraph.Flow.Layout
import Flowgraph.Settings
import Flowgraph.Ssa.Checked

/-!
# The pipeline

The pipeline turns every function of a unit into a flow graph and lays it out again. In between, a
function may go through single assignment form and back, and graphs may be checked after each pass.
All edits are checked, and one that is refused is an error of the pipeline.
-/

namespace Flowgraph

namespace Pipeline

/-- Check a flow graph if the settings ask for it. -/
def verify (settings : Settings) (cfg : FlowGraph) : Outcome Unit :=
  if settings.verify then .ofBreaches cfg.assertWellFormed else .done ()

/-- The passes over the flow graph of one function. -/
def transform (settings : Settings) (cfg : FlowGraph) : Outcome FlowGraph := do
  verify settings cfg
  if settings.ssa then
    let (converted, _) ← cfg.toSsaChecked
    verify settings converted
    let (reverted, outcome) := converted.fromSsaChecked
    let _ ← outcome
    verify settings reverted
    return reverted
  else
    return cfg

/-- The passes over several flow graphs, one after another. -/
def transformAll (settings : Settings) :
    List (String × FlowGraph) → NameMap FlowGraph → Outcome (NameMap FlowGraph)
  | [], graphs => .done graphs
  | (name, cfg) :: rest, graphs =>
    (transform settings cfg).andThen fun transformed =>
      transformAll settings rest (graphs.insert name transformed)

/-- Send a unit through the pipeline. -/
def run (settings : Settings) (unit : CodeUnit) : Outcome CodeUnit := do
  let graphs ← .ofErrors (FlowGraph.ofUnitChecked unit)
  let transformed ← transformAll settings graphs.toList ∅
  let (flat, _) ← FlowGraph.flattenUnit transformed unit (.ofUnit unit)
  return flat

end Pipeline

end Flowgraph
