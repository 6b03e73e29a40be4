import Flowgraph.Proofs.Flow.Build
import Mathlib.Data.List.Forall2
import Mathlib.Data.Nat.Find

/-!
# The graph that a body describes

Each statement of a body that is neither a label nor a jump is a site, and so are the start, the
end, and every circle of labels and jumps. Labels and jumps are followed until a site is met
(`Code.Enters`), and from a site, ways lead on (`Code.Site.ways`). `FlowGraph.Depicts` says that a
flow graph shows the sites that are reached.
-/

namespace Flowgraph

open Relation (ReflTransGen TransGen)

/-- If elements lead to one other only, a circle is still ahead after a step. -/
theorem reaches_circle_of_step {α : Type} {R : α → α → Prop} (hunique : Relator.RightUnique R)
    {a b c : α}
    (hstep : R a b) (h : ReflTransGen R a c) (hround : TransGen R c c) : ReflTransGen R b c := by
  rcases ReflTransGen.cases_head h with heq | ⟨other, hother, hrest⟩
  · subst heq
    obtain ⟨other, hother, hrest⟩ := TransGen.head'_iff.mp hround
    exact hunique hother hstep ▸ hrest
  · exact hunique hother hstep ▸ hrest

namespace Code

/-! ### Sites -/

/-- A jump goes to the next definition of its label, or to the first one if there is none behind it.
-/
def pos? (instrs : List Instr) (k : Nat) (label : String) : Option Nat :=
  ((Builder.firstLabel label (instrs.drop (k + 1))).map (k + 1 + ·)).or
    (Builder.firstLabel label instrs)

/-- The position at which one goes on from a label or a jump. -/
def skip? (instrs : List Instr) (k : Nat) : Option Nat :=
  match instrs[k]? with
  | some (.label _) => some (k + 1)
  | some (.jump label) => pos? instrs k label
  | _ => none

/-- One label or jump leads from a position to another. -/
def Skips (instrs : List Instr) (k k' : Nat) : Prop :=
  skip? instrs k = some k'

/-- The start, a statement or the end of the body given by its position, or a circle of labels and
jumps given by its first position. -/
inductive Site where
  | start
  | stmt (k : Nat)
  | spin (k : Nat)
  deriving DecidableEq

/-- The first position of the circle through another one. -/
structure Circles (instrs : List Instr) (k first : Nat) : Prop where
  round : TransGen (Skips instrs) k k
  leads : ReflTransGen (Skips instrs) k first
  least : ∀ other, ReflTransGen (Skips instrs) k other → first ≤ other

/-- The site at which one arrives from a position. -/
inductive Enters (instrs : List Instr) : Nat → Site → Prop where
  | stop {k : Nat} : skip? instrs k = none → Enters instrs k (.stmt k)
  | skip {k k' : Nat} {site : Site} : Skips instrs k k' → Enters instrs k' site →
      Enters instrs k site
  | round {k first : Nat} : Circles instrs k first → Enters instrs k (.spin first)

/-- The ways that lead on from a site, as positions with labels. -/
def Site.ways (instrs : List Instr) : Site → List (Nat × Label)
  | .start => [(0, none)]
  | .stmt k =>
    match instrs[k]? with
    | some (.move _ _) | some (.call _ _ _) => [(k + 1, none)]
    | some (.branch _ label) =>
      (pos? instrs k label).toList.map (·, some true) ++ [(k + 1, some false)]
    | _ => []
  | .spin first => [(first, none)]

/-- The nodes that show a site. -/
inductive Shows (body : Stmt) : Site → Node → Prop where
  | start : Shows body .start (.start body.span)
  | act {k : Nat} {instr : Instr} {span : Span} {node : Node} :
      body.topLevel[k]? = some (.instr instr span) → instr.actor? span = some node →
      Shows body (.stmt k) node
  | branch {k : Nat} {cond : Expr} {label : String} {span : Span} :
      body.topLevel[k]? = some (.instr (.branch cond label) span) →
      Shows body (.stmt k) (.branch cond span)
  | ret {k : Nat} {span : Span} : body.topLevel[k]? = some (.instr .ret span) →
      Shows body (.stmt k) (.ret span)
  | stop : Shows body (.stmt body.code.length) (.ret body.span)
  | spin {first k : Nat} {label : String} {span : Span} :
      ReflTransGen (Skips body.code) first k →
      body.topLevel[k]? = some (.instr (.jump label) span) → Shows body (.spin first) (.spin span)

/-- The sites that are reached from the start. -/
inductive Reached (instrs : List Instr) : Site → Prop where
  | start : Reached instrs .start
  | way {site next : Site} {way : Nat × Label} : Reached instrs site → way ∈ site.ways instrs →
      Enters instrs way.1 next → Reached instrs next

/-- The kind of the nodes that show a site. -/
def Site.Suits (kind : Kind) : Site → Prop
  | .start => kind = .start
  | .stmt _ => kind ≠ .start ∧ kind ≠ .spin
  | .spin _ => kind = .spin

/-- Nodes suit the kind of their site. -/
theorem Shows.kind {body : Stmt} {site : Site} {node : Node} (h : Shows body site node) :
    site.Suits node.kind := by
  cases h with
  | act _ hactor =>
    have hkind := (Instr.actor?_cases hactor).2
    constructor <;> intro heq <;> simp [heq] at hkind
  | start | branch | ret | stop | spin => simp [Site.Suits, Node.kind]

section Sites

variable {instrs : List Instr} {k k' first : Nat} {site other : Site}

/-- Labels are skipped. -/
theorem Skips.label {name : String} (hinstr : instrs[k]? = some (.label name)) :
    Skips instrs k (k + 1) := by
  simp [Skips, skip?, hinstr]

/-- Jumps are skipped. -/
theorem Skips.jump {label : String} (hinstr : instrs[k]? = some (.jump label))
    (hpos : pos? instrs k label = some k') : Skips instrs k k' := by
  simpa [Skips, skip?, hinstr] using hpos

/-- Skipping goes one way. -/
theorem Skips.unique {j : Nat} (h : Skips instrs k k') (h' : Skips instrs k j) : k' = j :=
  Option.some.inj (h.symm.trans h')

/-- What is reached from a circle lies on it. -/
theorem back_of_round (hround : TransGen (Skips instrs) k k)
    (h : ReflTransGen (Skips instrs) k k') : ReflTransGen (Skips instrs) k' k := by
  have hunique : Relator.RightUnique (Skips instrs) := fun _ _ _ => Skips.unique
  induction h with
  | refl => exact .refl
  | tail _ hskip ih => exact reaches_circle_of_step hunique hskip ih hround

/-- A circle is the same from each of its positions. -/
theorem Circles.along (h : Circles instrs k first) (hskips : ReflTransGen (Skips instrs) k k') :
    Circles instrs k' first := by
  have hback := back_of_round h.round hskips
  exact ⟨TransGen.trans_right hback (TransGen.trans_left h.round hskips), hback.trans h.leads,
    fun other hother => h.least other (hskips.trans hother)⟩

/-- Circles have one first place. -/
theorem Circles.unique {j : Nat} (h : Circles instrs k first) (h' : Circles instrs k j) :
    first = j :=
  Nat.le_antisymm (h.least _ h'.leads) (h'.least _ h.leads)

/-- Rounds have a first place. -/
theorem exists_circles (hround : TransGen (Skips instrs) k k) :
    ∃ first, Circles instrs k first := by
  have hsome : ∃ other, ReflTransGen (Skips instrs) k other := ⟨k, .refl⟩
  classical
  exact ⟨Nat.find hsome, hround, Nat.find_spec hsome, fun other hother =>
    Nat.find_min' hsome hother⟩

/-- Skipping comes before entering. -/
theorem Enters.of_skips (hskips : ReflTransGen (Skips instrs) k k') (h : Enters instrs k' site) :
    Enters instrs k site := by
  induction hskips using ReflTransGen.head_induction_on with
  | refl => exact h
  | head hskip _ ih => exact .skip hskip ih

/-- Skipping keeps what is entered. -/
theorem Enters.next (h : Enters instrs k site) (hskip : Skips instrs k k') :
    Enters instrs k' site := by
  cases h with
  | stop hnone => cases hnone.symm.trans hskip
  | skip hskip' hrest => exact hskip'.unique hskip ▸ hrest
  | round hcircle => exact .round (hcircle.along (.single hskip))

/-- At most one site is entered from a position. -/
theorem Enters.unique (h : Enters instrs k site) (h' : Enters instrs k other) : site = other := by
  induction h with
  | stop hnone =>
    cases h' with
    | stop => rfl
    | skip hskip _ => cases hnone.symm.trans hskip
    | round hcircle =>
      obtain ⟨_, hskip, -⟩ := TransGen.head'_iff.mp hcircle.round
      cases hnone.symm.trans hskip
  | skip hskip _ ih => exact ih (h'.next hskip)
  | round hcircle =>
    -- The other way may go round for a while, but it stays on the circle.
    induction h' with
    | stop hnone =>
      obtain ⟨_, hskip, -⟩ := TransGen.head'_iff.mp hcircle.round
      cases hnone.symm.trans hskip
    | skip hskip _ ih => exact ih (hcircle.along (.single hskip))
    | round hcircle' => rw [hcircle.unique hcircle']

end Sites

end Code

/-- A flow graph shows the sites of a body that are reached from the start. Each of its nodes stands
for a site, and its edges are the ways of this site, in order. Only a circle may have several nodes,
and each of them leads to itself. -/
structure FlowGraph.Depicts (body : Stmt) (cfg : FlowGraph) (site : NodeId → Code.Site) : Prop where
  start : site cfg.start = .start
  node : ∀ {id node}, cfg.node? id = some node → Code.Shows body (site id) node
  outgoing : ∀ {id}, cfg.contains id →
    List.Forall₂ (fun link way => link.2 = way.2 ∧ Code.Enters body.code way.1 (site link.1))
      (cfg.outgoing id) ((site id).ways body.code)
  round : ∀ {id first}, cfg.contains id → site id = .spin first →
    cfg.outgoing id = [(id, none)]
  once : ∀ {id other}, cfg.contains id → cfg.contains other → site id = site other →
    (∀ first, site id ≠ .spin first) → id = other
  reached : ∀ place, Code.Reached body.code place ↔ ∃ id, cfg.contains id ∧ site id = place

end Flowgraph
