import Flowgraph.Proofs.Flow.Accepted
import Flowgraph.Proofs.Flow.Constructed
import Flowgraph.Proofs.Pipeline
import Flowgraph.Proofs.Ssa.Checked
import Flowgraph.Proofs.Ssa.RoundTrip

/-!
# The pipeline fails only where construction fails

Constructed flow graphs pass every check on their way through the passes (`FlowGraph.Intact`), so
the errors of the pipeline are those of construction (`Pipeline.run_fails_iff_construction_fails`).
Only labels can be missing afterwards, and how many are needed is known from the graphs
(`FlowGraph.unitDemand`).
-/

namespace Flowgraph

variable {error : FlowError} {graphs : NameMap FlowGraph} {cfg : FlowGraph}

/-- What follows is given the value. -/
theorem Outcome.done_bind {α β : Type} (value : α) (next : α → Outcome β) :
    done value >>= next = next value := rfl

/-! ### Errors of construction -/

namespace FlowGraph

/-- Reading functions fails over texts only. -/
theorem aboutText_of_ofFunctions {functions : List Function}
    (h : ofFunctions graphs functions = .error error) : error.aboutText := by
  induction functions generalizing graphs with
  | nil => cases h
  | cons function rest ih =>
    rw [ofFunctions] at h
    split at h
    · next hbody =>
      cases h
      exact aboutText_of_ofBody hbody
    · exact ih h

/-- The graphs of a unit are graphs of bodies. -/
theorem exists_ofBody_of_ofUnit {unit : CodeUnit} {name : String} {cfg : FlowGraph}
    (h : ofUnit unit = .ok graphs) (hname : graphs[name]? = some cfg) :
    ∃ body, ofBody body = .ok cfg := by
  have hlast := getElem?_ofFunctions name h
  split at hlast
  · next function _ =>
    obtain ⟨other, hbody, hother⟩ := hlast
    obtain rfl := Option.some.inj (hother.symm.trans hname)
    exact ⟨function.body, hbody⟩
  · rw [hname] at hlast
    simp at hlast

end FlowGraph

/-! ### The passes over a constructed graph -/

namespace FlowGraph

variable {body : Stmt}

/-- A graph without stubs is well formed, as are the graphs that single assignment form and the way
back make of it. No edit on the way is refused. -/
structure Intact (cfg : FlowGraph) : Prop where
  stubFree : ∀ id, cfg.kind? id ≠ some .stub
  wellFormed : cfg.WellFormed
  unrefused : cfg.toSsaChecked = .ofBreaches cfg.toSsa
  trip : ∃ ssa phis final copies, cfg.toSsa = .ok (ssa, phis) ∧ ssa.WellFormed ∧
    ssa.fromSsaChecked = ssa.fromSsa ∧ ssa.fromSsa = (final, .done copies) ∧ final.WellFormed

/-- Constructed graphs pass the checks, and what comes out can be written. -/
theorem exists_trip_of_ofBody (h : ofBody body = .ok cfg) :
    ∃ ssa phis final copies, cfg.toSsa = .ok (ssa, phis) ∧ ssa.WellFormed ∧
      ssa.fromSsa = (final, .done copies) ∧ final.WellFormed ∧ final.Writable := by
  obtain ⟨htidy, hnodes⟩ := tidy_of_ofBody h
  obtain ⟨ssa, phis, final, copies, placed, front, entry, gone, route, hssa, hfinal, htrip⟩ :=
    htidy.wellFormed.exists_roundTrip hnodes
  exact ⟨ssa, phis, final, copies, hssa, (htrip.toConverted.tidy htidy htrip.phiFree).wellFormed,
    hfinal, (htrip.tidy htidy).wellFormed, htrip.writable hnodes⟩

/-- Constructed graphs are writable. -/
theorem writable_of_ofBody (h : ofBody body = .ok cfg) : cfg.Writable := by
  obtain ⟨htidy, hnodes⟩ := tidy_of_ofBody h
  exact htidy.wellFormed.writable hnodes

/-- Constructed graphs are intact. -/
theorem intact_of_ofBody (h : ofBody body = .ok cfg) : cfg.Intact := by
  obtain ⟨htidy, hnodes⟩ := tidy_of_ofBody h
  refine ⟨fun id hkind => ?_, htidy.wellFormed, htidy.wellFormed.sound.toSsaChecked_eq, ?_⟩
  · obtain ⟨node, hnode, hstub⟩ := Option.map_eq_some_iff.mp hkind
    exact (Node.kind_of_isWritable (hnodes id node hnode)).2 hstub
  · obtain ⟨ssa, phis, final, copies, hssa, hfits, hfinal, hfits', -⟩ := exists_trip_of_ofBody h
    exact ⟨ssa, phis, final, copies, hssa, hfits, hfits.sound.fromSsaChecked_eq, hfinal, hfits'⟩

end FlowGraph

namespace Pipeline

/-- Well-formed graphs are verified. -/
theorem verify_eq (h : cfg.WellFormed) (settings : Settings) : verify settings cfg = .done () := by
  unfold verify
  rw [FlowGraph.assertWellFormed, h.violations]
  split <;> rfl

/-- Constructed graphs become writable ones, whether checked or not. -/
theorem exists_transform {body : Stmt} (h : FlowGraph.ofBody body = .ok cfg) (ssa : Bool) :
    ∃ final, final.Writable ∧ ∀ verify, transform ⟨ssa, verify⟩ cfg = .done final := by
  have hintact := FlowGraph.intact_of_ofBody h
  have hverify := verify_eq hintact.wellFormed
  cases ssa with
  | false =>
    refine ⟨cfg, FlowGraph.writable_of_ofBody h, fun verify => ?_⟩
    simp only [transform, hverify, Outcome.done_bind, Bool.false_eq_true, if_false]
    rfl
  | true =>
    obtain ⟨converted, phis, final, copies, hssa, hfits, hfinal, hfits', hwritable⟩ :=
      FlowGraph.exists_trip_of_ofBody h
    refine ⟨final, hwritable, fun verify => ?_⟩
    simp only [transform, hverify, hintact.unrefused, hssa, hfits.sound.fromSsaChecked_eq, hfinal,
      verify_eq hfits, verify_eq hfits', Outcome.ofBreaches, Outcome.done_bind, if_true]
    rfl

/-- All graphs of a table can be written. -/
def AllWritable (graphs : NameMap FlowGraph) : Prop :=
  ∀ {name : String} {cfg}, graphs[name]? = some cfg → cfg.Writable

/-- Constructed graphs are transformed. -/
theorem exists_transformAll {entries : List (String × FlowGraph)} {graphs : NameMap FlowGraph}
    (hentries : ∀ entry ∈ entries, ∃ body, FlowGraph.ofBody body = .ok entry.2)
    (hgraphs : AllWritable graphs) (ssa : Bool) :
    ∃ transformed, AllWritable transformed ∧
      ∀ verify, transformAll ⟨ssa, verify⟩ entries graphs = .done transformed := by
  induction entries generalizing graphs with
  | nil => exact ⟨graphs, hgraphs, fun _ => rfl⟩
  | cons entry rest ih =>
    obtain ⟨name, cfg⟩ := entry
    obtain ⟨hfirst, hrest⟩ := List.forall_mem_cons.mp hentries
    obtain ⟨body, hbody⟩ := hfirst
    obtain ⟨final, hfinal, htransform⟩ := exists_transform hbody ssa
    have hinsert : AllWritable (graphs.insert name final) := by
      intro other found hfound
      rw [Std.ExtTreeMap.getElem?_insert] at hfound
      split at hfound
      · exact Option.some.inj hfound ▸ hfinal
      · exact hgraphs hfound
    obtain ⟨transformed, hwritable, hall⟩ := ih hrest hinsert
    refine ⟨transformed, hwritable, fun verify => ?_⟩
    rw [transformAll, htransform, Outcome.done_andThen, hall]

end Pipeline

/-! ### The layout of a unit -/

namespace FlowGraph

/-- How many labels functions are laid out with. -/
def functionsDemand (graphs : NameMap FlowGraph) : List Function → Nat
  | [] => 0
  | function :: rest =>
    (graphs[function.name]?.map labelDemand).getD 0 + functionsDemand graphs rest

/-- How many labels the graphs of a unit are laid out with. -/
def unitDemand (graphs : NameMap FlowGraph) (unit : CodeUnit) : Nat :=
  functionsDemand graphs (unit.functionList ++ strays graphs unit)

variable {functions : List Function} {supply : LabelSupply}

/-- Writable graphs are written as functions. -/
theorem exists_flattenFunctions (h : Pipeline.AllWritable graphs)
    (hcovers : supply.Covers (functionsDemand graphs functions)) (unit : CodeUnit) :
    ∃ result, flattenFunctions graphs functions unit supply = .done result := by
  induction functions generalizing supply unit with
  | nil => exact ⟨_, rfl⟩
  | cons function rest ih =>
    rw [functionsDemand, LabelSupply.covers_add] at hcovers
    obtain ⟨hfirst, hrest⟩ := hcovers
    cases hgraph : graphs[function.name]? with
    | none =>
      simp only [flattenFunctions, hgraph]
      rw [hgraph] at hrest
      exact ih hrest _
    | some cfg =>
      rw [hgraph] at hfirst hrest
      have hcfg : cfg.Writable := h hgraph
      obtain ⟨body, hbody⟩ := hcfg.exists_flatten hfirst
      simp only [flattenFunctions, hgraph, hbody, Outcome.done_andThen]
      exact ih hrest _

/-- Too few labels break the writing. -/
theorem flattenFunctions_eq_broken (h : Pipeline.AllWritable graphs)
    (hcovers : ¬ supply.Covers (functionsDemand graphs functions)) (unit : CodeUnit) :
    flattenFunctions graphs functions unit supply = .broken .labelsExhausted := by
  induction functions generalizing supply unit with
  | nil => exact absurd (.inl rfl) hcovers
  | cons function rest ih =>
    rw [functionsDemand, LabelSupply.covers_add, not_and] at hcovers
    cases hgraph : graphs[function.name]? with
    | none =>
      simp only [flattenFunctions, hgraph]
      rw [hgraph] at hcovers
      exact ih (hcovers (.inl rfl)) _
    | some cfg =>
      rw [hgraph] at hcovers
      have hcfg : cfg.Writable := h hgraph
      simp only [flattenFunctions, hgraph]
      -- The supply runs out at this function or at a later one.
      by_cases hfirst : supply.Covers cfg.labelDemand
      · obtain ⟨body, hbody⟩ := hcfg.exists_flatten hfirst
        rw [hbody, Outcome.done_andThen]
        exact ih (hcovers hfirst) _
      · rw [hcfg.flatten_eq_broken hfirst, Outcome.broken_andThen]

end FlowGraph

/-! ### The pipeline -/

namespace Pipeline

variable {unit : CodeUnit}

/-- Errors of construction are handed on. -/
theorem run_of_error {error : FlowError} (h : FlowGraph.ofUnit unit = .error error)
    (settings : Settings) : run settings unit = .failed error := by
  unfold run
  rw [FlowGraph.ofUnitChecked_eq, h]
  rfl

/-- What the pipeline does with graphs, in which the checks play no part. -/
theorem run_of_ok {graphs : NameMap FlowGraph} (h : FlowGraph.ofUnit unit = .ok graphs)
    (ssa : Bool) : ∃ transformed, AllWritable transformed ∧ ∀ verify,
      transformAll ⟨ssa, verify⟩ graphs.toList ∅ = .done transformed ∧
      run ⟨ssa, verify⟩ unit =
        (FlowGraph.flattenUnit transformed unit (.ofUnit unit)).andThen fun flat =>
          .done flat.1 := by
  have hentries : ∀ entry ∈ graphs.toList, ∃ body, FlowGraph.ofBody body = .ok entry.2 := by
    intro entry hentry
    have hname : graphs[entry.1]? = some entry.2 :=
      Std.ExtTreeMap.mem_toList_iff_getElem?_eq_some.mp hentry
    exact FlowGraph.exists_ofBody_of_ofUnit h hname
  have hempty : AllWritable ∅ := by
    intro name cfg hname
    simp at hname
  obtain ⟨transformed, hwritable, htransform⟩ := exists_transformAll hentries hempty ssa
  refine ⟨transformed, hwritable, fun verify => ⟨htransform verify, ?_⟩⟩
  simp only [run, FlowGraph.ofUnitChecked_eq, h, htransform, Outcome.ofErrors, Outcome.done_bind]
  rfl

/-- The pipeline fails exactly where construction fails, with the same error, which is one about the
text of a body. No edit of a pass is refused: the checked passes do what those without checks do.
Whether graphs are checked changes nothing either, because every graph between two passes passes the
check. Where construction succeeds the pipeline has a result as long as there are labels, and
nothing else can go wrong. -/
theorem run_fails_iff_construction_fails (settings : Settings) (unit : CodeUnit) :
    FlowGraph.ofUnitChecked unit = FlowGraph.ofUnit unit ∧
      (∀ error, run settings unit = .failed error ↔ FlowGraph.ofUnit unit = .error error) ∧
      (∀ error, run settings unit = .failed error → error.aboutText) ∧
      (∀ verify, run { settings with verify } unit = run settings unit) ∧
      ∀ graphs, FlowGraph.ofUnit unit = .ok graphs →
        (∀ (name : String) cfg, graphs[name]? = some cfg → cfg.Intact) ∧
        ∃ transformed, transformAll settings graphs.toList ∅ = .done transformed ∧
          ((LabelSupply.ofUnit unit).Covers (FlowGraph.unitDemand transformed unit) →
            ∃ flat, run settings unit = .done flat) ∧
          (¬ (LabelSupply.ofUnit unit).Covers (FlowGraph.unitDemand transformed unit) →
            run settings unit = .broken .labelsExhausted) := by
  refine ⟨FlowGraph.ofUnitChecked_eq unit, ?_⟩
  obtain ⟨ssa, verify⟩ := settings
  cases hunit : FlowGraph.ofUnit unit with
  | error error =>
    have hrun := run_of_error hunit
    refine ⟨fun other => ?_, fun other hother => ?_, fun other => ?_, fun graphs hgraphs => ?_⟩
    · rw [hrun]
      simp
    · obtain rfl := Outcome.failed.inj ((hrun _).symm.trans hother)
      exact FlowGraph.aboutText_of_ofFunctions hunit
    · rw [hrun, hrun]
    · cases hgraphs
  | ok graphs =>
    obtain ⟨transformed, hwritable, hall⟩ := run_of_ok hunit ssa
    have hrun := fun verify => (hall verify).2
    have hdone : (LabelSupply.ofUnit unit).Covers (FlowGraph.unitDemand transformed unit) →
        ∃ flat, run ⟨ssa, verify⟩ unit = .done flat := by
      intro hcovers
      obtain ⟨flat, hflat⟩ :=
        FlowGraph.exists_flattenFunctions hwritable hcovers { name := unit.name }
      exact ⟨flat.1, by rw [hrun, FlowGraph.flattenUnit, hflat, Outcome.done_andThen]⟩
    have hbroken : ¬ (LabelSupply.ofUnit unit).Covers (FlowGraph.unitDemand transformed unit) →
        run ⟨ssa, verify⟩ unit = .broken .labelsExhausted := by
      intro hcovers
      rw [hrun, FlowGraph.flattenUnit, FlowGraph.flattenFunctions_eq_broken hwritable hcovers,
        Outcome.broken_andThen]
    have hnever : ∀ error, run ⟨ssa, verify⟩ unit ≠ .failed error := by
      intro error herror
      by_cases hcovers : (LabelSupply.ofUnit unit).Covers (FlowGraph.unitDemand transformed unit)
      · obtain ⟨flat, hflat⟩ := hdone hcovers
        cases hflat.symm.trans herror
      · cases (hbroken hcovers).symm.trans herror
    refine ⟨fun error => ?_, fun error herror => absurd herror (hnever error), fun other => ?_,
      fun found hfound => ?_⟩
    · exact ⟨fun herror => absurd herror (hnever error), fun herror => nomatch herror⟩
    · rw [hrun, hrun]
    · cases hfound
      refine ⟨fun name cfg hname => ?_, transformed, (hall verify).1, hdone, hbroken⟩
      obtain ⟨body, hbody⟩ := FlowGraph.exists_ofBody_of_ofUnit hunit hname
      exact FlowGraph.intact_of_ofBody hbody

/-- The countdown has a loop and a jump that leads nowhere, and goes through all passes and checks.
-/
theorem run_fails_iff_construction_fails_countdown :
    ∃ graphs, FlowGraph.ofUnit countdown = .ok graphs ∧
      (∀ (name : String) cfg, graphs[name]? = some cfg → cfg.Intact) ∧
      ∃ flat, run { ssa := true } countdown = .done flat := by
  obtain ⟨_, hall⟩ : ∃ result, ((Outcome.ofErrors (FlowGraph.ofUnit countdown)).andThen
      fun graphs =>
      (transformAll { ssa := true } graphs.toList ∅).andThen fun transformed =>
        if (LabelSupply.ofUnit countdown).Covers (FlowGraph.unitDemand transformed countdown) then
          .done ()
        else
          .broken .labelsExhausted) = .done result := by
    decide +kernel
  obtain ⟨graphs, hgraphs, hrest⟩ := Outcome.andThen_eq_done.mp hall
  obtain ⟨transformed, htransform, hlabels⟩ := Outcome.andThen_eq_done.mp hrest
  obtain ⟨-, -, -, -, hok⟩ := run_fails_iff_construction_fails { ssa := true } countdown
  have hunit := Outcome.ofErrors_eq_done.mp hgraphs
  obtain ⟨hintact, found, hfound, hdone, -⟩ := hok graphs hunit
  obtain rfl := Outcome.done.inj (htransform.symm.trans hfound)
  refine ⟨graphs, hunit, hintact, hdone ?_⟩
  by_contra hcovers
  rw [if_neg hcovers] at hlabels
  cases hlabels

end Pipeline

end Flowgraph
