import Flowgraph.Proofs.Ssa.Behaviour

/-!
# Stacks along the dominator tree

`Renaming.Stage` breaks the walk of renaming up into steps: a step enters a node or drops one
version. At every stage that enters a node, each stack holds what the strict dominators of the node
have pushed, on top of version zero (`Renaming.Above`). This needs only a graph without a stub in
reach.
-/

namespace Flowgraph

open List

namespace Scope

open Versions

variable {scope : Scope} {vars names : List String}

/-- Names without versions are passed over. -/
theorem defineAll_filter (h : scope.versions.Tracks vars) (names : List String) :
    (scope.defineAll names).1 = (scope.defineAll (names.filter (· ∈ vars))).1 := by
  induction names generalizing scope with
  | nil => rfl
  | cons name rest ih =>
    by_cases hname : name ∈ vars
    · rw [filter_cons_of_pos (by simpa using hname), defineAll_cons h hname,
        defineAll_cons h hname]
      exact ih (tracks_renew h hname)
    · have hnone : scope.versions.counters[name]? = none := by
        refine Std.ExtTreeMap.getElem?_eq_none fun hmem => hname ?_
        exact (h.counted name).mp hmem
      rw [filter_cons_of_neg (by simpa using hname), ← ih h, defineAll, define, hnone]

/-- Each definition puts one version on the stack of its variable. -/
theorem live_defineAll (h : scope.versions.Tracks vars) (hnames : ∀ name ∈ names, name ∈ vars)
    {var : String} {stack : List Nat} (hstack : scope.versions.live[var]? = some stack) :
    ∃ new, new.length = names.count var ∧
      (scope.defineAll names).1.versions.live[var]? = some (new ++ stack) := by
  induction names generalizing scope stack with
  | nil => exact ⟨[], rfl, hstack⟩
  | cons name rest ih =>
    obtain ⟨hname, hrest⟩ := forall_mem_cons.mp hnames
    rw [defineAll_cons h hname]
    by_cases heq : name = var
    · subst heq
      have hpush : (scope.renew name).versions.live[name]? =
          some ((scope.versions.count name + 1) :: stack) := by
        simp [renew, push, Std.ExtTreeMap.getD_eq_getD_getElem?, hstack]
      obtain ⟨new, hlength, hlive⟩ := ih (tracks_renew h hname) hrest hpush
      refine ⟨new ++ [scope.versions.count name + 1], by simp [hlength], ?_⟩
      rw [hlive, append_assoc]
      rfl
    · have hkeep : (scope.renew name).versions.live[var]? = some stack := by
        simp [renew, push, Std.ExtTreeMap.getElem?_insert, heq, hstack]
      rw [count_cons_of_ne heq]
      exact ih (tracks_renew h hname) hrest hkeep

end Scope

namespace Renaming

/-- What a walk has still to do. -/
inductive Task where
  | enter (id : NodeId)
  | drop (var : String)

/-- A walk under way. -/
structure Stage where
  state : Renaming
  tasks : List Task

namespace Stage

/-- Do the first task. The nodes below a node are entered before its versions are dropped. -/
def step (tree : DominatorTree) : Stage → Stage
  | ⟨state, []⟩ => ⟨state, []⟩
  | ⟨state, .enter id :: rest⟩ =>
    ⟨(state.enter id).1, (tree.childrenOf id).map .enter ++ ((state.enter id).2.map .drop ++ rest)⟩
  | ⟨state, .drop var :: rest⟩ => ⟨state.leave [var], rest⟩

/-- The node that is entered next, if one is. -/
def entering? (stage : Stage) : Option NodeId :=
  match stage.tasks with
  | .enter id :: _ => some id
  | _ => none

/-- The versions that a step puts on the stack of a variable. -/
def pushed (stage : Stage) (tree : DominatorTree) (var : String) : List Nat :=
  let stack := (stage.step tree).state.versions.live.getD var []
  stack.take (stack.length - (stage.state.versions.live.getD var []).length)

end Stage

variable {first middle last stage : Stage} {stages : List Stage}

/-- The stages from one to another, without the last one. -/
inductive Stages (tree : DominatorTree) : Stage → List Stage → Stage → Prop where
  | nil (stage : Stage) : Stages tree stage [] stage
  | cons {stage last : Stage} {stages : List Stage} : stage.tasks ≠ [] →
      Stages tree (stage.step tree) stages last → Stages tree stage (stage :: stages) last

/-- Stages compose. -/
theorem Stages.append {tree : DominatorTree} {others : List Stage}
    (h : Stages tree first stages middle) (h' : Stages tree middle others last) :
    Stages tree first (stages ++ others) last := by
  induction h with
  | nil => exact h'
  | cons hne _ ih => exact .cons hne (ih h')

variable {cfg : FlowGraph} {vars names : List String} {state : Renaming} {tasks : List Task}
  {id : NodeId} {above : List Stage}

/-- Entering a node defines its variables with versions. -/
theorem exists_enter (h : state.versions.Tracks vars) (id : NodeId) : ∃ names,
    (∀ name ∈ names, name ∈ vars) ∧
      (∀ var ∈ vars, names.count var = (state.cfg.definitionsAt id).count var) ∧
      (state.enter id).1.versions =
        (({ versions := state.versions } : Scope).defineAll names).1.versions ∧
      (state.enter id).2 = (({ versions := state.versions } : Scope).defineAll
        names).1.defined := by
  have hscope := h.toScope
  refine ⟨(state.cfg.definitionsAt id).filter (· ∈ vars), by simp, fun var hvar => ?_, ?_⟩
  · exact count_filter (by simpa using hvar)
  · rw [← Scope.defineAll_filter hscope, enter]
    split
    · next hnone =>
      rw [FlowGraph.definitionsAt, hnone]
      exact ⟨rfl, rfl⟩
    · next node hnode =>
      rw [FlowGraph.definitionsAt_eq hnode, ← Scope.renameNode_fst]
      exact ⟨rfl, rfl⟩

/-- Entering steps the state. -/
theorem Stage.state_step (h : stage.entering? = some id) (tree : DominatorTree) :
    (stage.step tree).state = (stage.state.enter id).1 := by
  obtain ⟨state, tasks⟩ := stage
  cases tasks with
  | nil => cases h
  | cons task rest =>
    cases task with
    | enter other =>
      cases h
      rfl
    | drop var => cases h

/-- A node pushes one version for each of its definitions. -/
theorem Stage.live_step (h : stage.state.versions.Tracks vars) (hid : stage.entering? = some id)
    (tree : DominatorTree) {var : String} (hvar : var ∈ vars) {stack : List Nat}
    (hstack : stage.state.versions.live[var]? = some stack) :
    (stage.step tree).state.versions.live[var]? = some (stage.pushed tree var ++ stack) ∧
      (stage.pushed tree var).length = (stage.state.cfg.definitionsAt id).count var := by
  have hscope := h.toScope
  obtain ⟨names, hnames, hcount, hversions, -⟩ := exists_enter h id
  obtain ⟨new, hlength, hlive⟩ := Scope.live_defineAll hscope hnames hstack
  rw [← hversions, ← Stage.state_step hid tree] at hlive
  have hpushed : stage.pushed tree var = new := by
    simp [Stage.pushed, Std.ExtTreeMap.getD_eq_getD_getElem?, hlive, hstack]
  rw [hpushed]
  exact ⟨hlive, hlength.trans (hcount var hvar)⟩

/-- Stages that entered the strict dominators of a node, nearest first, and stacks of what was
pushed there on top of version zero. -/
structure Above (cfg : FlowGraph) (vars : List String) (id : NodeId) (above : List Stage)
    (versions : Versions) : Prop where
  nodes : ∀ a, a ∈ above.filterMap Stage.entering? ↔ cfg.StrictlyDominates a id
  sorted : (above.filterMap Stage.entering?).Pairwise fun b a => cfg.StrictlyDominates a b
  stacked : ∀ var ∈ vars, versions.live[var]? =
    some (above.flatMap (·.pushed cfg.dominatorTree var) ++ [0])

/-- Only the live versions matter. -/
theorem Above.of_live {versions later : Versions} (h : Above cfg vars id above versions)
    (hlive : later.live = versions.live) : Above cfg vars id above later :=
  ⟨h.nodes, h.sorted, fun var hvar => hlive ▸ h.stacked var hvar⟩

/-- Strict dominators are the immediate one and its strict dominators. -/
theorem Above.child (h : Above cfg vars id above state.versions) (hcfg : cfg.Sound)
    (tasks : List Task) (hstate : state.versions.Tracks vars) {child : NodeId}
    (hchild : child ∈ cfg.dominatorTree.childrenOf id) :
    Above cfg vars child (⟨state, .enter id :: tasks⟩ :: above) (state.enter id).1.versions := by
  have himm := hcfg.idom?_eq_some_iff.mp (hcfg.mem_childrenOf.mp hchild)
  have hnodes : List.filterMap Stage.entering? (⟨state, .enter id :: tasks⟩ :: above) =
      id :: above.filterMap Stage.entering? := rfl
  refine ⟨fun a => ⟨fun ha => ?_, fun ha => ?_⟩, ?_, fun var hvar => ?_⟩
  · rcases mem_cons.mp (hnodes ▸ ha) with rfl | ha
    · exact himm.1
    · have had := (h.nodes a).mp ha
      have hlt := hcfg.rank_lt had
      have hlt' := hcfg.rank_lt himm.1
      exact ⟨fun heq => by subst heq; omega, had.2.trans himm.1.2⟩
  · rw [hnodes, mem_cons, h.nodes]
    by_cases had : a = id
    · exact .inl had
    · exact .inr ⟨had, himm.2 a ha⟩
  · exact pairwise_cons.mpr ⟨fun a ha => (h.nodes a).mp ha, h.sorted⟩
  · rw [flatMap_cons, append_assoc]
    have hentering : (⟨state, .enter id :: tasks⟩ : Stage).entering? = some id := rfl
    exact (Stage.live_step hstate hentering _ hvar (h.stacked var hvar)).1

/-- Stages that enter some nodes in turn. Every variable has a version, and the stacks at a node are
those of stages passed. -/
structure Passed (cfg : FlowGraph) (vars : List String) (above : List Stage) (ids : List NodeId)
    (first : Stage) (stages : List Stage) (last : Stage) : Prop where
  run : Stages cfg.dominatorTree first stages last
  entered : stages.filterMap Stage.entering? = ids
  tracks : ∀ stage ∈ stages, stage.state.versions.Tracks vars
  last : last.state.versions.Tracks vars
  stacked : ∀ stage ∈ stages, ∀ id, stage.entering? = some id → ∃ path,
    Above cfg vars id path stage.state.versions ∧ ∀ other ∈ path, other ∈ above ∨ other ∈ stages

/-- No subtree is passed. -/
theorem Passed.nil (h : first.state.versions.Tracks vars) :
    Passed cfg vars above [] first [] first :=
  ⟨.nil first, rfl, by simp, h, by simp⟩

/-- Subtrees are passed in turn. -/
theorem Passed.append {ids others : List NodeId} {more : List Stage}
    (h : Passed cfg vars above ids first stages middle)
    (h' : Passed cfg vars above others middle more last) :
    Passed cfg vars above (ids ++ others) first (stages ++ more) last where
  run := h.run.append h'.run
  entered := by rw [filterMap_append, h.entered, h'.entered]
  tracks stage hstage := (mem_append.mp hstage).elim (h.tracks stage) (h'.tracks stage)
  last := h'.last
  stacked stage hstage id hid := by
    rcases mem_append.mp hstage with hstage | hstage
    · obtain ⟨path, hpath, hmem⟩ := h.stacked stage hstage id hid
      exact ⟨path, hpath, fun other hother => (hmem other hother).imp_right
        (mem_append_left _)⟩
    · obtain ⟨path, hpath, hmem⟩ := h'.stacked stage hstage id hid
      exact ⟨path, hpath, fun other hother => (hmem other hother).imp_right
        (mem_append_right _)⟩

/-- Versions are dropped one by one, the last one first. -/
theorem passed_drop (tasks : List Task) {scope : Scope} (h : scope.versions.Tracks vars)
    (hnames : ∀ name ∈ names, name ∈ vars)
    (hlive : state.versions.live = (scope.defineAll names).1.versions.live)
    (hstate : state.versions.Tracks vars) :
    ∃ made stages, (scope.defineAll names).1.defined = made ++ scope.defined ∧
      Passed cfg vars above [] ⟨state, made.map .drop ++ tasks⟩ stages ⟨state.leave made, tasks⟩ ∧
      (state.leave made).versions.live = scope.versions.live := by
  induction names generalizing scope tasks with
  | nil => exact ⟨[], [], rfl, .nil hstate, hlive⟩
  | cons name rest ih =>
    obtain ⟨hname, hrest⟩ := forall_mem_cons.mp hnames
    rw [Scope.defineAll_cons h hname] at hlive ⊢
    obtain ⟨made, stages, hmade, hpassed, hdropped⟩ :=
      ih (.drop name :: tasks) (Scope.tracks_renew h hname) hrest hlive
    have hleave : (state.leave made).leave [name] = state.leave (made ++ [name]) := by
      simp [leave]
    have hpop : (state.leave (made ++ [name])).versions.live = scope.versions.live :=
      hleave ▸ h.live_pop_push hname _ hdropped
    have htracks : (state.leave (made ++ [name])).versions.Tracks vars := by
      refine h.of_live hpop fun var => ?_
      rw [leave, Versions.counters_foldl_pop, hstate.counted]
    have hlast : Passed cfg vars above [] ⟨state.leave made, .drop name :: tasks⟩
        [⟨state.leave made, .drop name :: tasks⟩] ⟨state.leave (made ++ [name]), tasks⟩ := by
      refine ⟨.cons (cons_ne_nil _ _) (hleave ▸ .nil _), rfl, ?_, htracks, ?_⟩
      · rw [forall_mem_singleton]
        exact hpassed.last
      · simp [Stage.entering?]
    refine ⟨made ++ [name], stages ++ [⟨state.leave made, .drop name :: tasks⟩],
      by rw [append_assoc]; exact hmade, ?_, hpop⟩
    rw [map_append, append_assoc]
    exact hpassed.append hlast

/-- The walk from a node passes stages and restores the stacks. -/
def Passes (cfg : FlowGraph) (vars : List String) (above : List Stage) (depth : Nat) (id : NodeId) :
    Prop :=
  ∀ (state : Renaming) (tasks : List Task), state.versions.Tracks vars →
    Above cfg vars id above state.versions → ∃ stages,
      Passed cfg vars above (cfg.dominatorTree.preorderFrom depth id) ⟨state, .enter id :: tasks⟩
        stages ⟨walk cfg.dominatorTree depth state id, tasks⟩ ∧
      (walk cfg.dominatorTree depth state id).versions.live = state.versions.live

/-- The walks over the trees below several nodes in a row. -/
theorem passed_forest {depth : Nat} {roots : List NodeId} (tasks : List Task)
    (hroots : ∀ root ∈ roots, Passes cfg vars above depth root)
    (hstate : state.versions.Tracks vars)
    (habove : ∀ root ∈ roots, Above cfg vars root above state.versions) :
    ∃ stages, Passed cfg vars above (roots.flatMap (cfg.dominatorTree.preorderFrom depth))
        ⟨state, roots.map .enter ++ tasks⟩ stages
        ⟨roots.foldl (walk cfg.dominatorTree depth) state, tasks⟩ ∧
      (roots.foldl (walk cfg.dominatorTree depth) state).versions.live = state.versions.live := by
  induction roots generalizing state with
  | nil => exact ⟨[], .nil hstate, rfl⟩
  | cons root rest ih =>
    obtain ⟨hroot, hrest⟩ := forall_mem_cons.mp hroots
    obtain ⟨hfirst, hothers⟩ := forall_mem_cons.mp habove
    obtain ⟨stages, hwalk, hlive⟩ := hroot state (rest.map .enter ++ tasks) hstate hfirst
    obtain ⟨more, hforest, hlive'⟩ := ih hrest hwalk.last fun other hother =>
      (hothers other hother).of_live hlive
    exact ⟨stages ++ more, hwalk.append hforest, hlive'.trans hlive⟩

/-- The walk passes every subtree. -/
theorem passes_walk (hcfg : cfg.Sound) (depth : Nat) (hid : cfg.Reaches cfg.start id)
    (hdepth : cfg.walk.entered.size ≤ cfg.rank id + depth) : Passes cfg vars above depth id := by
  induction depth generalizing id above with
  | zero =>
    have := (hcfg.node_rank hid).1
    omega
  | succ depth ih =>
    intro state tasks hstate habove
    have hscope := hstate.toScope
    obtain ⟨names, hnames, -, hversions, hdefined⟩ := exists_enter hstate id
    have hentered : (state.enter id).1.versions.Tracks vars :=
      hversions ▸ Scope.tracks_defineAll hscope hnames
    obtain ⟨below, hbelow, hkept⟩ := passed_forest ((state.enter id).2.map .drop ++ tasks)
      (fun child hchild => by
        have himm := hcfg.idom?_eq_some_iff.mp (hcfg.mem_childrenOf.mp hchild)
        have hlt := hcfg.rank_lt himm.1
        exact ih himm.1.2.1 (by omega)) hentered fun child => habove.child hcfg tasks hstate
    obtain ⟨made, drops, hmade, hdrops, hlive⟩ := passed_drop tasks hscope hnames
      (hkept.trans (congrArg Versions.live hversions)) hbelow.last
    obtain rfl : (state.enter id).2 = made := hdefined.trans (hmade.trans (append_nil made))
    have hrest := hbelow.append hdrops
    rw [append_nil] at hrest
    refine ⟨⟨state, .enter id :: tasks⟩ :: (below ++ drops),
      ⟨.cons (cons_ne_nil _ _) hrest.run, congrArg (id :: ·) hrest.entered,
        forall_mem_cons.mpr ⟨hstate, hrest.tracks⟩, hrest.last,
        forall_mem_cons.mpr ⟨fun other hother => ?_, fun stage hstage other hother => ?_⟩⟩,
          hlive⟩
    · obtain rfl : id = other := Option.some.inj hother
      exact ⟨above, habove, fun _ => .inl⟩
    · obtain ⟨path, hpath, hmem⟩ := hrest.stacked stage hstage other hother
      refine ⟨path, hpath, fun passed hpassed => ?_⟩
      simpa [or_assoc, or_left_comm] using hmem passed hpassed

end Renaming

namespace FlowGraph

open Renaming

/-- Without a reached stub the conversion succeeds, by a walk that enters the reached nodes once and
whose stacks follow the dominators. -/
theorem Assembled.stacks_follow_dominators {cfg : FlowGraph} (h : cfg.Assembled)
    (hstub : cfg.reachesStub = false) :
    ∃ placed vars count, cfg.placePhis = (placed, count) ∧ cfg.definedVars.toList = vars ∧
      cfg.toSsa = .ok (placed.rename vars, count) ∧ ∃ stages last,
        Stages placed.dominatorTree ⟨⟨placed, .ofVars vars⟩, [.enter placed.start]⟩ stages last ∧
        last.tasks = [] ∧ last.state.cfg = placed.rename vars ∧
        (stages.filterMap Stage.entering?).Nodup ∧
        (∀ id, id ∈ stages.filterMap Stage.entering? ↔ placed.Reaches placed.start id) ∧
        (∀ stage ∈ stages, ∀ id, stage.entering? = some id →
          (∃ above, Above placed vars id above stage.state.versions ∧
            ∀ other ∈ above, other ∈ stages) ∧
          ∀ var ∈ vars, (stage.pushed placed.dominatorTree var).length =
            (stage.state.cfg.definitionsAt id).count var) ∧
        (∀ stage ∈ last :: stages, ∀ var ∈ vars, ∃ top rest,
          stage.state.versions.live[var]? = some (top :: rest)) ∧
        ∀ var ∈ vars, last.state.versions.live[var]? = some [0] := by
  have hvars := nodup_toList cfg.definedVars
  have hcfg := h.sound.placePhis
  generalize hplaced : cfg.placePhis = result at hcfg ⊢
  obtain ⟨placed, count⟩ := result
  dsimp only at hcfg
  refine ⟨placed, _, count, rfl, rfl, by simp [FlowGraph.toSsa, hstub, hplaced], ?_⟩
  generalize cfg.definedVars.toList = vars at hvars ⊢
  have hzero : ∀ var ∈ vars, (Versions.ofVars vars).live[var]? = some [0] := fun var hvar =>
    NameMap.getElem?_ofList (by simpa [Function.comp_def] using hvars)
      (mem_map.mpr ⟨var, hvar, rfl⟩)
  have htracks : (⟨placed, .ofVars vars⟩ : Renaming).versions.Tracks vars :=
    (Versions.tracks_ofVars hvars).1
  have habove : Above placed vars placed.start [] (.ofVars vars) := by
    refine ⟨fun a => ⟨fun ha => absurd ha not_mem_nil, fun ha => ?_⟩, .nil, hzero⟩
    exact absurd (dominates_start_iff.mp ha.2) ha.1
  obtain ⟨stages, hpassed, hlive⟩ := passes_walk hcfg placed.dominatorTree.order.length
    (.refl placed.start) (by simp [dominatorTree_order]) ⟨placed, .ofVars vars⟩ [] htracks habove
  obtain ⟨hnodup, hreach⟩ := hcfg.preorder_spec
  refine ⟨stages, _, hpassed.run, rfl, rfl, hpassed.entered ▸ hnodup,
    fun id => hpassed.entered ▸ hreach id, fun stage hstage id hid => ⟨?_, fun var hvar => ?_⟩,
    fun stage hstage var hvar => ?_, fun var hvar => (congrArg (·[var]?) hlive).trans
      (hzero var hvar)⟩
  · obtain ⟨path, hpath, hmem⟩ := hpassed.stacked stage hstage id hid
    exact ⟨path, hpath, fun other hother => by simpa using hmem other hother⟩
  · obtain ⟨rest, hstack⟩ := (hpassed.tracks stage hstage).stacked hvar
    exact (Stage.live_step (hpassed.tracks stage hstage) hid _ hvar hstack).2
  · rcases mem_cons.mp hstage with rfl | hstage
    · exact ⟨_, hpassed.last.stacked hvar⟩
    · exact ⟨_, (hpassed.tracks stage hstage).stacked hvar⟩

/-- A loop with a phi block, and a block that defines the counter. -/
theorem stacks_follow_dominators_printing : printing.Assembled ∧ printing.reachesStub = false ∧
    ∃ placed count stages last, printing.placePhis = (placed, count) ∧
      Stages placed.dominatorTree ⟨⟨placed, .ofVars ["i"]⟩, [.enter placed.start]⟩ stages last ∧
      last.tasks = [] ∧ last.state.versions.live["i"]? = some [0] := by
  have hassembled : printing.Assembled := .ofNodes ..
  have hstub : printing.reachesStub = false := by decide +kernel
  have hvars : printing.definedVars.toList = ["i"] := by decide +kernel
  obtain ⟨placed, vars, count, hplaced, rfl, -, stages, last, hrun, hlast, -, -, -, -, -, hzero⟩ :=
    hassembled.stacks_follow_dominators hstub
  rw [hvars] at hrun hzero
  exact ⟨hassembled, hstub, placed, count, stages, last, hplaced, hrun, hlast,
    hzero "i" (by decide)⟩

end FlowGraph

end Flowgraph
