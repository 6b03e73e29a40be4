import Flowgraph.Proofs.Pipeline
import Flowgraph.Proofs.Ssa.Copies
import Flowgraph.Proofs.Ssa.SingleAssignment

/-!
# Single assignment form preserves behaviour

A graph and what comes back from single assignment form run in lockstep
(`FlowGraph.RoundTrip.lockstep`). At a node the versions that the conversion found hold the values
of the variables, and on an edge the copies bring the versions of its end up to date
(`FlowGraph.RoundTrip.quiet_way`). So both give the same answers
(`FlowGraph.answers_iff_of_roundTrip`).
-/

namespace Flowgraph

open Std.ExtTreeMap
open Versions (versionName versionName_inj)
open Frame (Renamed SlotFree)

namespace FlowGraph

open Renaming (exitOf)

variable {cfg ssa placed final : FlowGraph} {front : NodeId → Option NodeId}
  {entry : NodeId → Versions} {gone : List NodeId} {route : NodeId → Link → NodeId × List NodeId}
  {id target p : NodeId} {frame frame' : Frame} {name : String}

/-- The names of a graph leave room for versions: its nodes can be written, no temporary looks like
a version, and no variable is a slot of the calling convention. A target of an assignment that
begins like a result slot is not a variable, but a collector always is. -/
structure Renamable (cfg : FlowGraph) : Prop where
  nodes : ∀ id node, cfg.node? id = some node → node.isWritable
  versionFree : cfg.VersionFree
  slotFree : SlotFree cfg.definedVars.toList

/-- Renamable graphs have no phi block. -/
theorem Renamable.phiFree (h : cfg.Renamable) : cfg.PhiFree := fun id node hnode =>
  (Node.holds_of_isWritable (h.nodes id node hnode)).2

/-! ### Versions along an edge -/

/-- Past a phi block the merged variables have its versions, and the others keep theirs. -/
theorem Converted.top_past_phi (h : Converted cfg ssa placed front entry)
    (hid : placed.Reaches placed.start id) (hsucc : p ∈ placed.successors id)
    (hp : front target = some p) (var : String) :
    (entry target).top var = if var ∈ cfg.phiVars target then (exitOf placed entry p).top var
      else (exitOf placed entry id).top var := by
  have hreach := hid.tail hsucc
  rw [h.top_eq hreach (h.successors_phi hp) fun other hother =>
    absurd rfl (h.ne_phi (h.contains_target hp) hother)]
  split
  · rfl
  · next hnot =>
    have hkept : (exitOf placed entry p).top var = (entry p).top var :=
      Renaming.top_exitOf (h.tracks hreach) (h.mem_definedVars h.wellFormed.sound hreach)
        fun hdef => hnot ((h.mem_definitionsAt_phi hp).mp hdef)
    rw [hkept, h.top_eq hid hsucc fun other hother => by rwa [h.unique hother hp]]

namespace RoundTrip

/-- Along an edge only the frame changes, and at its end the versions found there hold the values.
-/
theorem quiet_way (h : RoundTrip cfg ssa placed final front entry gone route)
    (hnames : cfg.Renamable) (name : String) (hid : cfg.Reaches cfg.start id) {link : Link}
    (hlink : link ∈ cfg.outgoing id)
    (hframes : Renamed cfg.definedVars.toList (exitOf placed entry id).top frame frame') :
    ∃ after, (Body.ofGraph name final).Quiet (final.arrive (way cfg front route id link).1) frame'
        (final.arrive link.1) after ∧
      Renamed cfg.definedVars.toList (entry link.1).top frame after := by
  have hplaced := h.reaches hid
  have hsucc := h.entrance_mem_successors (Graph.mem_successors.mpr ⟨link.2, hlink⟩)
  obtain ⟨copies, hlane, hcases⟩ := h.exists_lane hlink (h.passes hid hlink)
  rcases hcases with ⟨hsame, rfl⟩ | ⟨p, phi, span, slot, hp, hentrance, hnode, hslot, rfl⟩
  · rw [hsame] at hsucc
    have htarget : cfg.contains link.1 := h.wellFormed.sound.graph.contains_target hlink
    rw [hlane.eq_of_nil]
    exact ⟨frame', .refl, hframes.congr fun var _ => h.top_eq hplaced hsucc fun other hother =>
      absurd rfl (h.ne_phi htarget hother)⟩
  · rw [hentrance] at hsucc
    obtain ⟨found, span', hfound, hmerges⟩ :=
      h.exists_merges (Converted.fresh h.wellFormed.sound hnames.versionFree) hp
        (hplaced.tail hsucc)
    obtain ⟨rfl, -⟩ := Node.phi.inj (Option.some.inj (hfound.symm.trans hnode))
    rw [copiesFor_eq] at hlane
    rw [h.shape.incoming] at hslot
    have hmappings : ∀ {copy : String × List String}, copy ∈ found.mappings.toList →
        found.mappings[copy.1]? = some copy.2 := mem_toList_iff_getElem?_eq_some.mp
    have hentries : ∀ copy ∈ found.mappings.toList, ∃ var ∈ cfg.definedVars.toList,
        copy.1 = versionName var ((exitOf placed entry p).top var) ∧
          copy.2[slot]? = some (versionName var ((exitOf placed entry id).top var)) := by
      intro copy hcopy
      obtain ⟨var, hvar, hname, -, hargs⟩ := hmerges.target (hmappings hcopy)
      have harg := hargs hslot hplaced
      exact ⟨var, Converted.phiVars_subset var hvar, hname, harg⟩
    have hnodup : (found.mappings.toList.map Prod.fst).Nodup := Phi.nodup_targets found
    obtain ⟨after, hquiet, hafter⟩ := hlane.exists_quiet name hnodup hentries hframes
    refine ⟨after, hquiet, hafter.congr fun var _ => ?_⟩
    -- The copies are those for the merged variables.
    have hmerged : versionName var ((exitOf placed entry p).top var) ∈
        found.mappings.toList.map Prod.fst ↔ var ∈ cfg.phiVars link.1 := by
      constructor
      · intro hmem
        obtain ⟨copy, hcopy, hname⟩ := List.mem_map.mp hmem
        obtain ⟨other, hother, heq, -⟩ := hmerges.target (hmappings hcopy)
        obtain ⟨rfl, -⟩ := versionName_inj.mp (hname.symm.trans heq)
        exact hother
      · intro hvar
        obtain ⟨args, hargs⟩ := hmerges.complete hvar
        exact List.mem_map.mpr ⟨_, mem_toList_iff_getElem?_eq_some.mpr hargs, rfl⟩
    rw [h.top_past_phi hplaced hsucc hp]
    unfold topAfter
    simp only [hmerged]

/-! ### Points that correspond -/

/-- A point of a graph and of what came back, with the current versions. -/
def Corresponds (cfg placed final : FlowGraph) (entry : NodeId → Versions) (name : String) :
    PointRel (.ofGraph name cfg) (.ofGraph name final) :=
  fun (point : Point) frame (point' : Point) frame' =>
    point.2 = point'.2 ∧ cfg.Reaches cfg.start point.2 ∧ ∃ scope last : Scope,
      scope.versions.Tracks cfg.definedVars.toList ∧
      Scope.Renames cfg.definedVars.toList scope point.1 point'.1 last ∧
      last.versions = exitOf placed entry point.2 ∧
      Renamed cfg.definedVars.toList scope.versions.top frame frame'

section

variable (h : RoundTrip cfg ssa placed final front entry gone route) {node : Node}
include h

/-- Successors after the round trip. -/
theorem successors_final (hid : cfg.contains id) : final.successors id =
      (cfg.outgoing id).map fun link => (way cfg front route id link).1 := by
  rw [Graph.successors, h.outgoing_final hid, List.map_map]
  rfl

variable (hnames : cfg.Renamable)
include hnames

/-- A reached node is renamed with the versions at its beginning. -/
theorem node_renamed (hid : cfg.Reaches cfg.start id) (hnode : cfg.node? id = some node) :
    placed.node? id = some node ∧
      final.node? id = some (({ versions := entry id } : Scope).renameNode node).2 := by
  have hlive := Graph.contains_of_payload? hnode
  rw [h.node_final hlive]
  rcases h.node_cases hnames.phiFree (h.reaches hid) with
    ⟨found, -, hfound, hplaced, hssa⟩ | ⟨target, hp⟩
  · obtain rfl := Option.some.inj (hfound.symm.trans hnode)
    exact ⟨hplaced, hssa⟩
  · exact absurd rfl (h.ne_phi hlive hp)

/-- Both graphs enter a node at points that correspond. -/
theorem corresponds_arrive (name : String) (hid : cfg.Reaches cfg.start id)
    (hframes : Renamed cfg.definedVars.toList (entry id).top frame frame') :
    Corresponds cfg placed final entry name (cfg.arrive id) frame (final.arrive id) frame' := by
  have hcfg := h.wellFormed.sound
  obtain ⟨node, hnode⟩ := exists_node (hid.contains hcfg.graph hcfg.start)
  obtain ⟨hplaced, hfinal⟩ := h.node_renamed hnames hid hnode
  have hscope := (h.tracks (h.reaches hid)).toScope
  have hsuits := Converted.suits hcfg hnames.phiFree hnames.versionFree hid hnode
  rw [arrive_eq hnode, arrive_eq hfinal]
  exact ⟨rfl, hid, _, _, hscope,
    Scope.renames_renameNode hnames.slotFree hscope hsuits,
    (Renaming.exitOf_eq hplaced).symm, hframes⟩

/-- A node that defines nothing keeps the versions. -/
theorem renamed_of_idle (hid : cfg.Reaches cfg.start id) (hnode : cfg.node? id = some node)
    (hnone : node.definitions = [])
    (hframes : Renamed cfg.definedVars.toList (exitOf placed entry id).top frame frame') :
    Renamed cfg.definedVars.toList (entry id).top frame frame' := by
  refine hframes.congr fun var _ => ?_
  rw [exitOf, definitionsAt_eq (h.node_renamed hnames hid hnode).1, hnone]
  rfl

variable (name : String) (world : World) (hid : cfg.Reaches cfg.start id)
  (hframes : Renamed cfg.definedVars.toList (exitOf placed entry id).top frame frame')
include hid hframes

/-- Both graphs go along an edge to points that correspond. -/
theorem matched_goTo {link : Link} (hlink : link ∈ cfg.outgoing id) :
    Matched (Corresponds cfg placed final entry name) frame frame' (cfg.goTo frame world link.1)
      (final.goTo frame' world (way cfg front route id link).1) := by
  obtain ⟨after, hquiet, hafter⟩ := h.quiet_way hnames name hid hlink hframes
  have hnext : cfg.Reaches cfg.start link.1 :=
    hid.tail (Graph.mem_successors.mpr ⟨link.2, hlink⟩)
  exact ⟨rfl, _, after, hquiet, h.corresponds_arrive hnames name hnext hafter⟩

/-- Both graphs go on alike from a node with one successor. -/
theorem matched_onward (hnode : cfg.node? id = some node) (honward : node.Onward) {next : NodeId}
    {label : Label} (hout : cfg.outgoing id = [(next, label)]) :
    Matched (Corresponds cfg placed final entry name) frame frame' (cfg.depart name id frame world)
      (final.depart name id frame' world) := by
  have hsucc : cfg.successors id = [next] := Graph.successors_eq hout
  have hsucc' := h.successors_final (Graph.contains_of_payload? hnode)
  rw [hout, List.map_singleton] at hsucc'
  have honward' : (({ versions := entry id } : Scope).renameNode node).2.Onward := by
    unfold Node.Onward
    rwa [Scope.kind_renameNode]
  rw [depart_onward hnode honward hsucc,
    depart_onward (h.node_renamed hnames hid hnode).2 honward' hsucc']
  exact h.matched_goTo hnames name world hid hframes (by simp [hout])

/-- Both graphs take the same way at a branch. -/
theorem matched_branch {cond : Expr} {span : Span} (hnode : cfg.node? id = some (.branch cond span))
    {onTrue onFalse : NodeId} (hout : cfg.outgoing id =
      [(onTrue, some true), (onFalse, some false)]) :
    Matched (Corresponds cfg placed final entry name) frame frame' (cfg.depart name id frame world)
      (final.depart name id frame' world) := by
  have hsucc : cfg.successors id = [onTrue, onFalse] := Graph.successors_eq hout
  have hsucc' := h.successors_final (Graph.contains_of_payload? hnode)
  rw [hout, List.map_cons, List.map_singleton] at hsucc'
  have hsuits :=
    Converted.suits h.wellFormed.sound hnames.phiFree hnames.versionFree hid hnode
  have hcond : Unversioned cfg.definedVars.toList cond.freeVars := fun temp htemp =>
    hsuits.temps temp (by simpa [Node.temps] using htemp)
  have hvalue : SameValue cfg.definedVars.toList (entry id).top cond
      (cond.replaceTemps ((entry id).renamer cond.freeVars)) :=
    sameValue_replaceTemps (h.tracks (h.reaches hid)) hcond fun name hname _ => hname
  have hbegin := h.renamed_of_idle hnames hid hnode (by simp [Node.definitions]) hframes
  rw [depart_branch hnode hsucc, depart_branch (h.node_renamed hnames hid hnode).2 hsucc']
  exact .choose (hvalue hbegin _) (h.matched_goTo hnames name world hid hframes (by simp [hout]))
    (h.matched_goTo hnames name world hid hframes (by simp [hout]))

/-- Both graphs leave a node alike. -/
theorem matched_depart :
    Matched (Corresponds cfg placed final entry name) frame frame' (cfg.depart name id frame world)
      (final.depart name id frame' world) := by
  have hcfg := h.wellFormed.sound
  obtain ⟨node, hnode⟩ := exists_node (hid.contains hcfg.graph hcfg.start)
  have hfinal := (h.node_renamed hnames hid hnode).2
  have hfits := h.wellFormed.outgoingFits hnode
  have hwritable := hnames.nodes id node hnode
  cases node with
  | ret span =>
    rw [depart_ret hnode, depart_ret hfinal]
    exact (hframes.results_eq hnames.slotFree).symm
  | spin span =>
    rw [depart_spin hnode, depart_spin hfinal]
    have hbegin := h.renamed_of_idle hnames hid hnode (by simp [Node.definitions]) hframes
    exact ⟨rfl, _, frame', .refl, h.corresponds_arrive hnames name hid hbegin⟩
  | branch cond span =>
    obtain ⟨onTrue, onFalse, hout⟩ := hfits
    exact h.matched_branch hnames name world hid hframes hnode hout
  | phi | stub => cases hwritable
  | start | assign | store | call | block =>
    obtain ⟨next, label, hout⟩ := hfits
    exact h.matched_onward hnames name world hid hframes hnode
      (by simp [Node.Onward, Node.kind]) hout

end

/-- A graph and what comes back from single assignment form run in lockstep. -/
def lockstep (h : RoundTrip cfg ssa placed final front entry gone route)
    (hnames : cfg.Renamable) (name : String) :
    Lockstep (.ofGraph name cfg) (.ofGraph name final) where
  rel := Corresponds cfg placed final entry name
  entry args := by
    have hframes : Renamed cfg.definedVars.toList (entry cfg.start).top (.ofArguments args)
        (.ofArguments args) := (Renamed.ofArguments hnames.slotFree args).congr fun var _ => by
      rw [← h.start, h.top_start]
    show Corresponds cfg placed final entry name (cfg.arrive cfg.start) _
      (final.arrive final.start) _
    rw [h.start_final]
    exact h.corresponds_arrive hnames name (.refl _) hframes
  step {control frame control' frame'} world hrel := by
    obtain ⟨instrs, id⟩ := control
    obtain ⟨instrs', id'⟩ := control'
    obtain ⟨hsame, hid, scope, last, htracks, hrenames, hlast, hframes⟩ := hrel
    dsimp only at hsame hid hrenames hlast
    subst hsame
    -- Either control leaves the node, or both graphs execute their next instruction.
    cases instrs with
    | nil =>
      cases hrenames
      rw [hlast] at hframes
      exact h.matched_depart hnames name world hid hframes
    | cons instr rest =>
      cases instrs' with
      | nil => cases hrenames
      | cons instr' rest' =>
        exact hrenames.matched htracks hframes (fun htracks' hrest hafter =>
          ⟨rfl, hid, _, last, htracks', hrest, hlast, hafter⟩) name world

end RoundTrip

end FlowGraph

/-! ### A function of a unit -/

/-- If two lists of functions differ under one key, the last functions with a name are the same or
those that differ. -/
theorem Function.last?_replace (name : String) {key : String} {entries : List (String × Function)}
    {function function' : Function} (hname : function'.name = function.name)
    (hkey : ∀ entry ∈ entries, entry.1 = key → entry.2 = function) :
    last? name (entries.map fun entry => if entry.1 = key then function' else entry.2) =
        last? name (entries.map Prod.snd) ∨
      last? name (entries.map Prod.snd) = some function ∧
        last? name (entries.map fun entry => if entry.1 = key then function' else entry.2) =
          some function' := by
  induction entries with
  | nil => exact .inl rfl
  | cons first rest ih =>
    obtain ⟨hfirst, hrest⟩ := List.forall_mem_cons.mp hkey
    simp only [List.map_cons, last?]
    rcases ih hrest with hsame | ⟨hold, hnew⟩
    · rw [hsame]
      cases last? name (rest.map Prod.snd) with
      | some found => exact .inl rfl
      | none =>
        by_cases heq : first.1 = key
        · rw [hfirst heq, if_pos heq, hname]
          by_cases hfound : function.name = name
          · simp [hfound]
          · simp [hfound]
        · simp [heq]
    · rw [hold, hnew]
      exact .inr ⟨rfl, rfl⟩

/-- Units that differ in one body have the same code under a name, or the codes of the two bodies.
-/
theorem CodeUnit.codeTable_insert_cases (unit : CodeUnit) (key function name : String)
    (body body' : Stmt) :
    (unit.insert key ⟨function, body'⟩).codeTable[name]? =
        (unit.insert key ⟨function, body⟩).codeTable[name]? ∨
      (unit.insert key ⟨function, body⟩).codeTable[name]? = some (.ofBody body) ∧
        (unit.insert key ⟨function, body'⟩).codeTable[name]? = some (.ofBody body') := by
  have hmap : unit.functions.insert key ⟨function, body'⟩ =
      (unit.functions.insert key ⟨function, body⟩).map fun other found =>
        if other = key then ⟨function, body'⟩ else found := by
    refine ext_getElem? fun other => ?_
    rw [getElem?_map, getElem?_insert, getElem?_insert]
    by_cases heq : key = other
    · simp [heq]
    · simp [heq, Ne.symm heq]
  have hlist : (unit.insert key ⟨function, body'⟩).functionList =
      (unit.functions.insert key ⟨function, body⟩).toList.map fun entry =>
        if entry.1 = key then ⟨function, body'⟩ else entry.2 := by
    rw [functionList, insert, hmap, toList_map, List.map_map]
    rfl
  have hkey : ∀ entry ∈ (unit.functions.insert key ⟨function, body⟩).toList, entry.1 = key →
      entry.2 = ⟨function, body⟩ := by
    intro entry hentry heq
    have hfound : (unit.functions.insert key ⟨function, body⟩)[entry.1]? = some entry.2 :=
      mem_toList_iff_getElem?_eq_some.mp hentry
    rw [heq, getElem?_insert_self] at hfound
    exact (Option.some.inj hfound).symm
  have hname : (⟨function, body'⟩ : Function).name = (⟨function, body⟩ : Function).name := rfl
  rw [getElem?_codeTable, getElem?_codeTable, hlist]
  rcases Function.last?_replace name hname hkey with hsame | ⟨hold, hnew⟩
  · exact .inl (congrArg _ hsame)
  · refine .inr ⟨?_, ?_⟩
    · exact congrArg (Option.map fun found => Code.ofBody found.body) hold
    · exact congrArg (Option.map fun found => Code.ofBody found.body) hnew

/-- A body simulates itself. -/
theorem Program.Simulated.refl (body : Option Body) : Simulated body body :=
  match body with
  | none => trivial
  | some body => ⟨.refl body⟩

namespace FlowGraph

/-- A well-formed graph whose names leave room for versions goes through single assignment form and
back, and what comes back behaves as the graph does. Both can be laid out as long as there are
labels, and laid out as a function of any unit they give the same answers to calls: the results, the
errors, the heap and the output. -/
theorem answers_iff_of_roundTrip {cfg : FlowGraph} (h : cfg.WellFormed) (hnames : cfg.Renamable) :
    ∃ ssa phis final copies, cfg.toSsa = .ok (ssa, phis) ∧ ssa.fromSsa = (final, .done copies) ∧
      (∀ supply : LabelSupply, supply.Covers cfg.labelDemand →
        ∃ result, cfg.flatten supply = .done result) ∧
      (∀ supply : LabelSupply, supply.Covers final.labelDemand →
        ∃ result, final.flatten supply = .done result) ∧
      ∀ {supply supply' rest rest' body body'}, cfg.flatten supply = .done (body, rest) →
        final.flatten supply' = .done (body', rest') →
        ∀ (unit : CodeUnit) (key function : String) (world : World)
          (calls : List (String × List Word)) (expected : List (Result × World)),
          (∀ answer ∈ expected, answer.1 ≠ .error .outOfFuel) →
          ((∃ fuel, { Machine.ofUnit (unit.insert key ⟨function, body⟩) with
              world, fuel }.answers calls = expected) ↔
            ∃ fuel, { Machine.ofUnit (unit.insert key ⟨function, body'⟩) with
              world, fuel }.answers calls = expected) := by
  obtain ⟨ssa, phis, final, copies, placed, front, entry, gone, route, hssa, hfinal, htrip⟩ :=
    h.exists_roundTrip hnames.nodes
  have hwritable : cfg.Writable := h.writable hnames.nodes
  have hwritable' : final.Writable := htrip.writable hnames.nodes
  refine ⟨ssa, phis, final, copies, hssa, hfinal, fun supply hcovers => ?_,
    fun supply hcovers => ?_,
    fun {supply supply' rest rest' body body'} hbody hbody' unit key function world calls expected
      hfuel => ?_⟩
  · obtain ⟨body, hbody⟩ := hwritable.exists_flatten hcovers
    exact ⟨_, hbody⟩
  · obtain ⟨body, hbody⟩ := hwritable'.exists_flatten hcovers
    exact ⟨_, hbody⟩
  -- From the one code to its graph, to the graph that came back, and to the other code.
  have hall : ∀ name, ∃ first second,
      Program.Simulated (Program.ofTable (unit.insert key ⟨function, body⟩).codeTable name) first ∧
      Program.Simulated first second ∧
      Program.Simulated second (Program.ofTable
        (unit.insert key ⟨function, body'⟩).codeTable name) ∧
      Program.Simulated (Program.ofTable (unit.insert key ⟨function, body'⟩).codeTable name)
        second ∧
      Program.Simulated second first ∧
      Program.Simulated first (Program.ofTable (unit.insert key ⟨function, body⟩).codeTable
        name) := by
    intro name
    unfold Program.ofTable
    rcases unit.codeTable_insert_cases key function name body body' with hsame | ⟨hold, hnew⟩
    · rw [hsame]
      exact ⟨_, _, .refl _, .refl _, .refl _, .refl _, .refl _, .refl _⟩
    · obtain ⟨hto, hfrom⟩ := simulations_of_flatten h.sound hbody name
      obtain ⟨hto', hfrom'⟩ := simulations_of_flatten htrip.reverting.sound hbody' name
      have hlockstep := htrip.lockstep hnames name
      rw [hold, hnew]
      exact ⟨some (.ofGraph name cfg), some (.ofGraph name final), hfrom,
        ⟨hlockstep.simulation⟩, hto', hfrom', ⟨hlockstep.reverse⟩, hto⟩
  choose first second hfirst hmiddle hlast hlast' hmiddle' hfirst' using hall
  have hthere := ((Program.Refines.of_simulations hfirst).trans (.of_simulations hmiddle)).trans
    (.of_simulations hlast)
  have hback := ((Program.Refines.of_simulations hlast').trans (.of_simulations hmiddle')).trans
    (.of_simulations hfirst')
  exact Machine.answers_congr hthere hback hfuel

/-- A loop that prints the numbers below the argument, with a block that defines the counter. -/
def printing : FlowGraph :=
  .ofNodes .dummy [.assign "i" (.temp "_ARG0") .dummy, .branch (.temp "i") .dummy,
      .block [.assign "i" (.binary .sub (.temp "i") (.const 1)) .dummy,
        .call [] "print" [.temp "i"] .dummy] .dummy,
      .assign "_RET0" (.temp "i") .dummy, .ret .dummy]
    [⟨0, 1, none⟩, ⟨1, 2, none⟩, ⟨2, 3, some true⟩, ⟨2, 4, some false⟩, ⟨3, 2, none⟩, ⟨4, 5, none⟩]

/-- What comes back prints one and zero for two, after a phi block was put in and taken out. -/
theorem answers_iff_of_roundTrip_printing :
    printing.WellFormed ∧ printing.Renamable ∧ ∃ ssa final copies body rest,
      printing.toSsa = .ok (ssa, 1) ∧ ssa.fromSsa = (final, .done copies) ∧
      final.flatten {} = .done (body, rest) ∧ ∃ fuel,
        { Machine.ofUnit (CodeUnit.insert { name := "test" } "down" ⟨"down", body⟩) with
          fuel }.answers [("down", [2])] = [(.ok [0], { output := #[1, 0] })] := by
  have hwell : printing.WellFormed := ⟨by decide +kernel, .dummy, rfl⟩
  have hversion : printing.VersionFree :=
    forall_node_of_nodes fun id hid node hnode => .of_not_begins <| by
      revert id node
      decide +kernel
  have hslots : SlotFree printing.definedVars.toList := by
    unfold SlotFree
    decide +kernel
  have hnames : printing.Renamable := ⟨forall_node_of_nodes (by decide +kernel), hversion, hslots⟩
  obtain ⟨ssa, phis, final, copies, hssa, hfinal, -, hlaid, hiff⟩ :=
    answers_iff_of_roundTrip hwell hnames
  have hlabels : printing.toSsa.toOption.map (fun result => (result.2,
      decide (LabelSupply.Covers {} result.1.fromSsa.1.labelDemand))) = some (1, true) := by
    decide +kernel
  rw [hssa] at hlabels
  simp only [Except.toOption, Option.map_some, hfinal, Option.some.injEq, Prod.mk.injEq,
    decide_eq_true_eq] at hlabels
  obtain ⟨rfl, hcovers⟩ := hlabels
  obtain ⟨⟨body, rest⟩, hbody⟩ := hlaid {} hcovers
  -- The layout of the loop itself, which is run with enough fuel.
  have hruns : ∃ result, ((printing.flatten {}).andThen fun laid =>
      if { Machine.ofUnit (CodeUnit.insert { name := "test" } "down" ⟨"down", laid.1⟩) with
          fuel := 40 }.answers [("down", [2])] = [(.ok [0], { output := #[1, 0] })] then
        .done ()
      else
        .broken .labelsExhausted) = .done result := by
    decide +kernel
  obtain ⟨_, hrun⟩ := hruns
  obtain ⟨⟨source, remaining⟩, hsource, hanswers⟩ := Outcome.andThen_eq_done.mp hrun
  have hcalls : { Machine.ofUnit (CodeUnit.insert { name := "test" } "down" ⟨"down", source⟩) with
      fuel := 40 }.answers [("down", [2])] = [(.ok [0], { output := #[1, 0] })] := by
    by_contra hne
    rw [if_neg hne] at hanswers
    cases hanswers
  exact ⟨hwell, hnames, ssa, final, copies, body, rest, hssa, hfinal, hbody,
    (hiff hsource hbody _ _ _ {} _ _ (by simp)).mp ⟨40, hcalls⟩⟩

end FlowGraph

end Flowgraph
