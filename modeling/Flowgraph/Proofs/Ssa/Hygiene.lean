import Flowgraph.Proofs.Flow.Constructed
import Flowgraph.Proofs.Ssa.SingleAssignment

/-!
# Names after conversion

Versions of different variables never have the same name, so names can be taken for each other in
two ways only: a name that is kept may look like a version, and a target of a phi block may look
like the version that another target gets. If neither happens (`FlowGraph.NamesApart`), every name
tells from which variable it stems (`FlowGraph.exists_hygienic_toSsa`). If the second happens, a phi
block loses a variable (`FlowGraph.not_hygienic_clashing`).
-/

namespace Flowgraph

open List

open Versions (versionName versionName_inj)

/-! ### The variable from which a name stems -/

/-- The variable of a version. Other names stem from themselves. -/
noncomputable def originOf (vars : List String) (name : String) : String :=
  open Classical in
  if h : ∃ var ∈ vars, ∃ n, name = versionName var n then h.choose else name

section Origin

variable {vars : List String} {var name : String}

/-- Versions come from their variable. -/
theorem originOf_versionName (hvar : var ∈ vars) (n : Nat) :
    originOf vars (versionName var n) = var := by
  have hversion : ∃ other ∈ vars, ∃ k, versionName var n = versionName other k :=
    ⟨var, hvar, n, rfl⟩
  obtain ⟨-, k, heq⟩ := hversion.choose_spec
  rw [originOf, dif_pos hversion]
  exact (versionName_inj.mp heq).1.symm

/-- Other names come from themselves. -/
theorem originOf_of_ne (h : ∀ var ∈ vars, ∀ n, name ≠ versionName var n) :
    originOf vars name = name :=
  dif_neg fun ⟨var, hvar, n, heq⟩ => h var hvar n heq

/-- Names come from what they stem from. -/
theorem Stems.originOf_eq {old new : String} (h : Stems vars old new)
    (hkept : Kept vars old → ∀ var ∈ vars, ∀ n, old ≠ versionName var n) :
    originOf vars new = old := by
  rcases h with ⟨hvar, n, rfl⟩ | ⟨hkeep, rfl⟩
  · exact originOf_versionName hvar n
  · exact originOf_of_ne (hkept hkeep)

end Origin

/-- A phi block has one mapping for each of some variables, with versions of this variable as
arguments. -/
structure Phi.Serves (phi : Phi) (vars : List String) (origin : String → String) : Prop where
  once : ∀ var ∈ vars, ∃! name, name ∈ phi.targets ∧ origin name = var
  args : ∀ {name args}, phi.mappings[name]? = some args → origin name ∈ vars ∧
    ∀ arg ∈ args, origin arg = origin name ∧ ∃ n, arg = versionName (origin name) n

namespace FlowGraph

/-- Each name stems from one variable, and every phi block put in has one mapping for each of its
variables. -/
structure Hygienic (cfg ssa : FlowGraph) (origin : String → String) : Prop where
  old : ∀ {id node}, ssa.Reaches ssa.start id → cfg.node? id = some node →
    ∃ renamed, ssa.node? id = some renamed ∧ renamed.occurrences.map origin = node.occurrences
  new : ∀ {id}, ssa.Reaches ssa.start id → cfg.contains id = false →
    ∃ placed phi span span', cfg.placePhis.1.node? id = some (.phi placed span) ∧
      ssa.node? id = some (.phi phi span') ∧ phi.Serves placed.targets origin

/-- No name that may be kept looks like a version, and no two variables that need a phi block at one
node look like a variable and its version. -/
structure NamesApart (cfg : FlowGraph) : Prop where
  kept : ∀ {id node name}, cfg.node? id = some node → name ∈ node.occurrences →
    Kept cfg.definedVars.toList name →
      ∀ var ∈ cfg.definedVars.toList, ∀ n, name ≠ versionName var n
  merged : ∀ target, ∀ var ∈ cfg.phiVars target, ∀ n, versionName var n ∉ cfg.phiVars target

/-- The same by the beginnings of names, so that it can be computed. -/
def BeginningsApart (cfg : FlowGraph) : Prop :=
  (∀ id ∈ cfg.nodes, ∀ node ∈ cfg.node? id, ∀ name ∈ node.occurrences,
    Kept cfg.definedVars.toList name → ∀ var ∈ cfg.definedVars.toList,
      ¬ (var.toList ++ ['_']) <+: name.toList) ∧
  ∀ var ∈ cfg.definedVars.toList, ∀ other ∈ cfg.definedVars.toList,
    (var.toList ++ ['_']) <+: other.toList → ∀ target ∈ cfg.phiSites cfg.frontiers var,
      target ∉ cfg.phiSites cfg.frontiers other

instance (cfg : FlowGraph) : Decidable cfg.BeginningsApart :=
  inferInstanceAs (Decidable (_ ∧ _))

/-- Names with beginnings apart are apart. -/
theorem BeginningsApart.namesApart {cfg : FlowGraph} (h : cfg.BeginningsApart) :
    cfg.NamesApart where
  kept {id node name} hnode hname hkeep var hvar n heq :=
    h.1 id (Graph.mem_nodes.mpr (Graph.contains_of_payload? hnode)) node hnode name hname hkeep
      var hvar (heq ▸ Versions.begins_versionName var n)
  merged target var hvar n hmem := by
    obtain ⟨hdefined, hsite⟩ := mem_phiVars.mp hvar
    obtain ⟨hdefined', hsite'⟩ := mem_phiVars.mp hmem
    exact h.2 var (Std.ExtTreeSet.mem_toList.mpr hdefined) _
      (Std.ExtTreeSet.mem_toList.mpr hdefined')
      (Versions.begins_versionName var n) target hsite hsite'

namespace Converted

variable {cfg ssa placed : FlowGraph} {front : NodeId → Option NodeId} {entry : NodeId → Versions}

variable (h : Converted cfg ssa placed front entry)
include h

/-- All arguments are versions of the variables if control reaches every node. -/
theorem serves (hreached : ∀ {id}, cfg.contains id → cfg.Reaches cfg.start id)
    {target p : NodeId} {phi : Phi} (hp : front target = some p)
    (hmerges : Merges cfg placed entry target p phi) (arity : Nat) :
    phi.Serves (Phi.ofVars arity (cfg.phiVars target)).targets
      (originOf cfg.definedVars.toList) := by
  have horigin : ∀ {var}, var ∈ cfg.phiVars target → ∀ n,
      originOf cfg.definedVars.toList (versionName var n) = var :=
    fun hvar n => originOf_versionName (phiVars_subset _ hvar) n
  refine ⟨fun var hvar => ?_, fun {name args} hargs => ?_⟩
  · have hvar := Phi.mem_targets_ofVars.mp hvar
    refine ⟨_, ⟨Phi.mem_targets.mpr (hmerges.complete hvar), horigin hvar _⟩, ?_⟩
    rintro name ⟨hname, heq⟩
    obtain ⟨args, hargs⟩ := Phi.mem_targets.mp hname
    obtain ⟨other, hother, rfl, -⟩ := hmerges.target hargs
    rw [horigin hother] at heq
    rw [heq]
  · obtain ⟨var, hvar, rfl, hlength, hslots⟩ := hmerges.target hargs
    rw [horigin hvar]
    refine ⟨Phi.mem_targets_ofVars.mpr hvar, fun arg harg => ?_⟩
    -- The slot belongs to an edge from a node that control reaches, so that it was filled.
    obtain ⟨slot, hslot⟩ := mem_iff_getElem?.mp harg
    have hlt : slot < (placed.incoming p).length := hlength ▸ (List.getElem?_eq_some_iff.mp hslot).1
    have hlink : (placed.incoming p)[slot]? = some (placed.incoming p)[slot] :=
      getElem?_eq_getElem hlt
    have hmovable := (h.mem_incoming_phi h.wellFormed.sound hp).mp (mem_of_getElem? hlink)
    have hsource := h.reaches (hreached
      (h.wellFormed.sound.contains_of_mem_movableIncoming hmovable))
    obtain rfl := Option.some.inj (hslot.symm.trans (hslots hlink hsource))
    exact ⟨horigin hvar _, _, rfl⟩

/-- Conversion is hygienic. -/
theorem hygienic (hphi : cfg.PhiFree)
    (hreached : ∀ {id}, cfg.contains id → cfg.Reaches cfg.start id)
    (hapart : cfg.NamesApart) : Hygienic cfg ssa (originOf cfg.definedVars.toList) where
  old {id node} hid hnode := by
    obtain ⟨renamed, hrenamed, hstems⟩ := h.renamesTemps hphi hid hnode
    have horigin : Forall₂ (fun old new => originOf cfg.definedVars.toList new = old)
        node.occurrences renamed.occurrences :=
      ((forall₂_and_left _ _).mpr ⟨fun _ hname => hapart.kept hnode hname, hstems⟩).imp
        fun _ _ hstem => hstem.2.originOf_eq hstem.1
    refine ⟨renamed, hrenamed, ?_⟩
    rw [← forall₂_eq_eq_eq, forall₂_map_left_iff]
    exact horigin.flip
  new {id} hid hlive := by
    have hreach := h.shape.reaches_iff.mp hid
    rcases h.node_cases hphi hreach with ⟨old, -, hcfg, -⟩ | ⟨target, hp⟩
    · exact absurd (Graph.contains_of_payload? hcfg) (Bool.eq_false_iff.mp hlive)
    · obtain ⟨-, -, span, hplaced⟩ := h.phi hp
      obtain ⟨phi, span', hssa, hmerges⟩ :=
        h.exists_merges_of_apart (hapart.merged target) hp hreach
      exact ⟨_, phi, span, span', h.eq ▸ hplaced, hssa, h.serves hreached hp hmerges _⟩

end Converted

variable {body : Stmt} {cfg : FlowGraph}

/-- The conversion of the graph of a body renames each temporary to a version of itself or keeps it,
and names are hygienic unless they can be taken for each other. -/
theorem exists_hygienic_toSsa (h : ofBody body = .ok cfg) :
    ∃ ssa count, cfg.toSsa = .ok (ssa, count) ∧ RenamesTemps cfg ssa ∧
      (cfg.NamesApart → ∃ origin, Hygienic cfg ssa origin) := by
  obtain ⟨htidy, hwritable⟩ := tidy_of_ofBody h
  have hphi : cfg.PhiFree := fun id node hnode =>
    (Node.holds_of_isWritable (hwritable id node hnode)).2
  obtain ⟨ssa, count, placed, front, entry, htoSsa, hconverted⟩ :=
    htidy.wellFormed.exists_converted (reachesStub_eq_false hwritable)
  exact ⟨ssa, count, htoSsa, hconverted.renamesTemps hphi,
    fun hapart => ⟨_, hconverted.hygienic hphi htidy.reached hapart⟩⟩

/-- A loop over a variable, and one that is named like its first version but assigned before. -/
def stepping : Stmt :=
  .seq [
    .instr (.move (.temp "a_1") (.temp "c")) .dummy,
    .instr (.label "L") .dummy,
    .instr (.move (.temp "a") (.binary .add (.temp "a") (.temp "a_1"))) .dummy,
    .instr (.branch (.temp "c") "L") .dummy,
    .instr .ret .dummy] .dummy

/-- A loop with a counter. -/
theorem exists_hygienic_toSsa_stepping : ∃ cfg ssa, ofBody stepping = .ok cfg ∧ cfg.NamesApart ∧
    cfg.toSsa = .ok (ssa, 1) ∧ RenamesTemps cfg ssa ∧ ∃ origin, Hygienic cfg ssa origin := by
  obtain ⟨cfg, hcfg, hbeginnings, hcount⟩ : ∃ cfg, ofBody stepping = .ok cfg ∧
      cfg.BeginningsApart ∧ cfg.toSsa.toOption.map (·.2) = some 1 :=
    exists_ok_of_any (by decide +kernel)
  obtain ⟨ssa, count, hssa, hrenames, hhygienic⟩ := exists_hygienic_toSsa hcfg
  obtain rfl : count = 1 := by simpa [hssa, Except.toOption] using hcount
  exact ⟨cfg, ssa, hcfg, hbeginnings.namesApart, hssa, hrenames, hhygienic hbeginnings.namesApart⟩

/-- A loop over a variable and another named like its first version. -/
def clashing : Stmt :=
  .seq [
    .instr (.label "L") .dummy,
    .instr (.move (.temp "a") (.binary .add (.temp "a") (.const 1))) .dummy,
    .instr (.move (.temp "a_1") (.binary .add (.temp "a_1") (.const 1))) .dummy,
    .instr (.branch (.temp "c") "L") .dummy,
    .instr .ret .dummy] .dummy

/-- The phi block of the loop has one mapping for two variables. -/
theorem not_hygienic_clashing : ∃ cfg ssa, ofBody clashing = .ok cfg ∧ cfg.toSsa = .ok (ssa, 1) ∧
    ∀ origin, ¬ Hygienic cfg ssa origin := by
  obtain ⟨cfg, hcfg, hconverts⟩ : ∃ cfg, ofBody clashing = .ok cfg ∧
      cfg.toSsa.toOption.any fun result => decide (result.2 = 1 ∧
        7 ∈ result.1.successors result.1.start ∧ cfg.contains 7 = false ∧
        ((cfg.placePhis.1.node? 7).bind Node.phi?).map Phi.targets = some ["a", "a_1"] ∧
        ((result.1.node? 7).bind Node.phi?).map Phi.targets = some ["a_1_1"]) := by
    apply exists_ok_of_any
    decide +kernel
  obtain ⟨⟨ssa, _⟩, hssa, rfl, hnext, hnew, hplaced, htargets⟩ := exists_ok_of_any hconverts
  refine ⟨cfg, ssa, hcfg, hssa, fun origin hygienic => ?_⟩
  obtain ⟨placed, phi, span, span', hbefore, hafter, hserves⟩ :=
    hygienic.new (.tail (.refl _) hnext) hnew
  simp only [hbefore, hafter, Option.bind_some, Node.phi?, Option.map_some, Option.some.injEq]
    at hplaced htargets
  -- Both variables of the block would have to stem from its only target.
  have honly : ∀ var ∈ ["a", "a_1"], origin "a_1_1" = var := by
    intro var hvar
    obtain ⟨name, ⟨hname, heq⟩, -⟩ := hserves.once var (hplaced ▸ hvar)
    rw [htargets, mem_singleton] at hname
    exact hname ▸ heq
  exact absurd ((honly "a" (by simp)).symm.trans (honly "a_1" (by simp))) (by decide)

-- A name that is kept is taken for a version: the sum is one of `a` and of a temporary `a_1` from
-- outside.
example : ((ofBody (.seq [
      .instr (.move (.temp "a") (.const 1)) .dummy,
      .instr (.move (.temp "b") (.binary .add (.temp "a") (.temp "a_1"))) .dummy]
        .dummy)).toOption.bind
    (·.toSsa.toOption)).map (fun (ssa, _) => (ssa.node? 2).map Node.render) =
      some (some "b_1 := (a_1 + a_1)") := by
  decide +kernel

end FlowGraph

end Flowgraph
