import Flowgraph.Proofs.Flow.Assembled
import Flowgraph.Proofs.Ssa.Copies
import Flowgraph.Proofs.Ssa.RoundTrip

/-!
# Copies one after another

A phi block assigns all its targets at once, and its copies are executed one after another. The two
agree if no copy reads what another one writes, and the names that a conversion gives see to that:
while targets get their versions, an argument still to be renamed stays with its own target, and the
version of a renamed variable is the target of no other argument (`Phi.Parted`). Targets may be lost
on the way, if a version has the name of another variable.
-/

namespace Flowgraph

open List

variable {phi : Phi} {slot : Nat}

open Versions (versionName versionName_inj)

namespace Phi

variable {name : String}

/-- The name of which a target gets the value in a slot. -/
def source? (phi : Phi) (slot : Nat) (target : String) : Option String :=
  (phi.args? target).bind (·[slot]?)

/-- What a name holds after a phi block was entered by a slot. All targets are assigned at once,
from the values before, and a name assigned to itself is not written. -/
def contentsAfter (phi : Phi) (slot : Nat) (frame : Frame) (name : String) : Option Word :=
  match phi.source? slot name with
  | none => frame.temps[name]?
  | some source => if source = name then frame.temps[name]? else some (frame.read source)

/-- Every target has the value that its source had. -/
theorem read_of_contentsAfter {frame after : Frame}
    (h : after.temps[name]? = phi.contentsAfter slot frame name) :
    after.read name = frame.read ((phi.source? slot name).getD name) := by
  rw [Frame.read_eq_getD, h, contentsAfter]
  cases phi.source? slot name with
  | none => exact (Frame.read_eq_getD frame name).symm
  | some source =>
    show (if source = name then frame.temps[name]? else some (frame.read source)).getD 0 =
      frame.read source
    split
    · next hself => rw [hself, Frame.read_eq_getD]
    · rfl

/-- No target gets the value of another one. -/
def Untangled (phi : Phi) (slot : Nat) : Prop :=
  ∀ {target source}, phi.source? slot target = some source → source ∈ phi.targets → source = target

/-! ### Renaming targets one after another -/

/-- Targets and arguments while some targets are still to be renamed. -/
structure Parted (phi : Phi) (waiting : List String) : Prop where
  own : ∀ {target args arg}, phi.mappings[target]? = some args → arg ∈ args → arg ∈ waiting →
    target = arg
  apart : ∀ {target other args arg n}, target ∈ phi.targets → phi.mappings[other]? = some args →
    arg ∈ args → target ∉ waiting → target = versionName arg n → target = other

/-- New phi blocks are parted. -/
theorem parted_ofVars (arity : Nat) (vars : List String) :
    (ofVars arity vars).Parted (ofVars arity vars).targets where
  own {target args arg} hargs harg _ := by
    rw [getElem?_ofVars] at hargs
    split at hargs
    · rw [← Option.some.inj hargs] at harg
      exact (eq_of_mem_replicate harg).symm
    · cases hargs
  apart htarget _ _ hnot := absurd htarget hnot

/-- One more target gets a version. -/
theorem Parted.renameTarget {target : String} {rest : List String} (h : phi.Parted (target :: rest))
    (hnot : target ∉ rest) (n : Nat) : (phi.renameTarget target (versionName target n)).Parted
      rest := by
  cases hold : phi.mappings[target]? with
  | none =>
    have hsame : phi.renameTarget target (versionName target n) = phi := by
      simp only [Phi.renameTarget, hold]
    rw [hsame]
    refine ⟨fun hargs harg hwaits => h.own hargs harg (mem_cons_of_mem _ hwaits),
      fun {name other args arg m} hname hargs harg hdone hversion => ?_⟩
    have hne : name ≠ target := by
      rintro rfl
      obtain ⟨args, hsome⟩ := mem_targets.mp hname
      rw [hold] at hsome
      cases hsome
    exact h.apart hname hargs harg (not_mem_cons_of_ne_of_not_mem hne hdone) hversion
  | some moved =>
    -- An entry afterwards is the renamed one or another one from before.
    have hcases : ∀ {name args},
        (phi.renameTarget target (versionName target n)).mappings[name]? = some args →
        name = versionName target n ∧ args = moved ∨
          name ≠ versionName target n ∧ name ≠ target ∧ phi.mappings[name]? = some args := by
      intro name args hargs
      rw [getElem?_renameTarget hold] at hargs
      split at hargs
      · next heq => exact .inl ⟨heq.symm, (Option.some.inj hargs).symm⟩
      split at hargs
      · cases hargs
      · next hnew hne => exact .inr ⟨Ne.symm hnew, Ne.symm hne, hargs⟩
    refine ⟨fun {name args arg} hargs harg hwaits => ?_,
      fun {name other args arg m} hname hargs harg hdone hversion => ?_⟩
    · have hwaits' := mem_cons_of_mem target hwaits
      rcases hcases hargs with ⟨-, rfl⟩ | ⟨-, -, hargs⟩
      · -- The argument of the target itself is not waiting any more.
        exact absurd (h.own hold harg hwaits' ▸ hwaits) hnot
      · exact h.own hargs harg hwaits'
    · obtain ⟨args', hname⟩ := mem_targets.mp hname
      rcases hcases hname with ⟨rfl, -⟩ | ⟨-, hne, hname⟩
      · rcases hcases hargs with ⟨rfl, -⟩ | ⟨-, hother, hargs⟩
        · rfl
        · obtain ⟨rfl, -⟩ := versionName_inj.mp hversion
          exact absurd (h.own hargs harg mem_cons_self) hother
      · have hdone' := not_mem_cons_of_ne_of_not_mem hne hdone
        have hname' := mem_targets.mpr ⟨args', hname⟩
        rcases hcases hargs with ⟨rfl, rfl⟩ | ⟨-, -, hargs⟩
        · exact absurd (h.apart hname' hold harg hdone' hversion) hne
        · exact h.apart hname' hargs harg hdone' hversion

/-- Renaming brings in no arguments. -/
theorem exists_of_renameTarget {old new : String} {args : List String}
    (h : (phi.renameTarget old new).mappings[name]? = some args) :
    ∃ other : String, phi.mappings[other]? = some args := by
  cases hold : phi.mappings[old]? with
  | none =>
    rw [Phi.renameTarget, hold] at h
    exact ⟨name, h⟩
  | some moved =>
    rw [getElem?_renameTarget hold] at h
    split at h
    · exact ⟨old, hold.trans h⟩
    split at h
    · cases h
    · exact ⟨name, h⟩

end Phi

namespace Scope

variable {scope : Scope} {vars : List String} {targets : List String}

/-- All targets get their versions. -/
theorem parted_defineTargets (h : scope.versions.Tracks vars) (hnodup : targets.Nodup)
    (htargets : ∀ target ∈ targets, target ∈ vars) (hphi : phi.Parted targets) :
    (scope.defineTargets phi targets).2.Parted [] := by
  induction targets generalizing scope phi with
  | nil => exact hphi
  | cons target rest ih =>
    obtain ⟨hnot, hrest⟩ := nodup_cons.mp hnodup
    obtain ⟨htarget, hvars⟩ := forall_mem_cons.mp htargets
    rw [defineTargets, define_of_mem h htarget]
    exact ih (tracks_renew h htarget) hrest hvars (hphi.renameTarget hnot _)

/-- Renamed targets have the arguments of some target from before. -/
theorem exists_of_defineTargets (scope : Scope) {name : String} {args : List String}
    (h : (scope.defineTargets phi targets).2.mappings[name]? = some args) :
    ∃ old : String, phi.mappings[old]? = some args := by
  induction targets generalizing scope phi with
  | nil => exact ⟨name, h⟩
  | cons target rest ih =>
    rw [defineTargets] at h
    obtain ⟨old, hold⟩ := ih _ h
    exact Phi.exists_of_renameTarget hold

end Scope

/-! ### Executing copies -/

/-- Execute instructions in turn, unless one fails or makes a call. -/
def Instr.executeAll (name : String) : List Instr → Frame → World → Option (Frame × World)
  | [], frame, world => some (frame, world)
  | instr :: rest, frame, world =>
    match instr.effect name frame world with
    | .proceed frame world => executeAll name rest frame world
    | _ => none

namespace FlowGraph

variable {span : Span}

/-- Copies of which none reads what another writes act as if made at once. -/
theorem executeAll_copies (name : String) {entries : List (String × List String)}
    (hnodup : (entries.map Prod.fst).Nodup)
    (huntangled : ∀ entry ∈ entries, ∀ source, entry.2[slot]? = some source →
      source ∈ entries.map Prod.fst → source = entry.1) (frame : Frame) (world : World) :
    ∃ after, Instr.executeAll name (Node.instrsList (entries.filterMap (copyFor slot span)))
      frame world =
        some (after, world) ∧
      (∀ entry ∈ entries, ∀ source, entry.2[slot]? = some source → source ≠ entry.1 →
        after.temps[entry.1]? = some (frame.read source)) ∧
      ∀ temp, (∀ entry ∈ entries, ∀ source, entry.2[slot]? = some source → source ≠ entry.1 →
        entry.1 ≠ temp) → after.temps[temp]? = frame.temps[temp]? := by
  induction entries generalizing frame with
  | nil => exact ⟨frame, rfl, by simp, fun _ _ => rfl⟩
  | cons entry rest ih =>
    obtain ⟨hnot, hdistinct⟩ := nodup_cons.mp hnodup
    obtain ⟨hfirst, hlater⟩ := forall_mem_cons.mp huntangled
    have hrest : ∀ entry ∈ rest, ∀ source, entry.2[slot]? = some source →
        source ∈ rest.map Prod.fst → source = entry.1 := fun other hother source hsource hmem =>
      hlater other hother source hsource (mem_cons_of_mem _ hmem)
    by_cases hcopied : ∃ source, entry.2[slot]? = some source ∧ source ≠ entry.1
    · obtain ⟨source, hsource, hne⟩ := hcopied
      have hcopy : copyFor slot span entry = some (.assign entry.1 (.temp source) span) := by
        simp only [copyFor, hsource, if_neg hne]
      obtain ⟨after, hrun, hassigned, hkept⟩ :=
        ih hdistinct hrest (frame.write entry.1 (frame.read source))
      have hold : after.temps[entry.1]? = some (frame.read source) := by
        rw [hkept entry.1 fun other hother _ _ _ heq =>
          hnot (heq ▸ mem_map_of_mem hother), Frame.getElem?_write, if_pos rfl]
      refine ⟨after, ?_, forall_mem_cons.mpr ⟨?_, ?_⟩, fun temp htemp => ?_⟩
      · rw [filterMap_cons_some hcopy]
        exact hrun
      · intro other hother _
        obtain rfl := Option.some.inj (hsource.symm.trans hother)
        exact hold
      · intro other hother arg harg hdiffers
        rw [hassigned other hother arg harg hdiffers, Frame.read_write, if_neg]
        -- A later copy does not read what this one has written.
        rintro rfl
        exact hdiffers (hlater other hother _ harg mem_cons_self)
      · obtain ⟨hhead, htail⟩ := forall_mem_cons.mp htemp
        rw [hkept temp htail, Frame.getElem?_write, if_neg (hhead source hsource hne)]
    · have hnone : copyFor slot span entry = none := by
        rw [copyFor]
        split
        · rfl
        · next source hsource =>
          have hself : source = entry.1 := by
            by_contra hne
            exact hcopied ⟨source, hsource, hne⟩
          rw [if_pos hself]
      obtain ⟨after, hrun, hassigned, hkept⟩ := ih hdistinct hrest frame
      refine ⟨after, by rw [filterMap_cons_none hnone]; exact hrun,
        forall_mem_cons.mpr ⟨fun source hsource hne => ?_, hassigned⟩, fun temp htemp => ?_⟩
      · exact absurd ⟨source, hsource, hne⟩ hcopied
      · exact hkept temp (forall_mem_cons.mp htemp).2

/-- The copies for a slot act as the phi block, if no target gets the value of another. -/
theorem executeAll_copiesFor (name : String) (h : phi.Untangled slot) (span : Span) (frame : Frame)
    (world : World) :
    ∃ after, Instr.executeAll name (Node.instrsList (copiesFor phi slot span)) frame world =
        some (after, world) ∧
      ∀ temp, after.temps[temp]? = phi.contentsAfter slot frame temp := by
  have hsource : ∀ {temp source}, phi.source? slot temp = some source ↔
      ∃ args, (temp, args) ∈ phi.mappings.toList ∧ args[slot]? = some source := by
    intro temp source
    simp only [Phi.source?, Phi.args?, Option.bind_eq_some_iff,
      Std.ExtTreeMap.mem_toList_iff_getElem?_eq_some]
  obtain ⟨after, hrun, hassigned, hkept⟩ := executeAll_copies name phi.nodup_targets
    (fun entry hentry source harg => h (hsource.mpr ⟨entry.2, hentry, harg⟩)) frame world
  have hsame : ∀ temp, (∀ source, phi.source? slot temp = some source → source = temp) →
      after.temps[temp]? = frame.temps[temp]? := by
    refine fun temp htemp => hkept temp fun entry hentry source harg hne heq => hne ?_
    rw [heq]
    exact htemp source (hsource.mpr ⟨entry.2, heq ▸ hentry, harg⟩)
  refine ⟨after, hrun, fun temp => ?_⟩
  rw [Phi.contentsAfter]
  cases harg : phi.source? slot temp with
  | none => exact hsame temp (by simp [harg])
  | some source =>
    show after.temps[temp]? = if source = temp then frame.temps[temp]? else some (frame.read source)
    by_cases hself : source = temp
    · rw [if_pos hself]
      exact hsame temp (by simp [harg, hself])
    · obtain ⟨args, hentry, hslot⟩ := hsource.mp harg
      rw [if_neg hself]
      exact hassigned _ hentry source hslot hself

variable {cfg ssa placed : FlowGraph} {front : NodeId → Option NodeId} {entry : NodeId → Versions}

/-- In a slot of an edge from a reached node, no target gets the value of another. -/
theorem Converted.untangled (h : Converted cfg ssa placed front entry) {target p : NodeId}
    (hp : front target = some p) (hnode : ssa.node? p = some (.phi phi span)) {link : Link}
    (hslot : (placed.incoming p)[slot]? = some link) (hlink : placed.Reaches placed.start link.1) :
    phi.Untangled slot := by
  have hreach : placed.Reaches placed.start p := by
    refine hlink.tail (Graph.mem_successors.mpr ⟨link.2, ?_⟩)
    exact h.sound.graph.mirrored.mpr (mem_of_getElem? hslot)
  obtain ⟨span', htext⟩ := h.node?_phi_ssa hp hreach
  rw [hnode] at htext
  obtain ⟨rfl, -⟩ := Node.phi.inj (Option.some.inj htext)
  generalize hvars : Phi.ofVars (cfg.movableIncoming target).length (cfg.phiVars target) = unnamed
  have htargets : ∀ var ∈ unnamed.targets, var ∈ cfg.definedVars.toList := fun var hvar =>
    phiVars_subset var (Phi.mem_targets_ofVars.mp (hvars ▸ hvar))
  have hparted : (({ versions := entry p } : Scope).defineTargets unnamed unnamed.targets).2.Parted
    [] := by
    have htracks := (h.tracks hreach).toScope
    exact Scope.parted_defineTargets htracks unnamed.nodup_targets htargets
      (hvars ▸ Phi.parted_ofVars ..)
  intro name source hsource hmem
  rw [Phi.targets_mapSlots] at hmem
  rw [Phi.source?, Phi.args?, Phi.getElem?_mapSlots, Option.bind_eq_some_iff] at hsource
  obtain ⟨filled, hfilled, hsource⟩ := hsource
  obtain ⟨args, hargs, rfl⟩ := Option.map_eq_some_iff.mp hfilled
  rw [getElem?_mapIdx, Option.map_eq_some_iff] at hsource
  obtain ⟨arg, harg, rfl⟩ := hsource
  -- The argument is one of the variables, and the slot holds a version of it.
  have hvar : arg ∈ cfg.definedVars.toList := by
    obtain ⟨old, hold⟩ := Scope.exists_of_defineTargets _ hargs
    rw [← hvars, Phi.getElem?_ofVars] at hold
    split at hold
    · next hmem =>
      rw [← Option.some.inj hold] at harg
      rw [eq_of_mem_replicate (mem_of_getElem? harg)]
      exact phiVars_subset old hmem
    · cases hold
  rw [h.slotText_of_reaches hslot hlink hvar] at hmem ⊢
  exact hparted.apart hmem hargs (mem_of_getElem? harg) not_mem_nil rfl

/-- In single assignment form, the copies that take the place of a phi block on an edge from a node
that control reaches can be executed one after another: they change a frame as if all targets were
assigned at once. -/
theorem WellFormed.executeAll_copies_toSsa {count : Nat} (h : cfg.WellFormed)
    (hphi : ∀ id, cfg.kind? id ≠ some .phi) (hssa : cfg.toSsa = .ok (ssa, count)) {p : NodeId}
    {phi : Phi}
    {span : Span} (hnode : ssa.node? p = some (.phi phi span)) {slot : Nat} {link : Link}
    (hslot : (ssa.incoming p)[slot]? = some link) (hlink : ssa.Reaches ssa.start link.1)
    (copySpan : Span)
    (name : String) (frame : Frame) (world : World) :
    ∃ after, Instr.executeAll name (Node.instrsList (copiesFor phi slot copySpan)) frame world =
        some (after, world) ∧
      (∀ temp, after.temps[temp]? = phi.contentsAfter slot frame temp) ∧
      ∀ temp, after.read temp = frame.read ((phi.source? slot temp).getD temp) := by
  obtain ⟨-, placed, front, entry, hconverted⟩ := h.converted_toSsa hssa
  obtain ⟨target, hp⟩ := hconverted.front_of_kind hphi (kind?_eq_some hnode)
  rw [hconverted.shape.incoming] at hslot
  have hreach := hconverted.shape.reaches_iff.mp hlink
  obtain ⟨after, hrun, hafter⟩ :=
    executeAll_copiesFor name (hconverted.untangled hp hnode hslot hreach) copySpan frame world
  exact ⟨after, hrun, hafter, fun temp => Phi.read_of_contentsAfter (hafter temp)⟩

/-- A loop that swaps two variables. -/
def swapping : FlowGraph :=
  .ofNodes .dummy [.assign "t" (.temp "x") .dummy, .assign "x" (.temp "y") .dummy,
      .assign "y" (.temp "t") .dummy, .branch (.temp "c") .dummy, .ret .dummy]
    [⟨0, 1, none⟩, ⟨1, 2, none⟩, ⟨2, 3, none⟩, ⟨3, 4, none⟩, ⟨4, 1, some true⟩, ⟨4, 5, some false⟩]

/-- On the edge that closes the loop both variables are swapped. -/
theorem executeAll_copies_toSsa_swapping : swapping.WellFormed ∧
    (∀ id, swapping.kind? id ≠ some .phi) ∧
    ∃ ssa phi span after, swapping.toSsa = .ok (ssa, 1) ∧ ssa.node? 6 = some (.phi phi span) ∧
      phi.mappings.toList = [("t_1", ["t_0", "t_2"]), ("x_1", ["x_0", "x_2"]),
        ("y_1", ["y_0", "y_2"])] ∧
      (ssa.incoming 6)[1]? = some (4, some true) ∧ ssa.Reaches ssa.start 4 ∧
      Instr.executeAll "main" (Node.instrsList (copiesFor phi 1 .dummy))
        (({} : Frame).write "x_2" 7 |>.write "y_2" 8) {} = some (after, {}) ∧
      after.read "x_1" = 7 ∧ after.read "y_1" = 8 := by
  have hwell : swapping.WellFormed := ⟨by decide +kernel, .dummy, rfl⟩
  have hphi : ∀ id, swapping.kind? id ≠ some .phi := kind?_ne_of_nodes (by decide +kernel)
  obtain ⟨⟨ssa, _⟩, htoSsa, rfl, hmappings, hslot, hreached⟩ :
      ∃ result, swapping.toSsa = .ok result ∧ result.2 = 1 ∧
        ((result.1.node? 6).bind Node.phi?).map (·.mappings.toList) =
          some [("t_1", ["t_0", "t_2"]), ("x_1", ["x_0", "x_2"]), ("y_1", ["y_0", "y_2"])] ∧
        (result.1.incoming 6)[1]? = some (4, some true) ∧ 4 ∈ result.1.reached :=
    exists_ok_of_any (by decide +kernel)
  obtain ⟨phi, span, hnode, hmappings⟩ := exists_phi_of_map hmappings
  have hreach : ssa.Reaches ssa.start 4 := (hwell.sound.toSsa htoSsa).mem_reached.mp hreached
  obtain ⟨after, hrun, -, hread⟩ := WellFormed.executeAll_copies_toSsa hwell hphi htoSsa hnode
    hslot hreach .dummy "main" (({} : Frame).write "x_2" 7 |>.write "y_2" 8) {}
  have hsource : ∀ temp args, (temp, args) ∈ phi.mappings.toList →
      phi.source? 1 temp = args[1]? := by
    intro temp args hentry
    rw [Phi.source?, Phi.args?, Std.ExtTreeMap.mem_toList_iff_getElem?_eq_some.mp hentry,
      Option.bind_some]
  rw [hmappings] at hsource
  refine ⟨hwell, hphi, ssa, phi, span, after, htoSsa, hnode, hmappings, hslot, hreach, hrun, ?_, ?_⟩
  · rw [hread, hsource "x_1" ["x_0", "x_2"] (by simp)]
    decide +kernel
  · rw [hread, hsource "y_1" ["y_0", "y_2"] (by simp)]
    decide +kernel

end FlowGraph

end Flowgraph
