import Flowgraph.Node.Effects
import Flowgraph.Proofs.Flow.Emission
import Flowgraph.Proofs.Flow.Flatten
import Flowgraph.Proofs.Semantics.Stretch

/-!
# Effects of nodes

The descriptions of a node are compared with what it does: a node that acts on the program's state
is executed as the instructions that the layout writes for it (`Node.Realized`).

Frames that agree on what a node uses, and on the argument slots, stay in step and agree on all that
it writes (`Node.alike_perform`). Names that are not killed keep their values (`Node.read_perform`),
and copies hold as long as neither side is killed (`Node.copied_gensList`).
-/

namespace Flowgraph

open Std.ExtTreeMap
open Machine
open Frame (AgreeOn)

namespace Node

variable {node : Node} {name target source : String}

/-- A node is executed as its instructions. The layout writes just these for it, and wherever they
stand in the code of a function, the machine performs them and goes on behind them. -/
structure Realized (node : Node) : Prop where
  written : ∀ id, ∃ items, Layout.straightLine id node = .ok items ∧
    ∀ cfg labels, Stmt.codeList (items.flatMap (Layout.stmts cfg labels)) = node.instrs
  performed : ∀ {code : Code} {pc : Nat}, code.Holds pc node.instrs →
    ∀ (function : String) (callers : List Caller) (frame : Frame) (machine : Machine),
      Machine.resume machine.table machine.fuel
          (Machine.proceed ⟨function, code, pc, frame⟩ callers machine.world) =
        carryOn function code (pc + node.instrs.length) callers
          (Machine.perform function node.instrs frame machine)

/-- Nodes that only act are executed as their instructions. -/
theorem realized (h : node.isStraight) : node.Realized where
  written id := by
    obtain ⟨items, hitems⟩ := Layout.exists_straightLine id h
    refine ⟨items, hitems, fun cfg labels => ?_⟩
    rw [Layout.codeList_stmts, (Layout.plain_of_straightLine hitems).text_eq]
  performed hholds := resume_perform hholds fun _ hinstr => acts_of_mem_instrs hinstr

/-! ### What a node writes -/

mutual

/-- The temporaries that the calls of a node collect. -/
def collected : Node → List String
  | .call collectors _ _ _ => collectors
  | .block children _ => collectedList children
  | _ => []

/-- The temporaries that the calls of several nodes collect. -/
def collectedList : List Node → List String
  | [] => []
  | node :: rest => node.collected ++ collectedList rest

end

mutual

/-- A node kills what its instructions write. -/
theorem mem_kills_iff {name : String} : ∀ {node : Node}, node.isStraight →
    (name ∈ node.kills ↔ ∃ instr ∈ node.instrs, name ∈ instr.writes)
  | .assign _ _ _, _ | .store _ _ _, _ | .call _ _ _ _, _ => by simp [kills, instrs, Instr.writes]
  | .block children _, h => by
      rw [isStraight] at h
      rw [kills, instrs]
      exact mem_killsList_iff h
  | .start _, h | .ret _, h | .branch _ _, h | .spin _, h | .phi _ _, h | .stub _, h => by
      simp [isStraight] at h

/-- What the nodes of a list write. -/
theorem mem_killsList_iff {name : String} : ∀ {nodes : List Node}, isStraightList nodes →
    (name ∈ killsList nodes ↔ ∃ instr ∈ instrsList nodes, name ∈ instr.writes)
  | [], _ => by simp [killsList, instrsList]
  | node :: rest, h => by
      rw [isStraightList, Bool.and_eq_true] at h
      rw [killsList, instrsList, Std.ExtTreeSet.mem_union_iff, mem_kills_iff h.1,
        mem_killsList_iff h.2]
      simp only [List.mem_append, or_and_right, exists_or]

end

mutual

/-- What calls collect is killed. -/
theorem mem_kills_of_collected {name : String} : ∀ {node : Node}, name ∈ node.collected →
    name ∈ node.kills
  | .call collectors _ _ _, h => by simpa [collected, kills] using h
  | .block children _, h => by
      rw [collected] at h
      rw [kills]
      exact mem_killsList_of_collected h
  | .assign _ _ _, h | .store _ _ _, h | .start _, h | .ret _, h | .branch _ _, h | .spin _, h
  | .phi _ _, h | .stub _, h => by simp [collected] at h

/-- What a list collects, it writes. -/
theorem mem_killsList_of_collected {name : String} :
    ∀ {nodes : List Node}, name ∈ collectedList nodes → name ∈ killsList nodes
  | [], h => by simp [collectedList] at h
  | node :: rest, h => by
      rw [collectedList, List.mem_append] at h
      rw [killsList, Std.ExtTreeSet.mem_union_iff]
      exact h.imp mem_kills_of_collected mem_killsList_of_collected

end

mutual

/-- A node defines what it kills, except for slots that only assignments write. -/
theorem mem_defs_iff {name : String} : ∀ {node : Node}, node.isStraight →
    (name ∈ node.defs ↔
      name ∈ node.kills ∧ ¬ (Slot.isResult name ∧ name ∉ node.collected))
  | .assign target _ _, _ => by
      by_cases hname : target = name
      · subst hname
        by_cases hslot : Slot.isResult target = true <;> simp [defs, kills, collected, hslot]
      · by_cases hslot : Slot.isResult target = true <;> simp [defs, kills, hname, hslot]
  | .store _ _ _, _ => by simp [defs, kills]
  | .call collectors _ _ _, _ => by
      by_cases hname : name ∈ collectors <;> simp [defs, kills, collected, hname]
  | .block children _, h => by
      rw [isStraight] at h
      rw [defs, kills, collected]
      exact mem_defsList_iff h
  | .start _, h | .ret _, h | .branch _ _, h | .spin _, h | .phi _ _, h | .stub _, h => by
      simp [isStraight] at h

/-- What the nodes of a list define. -/
theorem mem_defsList_iff {name : String} : ∀ {nodes : List Node}, isStraightList nodes →
    (name ∈ defsList nodes ↔
      name ∈ killsList nodes ∧ ¬ (Slot.isResult name ∧ name ∉ collectedList nodes))
  | [], _ => by simp [defsList, killsList]
  | node :: rest, h => by
      rw [isStraightList, Bool.and_eq_true] at h
      have hnode : name ∈ node.collected → name ∈ node.kills := mem_kills_of_collected
      have hrest : name ∈ collectedList rest → name ∈ killsList rest := mem_killsList_of_collected
      rw [defsList, killsList, collectedList, Std.ExtTreeSet.mem_union_iff,
        Std.ExtTreeSet.mem_union_iff, List.mem_append, mem_defs_iff h.1, mem_defsList_iff h.2]
      tauto

end

/-! ### What a node uses -/

mutual

/-- Frames that agree on what a node uses agree on what it kills, and on what they agreed on before.
-/
theorem alike_perform (function : String) {names : String → Prop}
    (hslots : ∀ name, Slot.isArgument name → names name) : ∀ {node : Node},
    node.isStraight → (∀ name ∈ node.uses, names name) →
    ∀ {frame frame' : Frame} (machine : Machine), AgreeOn names frame frame' →
      Performed.Alike (fun name => names name ∨ name ∈ node.kills)
        (Machine.perform function node.instrs frame machine)
        (Machine.perform function node.instrs frame' machine)
  | .assign target value _, _, huses, frame, frame', machine, hagree => by
      rw [uses] at huses
      have hreads : ∀ name ∈ value.freeVars, names name := fun name hname =>
        (mem_valueUses hname).elim (huses name) (hslots name)
      simp only [instrs, kills, perform_singleton]
      exact alike_performOne (.move (.temp target) value) hreads hagree function machine
  | .store address value _, _, huses, frame, frame', machine, hagree => by
      rw [uses] at huses
      simp only [instrs, kills, perform_singleton]
      exact alike_performOne (.move (.mem address) value) huses hagree function machine
  | .call collectors callee args _, _, huses, frame, frame', machine, hagree => by
      rw [uses] at huses
      simp only [instrs, kills, perform_singleton]
      exact alike_performOne (.call collectors callee args) huses hagree function machine
  | .block children _, h, huses, frame, frame', machine, hagree => by
      rw [isStraight] at h
      rw [uses] at huses
      rw [instrs, kills]
      exact alike_performList function hslots h huses machine hagree
  | .start _, h, _, _, _, _, _ | .ret _, h, _, _, _, _, _ | .branch _ _, h, _, _, _, _, _
  | .spin _, h, _, _, _, _, _ | .phi _ _, h, _, _, _, _, _ | .stub _, h, _, _, _, _, _ => by
      simp [isStraight] at h

/-- Lists read no more than they use. -/
theorem alike_performList (function : String) {names : String → Prop}
    (hslots : ∀ name, Slot.isArgument name → names name) : ∀ {nodes : List Node},
    isStraightList nodes → (∀ name ∈ usesList nodes, names name) →
    ∀ {frame frame' : Frame} (machine : Machine), AgreeOn names frame frame' →
      Performed.Alike (fun name => names name ∨ name ∈ killsList nodes)
        (Machine.perform function (instrsList nodes) frame machine)
        (Machine.perform function (instrsList nodes) frame' machine)
  | [], _, _, frame, frame', machine, hagree =>
    ⟨rfl, hagree.mono fun name hname => hname.resolve_right Std.ExtTreeSet.not_mem_empty⟩
  | node :: rest, h, huses, frame, frame', machine, hagree => by
      rw [isStraightList, Bool.and_eq_true] at h
      simp only [usesList, Std.ExtTreeSet.mem_union_iff, Std.ExtTreeSet.mem_diff_iff] at huses
      -- What the rest uses is used by the whole, or the first node has defined it.
      have hrest : ∀ name ∈ usesList rest, names name ∨ name ∈ node.kills := by
        intro name hname
        by_cases hdef : name ∈ node.defs
        · exact .inr ((mem_defs_iff h.1).mp hdef).1
        · exact .inl (huses name (.inl ⟨hname, hdef⟩))
      have hfirst := alike_perform function hslots h.1 (fun name hname => huses name (.inr hname))
        machine hagree
      rw [instrsList, perform_append, perform_append]
      refine (hfirst.andThen fun machine' hagree' => alike_performList function
        (fun name hname => .inl (hslots name hname)) h.2 hrest machine' hagree').mono
        fun name hname => ?_
      rw [killsList, Std.ExtTreeSet.mem_union_iff, ← or_assoc] at hname
      exact hname

end

/-- A node leaves the names alone that it does not kill. -/
theorem read_perform (h : node.isStraight) {function : String} {frame after : Frame}
    {machine : Machine}
    (hafter : (Machine.perform function node.instrs frame machine).1 = .ok after)
    (hname : name ∉ node.kills) : after.read name = frame.read name :=
  Machine.read_perform hafter fun _ hinstr hwrites =>
    hname ((mem_kills_iff h).mpr ⟨_, hinstr, hwrites⟩)

/-- What a node uses and kills is sound for its execution. From the same machine, and in two frames
that agree on what the node uses and on all argument slots, the node comes to the same error, or to
frames that agree on what it kills; in both cases heap, output and fuel are the same. All names that
it does not kill keep their values. Of the names that it kills it defines all but the result slots
that no call in it collects. -/
theorem uses_kills_sound {node : Node} (hnode : node.isStraight) :
    node.Realized ∧
    (∀ (function : String) (machine : Machine) (frame frame' : Frame),
      AgreeOn (fun name => name ∈ node.uses ∨ Slot.isArgument name) frame frame' →
      Performed.Alike (fun name => name ∈ node.kills)
        (Machine.perform function node.instrs frame machine)
        (Machine.perform function node.instrs frame' machine)) ∧
    (∀ (function : String) (machine : Machine) (frame after : Frame),
      (Machine.perform function node.instrs frame machine).1 = .ok after →
      ∀ name, name ∉ node.kills → after.read name = frame.read name) ∧
    ∀ name, name ∈ node.defs ↔
      name ∈ node.kills ∧ ¬ (Slot.isResult name ∧ name ∉ node.collected) := by
  refine ⟨realized hnode, fun function machine frame frame' hagree => ?_,
    fun function machine frame after hafter name hname => read_perform hnode hafter hname,
    fun name => mem_defs_iff hnode⟩
  exact (alike_perform function (fun name hname => .inr hname) hnode
    (fun name hname => .inl hname) machine hagree).mono fun name hname => .inr hname

/-- A block that copies an argument, calls a function with two collectors of one name in an inner
block, and passes on a result from before. -/
def mingling : Node :=
  .block [.assign "x" (.temp "_ARG0") .dummy,
    .block [.call ["y", "y", "_RET0"] "triple" [.temp "x"] .dummy,
      .store (.temp "y") (.temp "z") .dummy] .dummy,
    .assign "_RET1" (.temp "y") .dummy] .dummy

/-- A machine with one function, which returns its argument and the next two numbers. -/
def tripling : Machine :=
  let result (index : Nat) (value : Word) : Stmt :=
    .instr (.move (.temp (Slot.result index)) (.binary .add (.temp "_ARG0") (.const value))) .dummy
  .ofUnit (CodeUnit.add { name := "test" }
    ⟨"triple", .seq [result 0 0, result 1 1, result 2 2] .dummy⟩)

/-- The block uses `z` only: frames that differ in `x` and `y` agree on `y` afterwards. -/
theorem uses_kills_sound_mingling :
    let first : Frame := ((Frame.ofArguments [4]).write "z" 9).write "y" 1
    let second : Frame := ((Frame.ofArguments [4]).write "z" 9).write "x" 2
    AgreeOn (fun name => name ∈ mingling.uses ∨ Slot.isArgument name) first second ∧
    first.read "y" ≠ second.read "y" ∧ mingling.isStraight ∧
    ∃ after after' machine,
      Machine.perform "f" mingling.instrs first tripling = (.ok after, machine) ∧
      Machine.perform "f" mingling.instrs second tripling = (.ok after', machine) ∧
      after.read "y" = after'.read "y" := by
  intro first second
  have hagree : AgreeOn (fun name => name ∈ mingling.uses ∨ Slot.isArgument name) first second := by
    intro name hname
    have hy : "y" ≠ name := fun heq => absurd (heq ▸ hname) (by decide +kernel)
    have hx : "x" ≠ name := fun heq => absurd (heq ▸ hname) (by decide +kernel)
    simp only [first, second, Frame.read_write, if_neg hy, if_neg hx]
  have hstraight : mingling.isStraight := by decide +kernel
  obtain ⟨hmachine, hafter⟩ := (uses_kills_sound hstraight).2.1 "f" tripling first second hagree
  have hok : (Machine.perform "f" mingling.instrs first tripling).1.isOk := by decide +kernel
  rcases hfirst : Machine.perform "f" mingling.instrs first tripling with ⟨error | after, machine⟩
  · rw [hfirst] at hok
    cases hok
  · rw [hfirst] at hmachine hafter
    obtain ⟨after', hsecond, hkills⟩ := Collected.of_ok hafter
    exact ⟨hagree, by decide +kernel, hstraight, after, after', machine, rfl,
      Prod.ext hsecond hmachine.symm, hkills "y" (by decide +kernel)⟩

/-! ### What a node copies -/

/-- Copies that hold in a frame: their two sides read alike. -/
def Copied (copies : NameMap String) (frame : Frame) : Prop :=
  ∀ {target source}, copies[target]? = some source → frame.read target = frame.read source

/-- Copies survive if nothing is killed. -/
theorem getElem?_surviving {killed : NameSet} {copies : NameMap String}
    (h : (surviving killed copies)[target]? = some source) :
    copies[target]? = some source ∧ target ∉ killed ∧ source ∉ killed := by
  rw [surviving, getElem?_filter', Option.filter_eq_some_iff, Bool.and_eq_true,
    Bool.not_eq_true', Bool.not_eq_true', ← Bool.not_eq_true, ← Bool.not_eq_true] at h
  exact h

/-- New copies go first. -/
theorem getElem?_addCopies (copies new : NameMap String) (target : String) :
    (addCopies copies new)[target]? = (new[target]?).or copies[target]? := by
  rw [addCopies]
  cases hnew : new[target]? with
  | some source =>
    exact getElem?_insertMany_list_of_mem Std.ReflCmp.compare_self
      distinct_keys_toList (mem_toList_iff_getElem?_eq_some.mpr hnew)
  | none =>
    refine getElem?_insertMany_list_of_contains_eq_false ?_
    rw [map_fst_toList_eq_keys, contains_keys,
      contains_eq_isSome_getElem?, hnew]
    rfl

/-- An assignment copies to its target, from another name. -/
theorem eq_of_copyOf {value : Expr} (h : (copyOf target value)[name]? = some source) :
    target = name ∧ value = .temp source ∧ source ≠ target := by
  rw [copyOf] at h
  cases value with
  | temp other =>
    simp only [Expr.asTemp?] at h
    split at h
    · next hkept =>
      rw [getElem?_insert] at h
      split at h
      · next heq =>
        cases h
        rw [Bool.and_eq_true, bne_iff_ne] at hkept
        exact ⟨Std.LawfulEqCmp.compare_eq_iff_eq.mp heq, rfl, hkept.2⟩
      · simp at h
    · simp at h
  | const | binary | mem | symbol => simp [Expr.asTemp?] at h

mutual

/-- The copies of a node hold after it. -/
theorem copied_gens {function : String} : ∀ {node : Node}, node.isStraight →
    ∀ {frame after : Frame} {machine : Machine},
      (Machine.perform function node.instrs frame machine).1 = .ok after → Copied node.gens after
  | .assign target value _, _, frame, after, machine, h, name, source, hcopy => by
      rw [gens] at hcopy
      obtain ⟨rfl, rfl, hne⟩ := eq_of_copyOf hcopy
      rw [instrs, perform_singleton] at h
      have hafter : after = frame.write target (frame.read source) := leaves_of_performOne h
      rw [hafter, Frame.read_write, Frame.read_write, if_pos rfl, if_neg (Ne.symm hne)]
  | .block children _, h, frame, after, machine, hafter, target, source, hcopy => by
      rw [isStraight] at h
      rw [instrs] at hafter
      rw [gens] at hcopy
      exact copied_gensList h (fun hnone => by simp at hnone) hafter hcopy
  | .store _ _ _, _, _, _, _, _, _, _, hcopy | .call _ _ _ _, _, _, _, _, _, _, _, hcopy => by
      simp [gens] at hcopy
  | .start _, h, _, _, _, _, _, _, _ | .ret _, h, _, _, _, _, _, _, _
  | .branch _ _, h, _, _, _, _, _, _, _ | .spin _, h, _, _, _, _, _, _, _
  | .phi _ _, h, _, _, _, _, _, _, _ | .stub _, h, _, _, _, _, _, _, _ => by
      simp [isStraight] at h

/-- Copies that hold before some nodes hold after them as far as they are left, and so do those
added. -/
theorem copied_gensList {function : String} : ∀ {nodes : List Node}, isStraightList nodes →
    ∀ {copies : NameMap String} {frame after : Frame} {machine : Machine}, Copied copies frame →
      (Machine.perform function (instrsList nodes) frame machine).1 = .ok after →
      Copied (gensList copies nodes) after
  | [], _, copies, frame, after, machine, hcopies, hafter => by
      cases hafter
      exact hcopies
  | node :: rest, h, copies, frame, after, machine, hcopies, hafter => by
      rw [isStraightList, Bool.and_eq_true] at h
      obtain ⟨middle, between, hfirst, hrest⟩ := Machine.exists_between hafter
      have hmiddle := congrArg Prod.fst hfirst
      refine copied_gensList h.2 (fun hcopy => ?_) hrest
      rw [getElem?_addCopies, Option.or_eq_some_iff] at hcopy
      rcases hcopy with hnew | ⟨-, hold⟩
      · exact copied_gens h.1 hmiddle hnew
      · obtain ⟨hbefore, htarget, hsource⟩ := getElem?_surviving hold
        rw [read_perform h.1 hmiddle htarget, read_perform h.1 hmiddle hsource]
        exact hcopies hbefore

end

/-- The copies that a node is said to make are made: if it is executed without an error, the two
sides of each of them read alike afterwards. -/
theorem gens_sound {node : Node} (hnode : node.isStraight) :
    node.Realized ∧
    ∀ (function : String) (machine : Machine) (frame after : Frame),
      (Machine.perform function node.instrs frame machine).1 = .ok after →
      ∀ target source, node.gens[target]? = some source → after.read target = after.read source :=
  ⟨realized hnode, fun _ _ _ _ hafter _ _ hcopy => copied_gens hnode hafter hcopy⟩

/-- A chain of copies, the first undone by a call in an inner block. -/
def relaying : Node :=
  .block [.assign "a" (.temp "b") .dummy,
    .block [.assign "c" (.temp "a") .dummy, .call ["x", "b"] "triple" [.temp "c"] .dummy] .dummy,
    .assign "d" (.temp "c") .dummy] .dummy

/-- The copies to `c` and `d` hold; that of `b` to `a` is undone. -/
theorem gens_sound_relaying :
    relaying.isStraight ∧ relaying.gens.toList = [("c", "a"), ("d", "c")] ∧
    ∃ after machine,
      Machine.perform "f" relaying.instrs ((Frame.ofArguments []).write "b" 6) tripling =
        (.ok after, machine) ∧
      after.read "c" = after.read "a" ∧ after.read "d" = after.read "c" ∧
        after.read "a" ≠ after.read "b" := by
  have hstraight : relaying.isStraight := by decide +kernel
  have hdiffer : (Machine.perform "f" relaying.instrs ((Frame.ofArguments []).write "b" 6)
      tripling).1.toOption.map (fun after => after.read "a" != after.read "b") = some true := by
    decide +kernel
  rcases hrun : Machine.perform "f" relaying.instrs ((Frame.ofArguments []).write "b" 6)
    tripling with
    ⟨error | after, machine⟩
  · rw [hrun] at hdiffer
    cases hdiffer
  · rw [hrun] at hdiffer
    have hcopies := (gens_sound hstraight).2 "f" tripling _ after (congrArg Prod.fst hrun)
    exact ⟨hstraight, by decide +kernel, after, machine, rfl, hcopies "c" "a" (by decide +kernel),
      hcopies "d" "c" (by decide +kernel), bne_iff_ne.mp (Option.some.inj hdiffer)⟩

end Node

end Flowgraph
