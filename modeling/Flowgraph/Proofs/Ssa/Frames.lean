import Flowgraph.Proofs.Semantics.Lockstep
import Flowgraph.Proofs.Ssa.Events
import Mathlib.Data.List.Perm.Subperm

/-!
# Running renamed code

`Frame.Renamed`: the current version of a variable holds its value, and all other temporaries are
alike. Renamed code does the same as the code that it was made from, one instruction at a time
(`Scope.Renames.matched`), and returns the same results (`Frame.Renamed.results_eq`) as long as no
variable is a slot.
-/

namespace Flowgraph

open List

variable {frame frame' : Frame} {vars : List String} {top : String → Nat}

open Versions (versionName versionName_inj)

namespace Slot

/-- Result slots are different. -/
theorem result_injective {index index' : Nat} (h : result index = result index') : index = index' :=
  Nat.repr_inj.mp ((String.append_right_inj _).mp h)

/-- Result slots are recognised. -/
theorem isResult_result (index : Nat) : isResult (result index) := by
  simp [isResult, result, isPrefixOf_iff_prefix]

/-- Argument slots are recognised. -/
theorem isArgument_argument (index : Nat) : isArgument (argument index) := by
  simp [isArgument, argument, isPrefixOf_iff_prefix]

end Slot

namespace Frame

/-! ### Results of a frame -/

/-- Only the slots matter. -/
theorem resultsFrom_congr
    (h : ∀ index, frame'.temps[Slot.result index]? = frame.temps[Slot.result index]?)
    (count index : Nat) : frame'.resultsFrom count index = frame.resultsFrom count index := by
  induction count generalizing index with
  | zero => rfl
  | succ count ih => simp only [resultsFrom, h, ih]

/-- Results end at the first slot that was not written. -/
theorem resultsFrom_of_le {length count count' index : Nat}
    (hnone : frame.temps[Slot.result (index + length)]? = none) (h : length ≤ count)
    (h' : length ≤ count') : frame.resultsFrom count index = frame.resultsFrom count' index := by
  induction length generalizing count count' index with
  | zero =>
    rw [Nat.add_zero] at hnone
    cases count <;> cases count' <;> simp [resultsFrom, hnone]
  | succ length ih =>
    obtain ⟨count, rfl⟩ : ∃ rest, count = rest + 1 := ⟨count - 1, by omega⟩
    obtain ⟨count', rfl⟩ : ∃ rest, count' = rest + 1 := ⟨count' - 1, by omega⟩
    rw [← Nat.add_assoc, Nat.add_right_comm] at hnone
    simp only [resultsFrom, ih hnone (Nat.le_of_succ_le_succ h) (Nat.le_of_succ_le_succ h')]

/-- A frame has fewer written result slots in a row than temporaries. -/
theorem exists_unwritten (frame : Frame) :
    ∃ length ≤ frame.temps.size, frame.temps[Slot.result length]? = none := by
  by_contra hall
  have hwritten : (List.range (frame.temps.size + 1)).map Slot.result ⊆ frame.temps.keys := by
    intro name hname
    obtain ⟨index, hindex, rfl⟩ := mem_map.mp hname
    rw [Std.ExtTreeMap.mem_keys, Std.ExtTreeMap.mem_iff_isSome_getElem?, Option.isSome_iff_ne_none]
    exact fun hnone => hall ⟨index, Nat.le_of_lt_succ (mem_range.mp hindex), hnone⟩
  have hnodup : ((List.range (frame.temps.size + 1)).map Slot.result).Nodup :=
    nodup_range.map fun _ _ heq => Slot.result_injective heq
  have hlength := (subperm_of_subset hnodup hwritten).length_le
  rw [length_map, length_range, Std.ExtTreeMap.length_keys] at hlength
  exact Nat.not_succ_le_self _ hlength

/-- Frames with the same result slots have the same results. -/
theorem results_congr
    (h : ∀ index, frame'.temps[Slot.result index]? = frame.temps[Slot.result index]?) :
    frame'.results = frame.results := by
  obtain ⟨length, hle, hnone⟩ := frame.exists_unwritten
  obtain ⟨length', hle', hnone'⟩ := frame'.exists_unwritten
  have hshort : frame.temps[Slot.result (0 + min length length')]? = none := by
    rw [Nat.zero_add]
    rcases Nat.le_total length length' with hmin | hmin
    · rwa [Nat.min_eq_left hmin]
    · rw [Nat.min_eq_right hmin, ← h, hnone']
  rw [results, results, resultsFrom_congr h]
  exact resultsFrom_of_le hshort (Nat.le_trans (Nat.min_le_right ..) hle')
    (Nat.le_trans (Nat.min_le_left ..) hle)

/-! ### Frames up to versions -/

/-- A name that is neither a variable nor a version of one. -/
def Plain (vars : List String) (name : String) : Prop :=
  name ∉ vars ∧ ∀ var ∈ vars, ∀ n, name ≠ versionName var n

/-- Current versions hold the values, and plain names are alike. -/
structure Renamed (vars : List String) (top : String → Nat) (frame frame' : Frame) : Prop where
  read : ∀ {var}, var ∈ vars → frame'.read (versionName var (top var)) = frame.read var
  plain : ∀ {name}, Plain vars name → frame'.temps[name]? = frame.temps[name]?

/-- No variable is a slot of the calling convention. -/
def SlotFree (vars : List String) : Prop :=
  ∀ var ∈ vars, Slot.isResult var = false ∧ Slot.isArgument var = false

section Renamed

variable {value : Word}

/-- Result slots are plain names. -/
theorem plain_of_isResult (hslots : SlotFree vars) {name : String} (hname : Slot.isResult name) :
    Plain vars name := by
  refine ⟨fun hvar => ?_, fun var hvar n heq => ?_⟩
  · simp [(hslots name hvar).1] at hname
  · rw [heq, Versions.isResult_versionName, (hslots var hvar).1] at hname
    exact Bool.noConfusion hname

/-- Missing temporaries are zero. -/
theorem read_eq_getD (frame : Frame) (name : String) :
    frame.read name = frame.temps[name]?.getD 0 :=
  Std.ExtTreeMap.getD_eq_getD_getElem?

/-- Writing sets one temporary. -/
theorem getElem?_write (frame : Frame) (name other : String) (value : Word) :
    (frame.write name value).temps[other]? =
      if name = other then some value else frame.temps[other]? := by
  simp [write, Std.ExtTreeMap.getElem?_insert]

namespace Renamed

variable {top' : String → Nat} {name : String}

/-- Only the versions on top matter. -/
theorem congr (h : Renamed vars top frame frame') (htop : ∀ var ∈ vars, top' var = top var) :
    Renamed vars top' frame frame' where
  read hvar := by rw [htop _ hvar, h.read hvar]
  plain := h.plain

/-- Plain names are read alike. -/
theorem read_plain (h : Renamed vars top frame frame') (hname : Plain vars name) :
    frame'.read name = frame.read name := by
  rw [read_eq_getD, read_eq_getD, h.plain hname]

/-- A function starts alike under its own names and under versions zero. -/
theorem ofArguments (hslots : SlotFree vars) (args : List Word) :
    Renamed vars (fun _ => 0) (.ofArguments args) (.ofArguments args) := by
  have hzero : ∀ {name}, Slot.isArgument name = false → (Frame.ofArguments args).read name = 0 := by
    intro name hname
    suffices hrest : ∀ (frame : Frame) (index : Nat) (args : List Word),
        (frame.writeArguments index args).read name = frame.read name from hrest ..
    intro frame index args
    induction args generalizing frame index with
    | nil => rfl
    | cons value rest ih =>
      have hne : Slot.argument index ≠ name := by
        rintro rfl
        exact Bool.noConfusion (hname.symm.trans (Slot.isArgument_argument index))
      rw [writeArguments, ih, read_write, if_neg hne]
  refine ⟨fun {var} hvar => ?_, fun _ => rfl⟩
  rw [hzero (hslots var hvar).2, hzero (by rw [Versions.isArgument_versionName,
    (hslots var hvar).2])]

variable (h : Renamed vars top frame frame')
include h

/-- The results are the same, because no variable is a result slot. -/
theorem results_eq (hslots : SlotFree vars) : frame'.results = frame.results :=
  results_congr fun index => h.plain (plain_of_isResult hslots (Slot.isResult_result index))

/-- A new version of a variable takes the place of the current one. -/
theorem define {var : String} (hvar : var ∈ vars) {n : Nat}
    (htop : ∀ other, top' other = if var = other then n else top other) (value : Word) :
    Renamed vars top' (frame.write var value) (frame'.write (versionName var n) value) where
  read {other} hother := by
    rw [htop, read_write, read_write]
    by_cases heq : var = other
    · subst heq
      simp
    · have hne : versionName var n ≠ versionName other (top other) := fun hname =>
        heq (versionName_inj.mp hname).1
      rw [if_neg heq, if_neg hne, if_neg heq, h.read hother]
  plain {name} hname := by
    have hne : var ≠ name := fun heq => hname.1 (heq ▸ hvar)
    rw [getElem?_write, getElem?_write, if_neg hne, if_neg (Ne.symm (hname.2 var hvar n)),
      h.plain hname]

/-- A plain name is written in both frames. -/
theorem write (hname : Plain vars name) (value : Word) :
    Renamed vars top (frame.write name value) (frame'.write name value) where
  read {var} hvar := by
    have hne : name ≠ var := fun heq => hname.1 (heq ▸ hvar)
    rw [read_write, read_write, if_neg hne, if_neg (hname.2 var hvar _), h.read hvar]
  plain {other} hother := by
    rw [getElem?_write, getElem?_write, h.plain hother]

end Renamed

end Renamed

end Frame

open Frame (Renamed Plain SlotFree)

/-! ### Renamed expressions -/

/-- Expressions with the same value in frames that agree up to versions. -/
def SameValue (vars : List String) (top : String → Nat) (expr expr' : Expr) : Prop :=
  ∀ {frame frame'}, Renamed vars top frame frame' → ∀ memory,
    expr'.eval frame'.read memory = expr.eval frame.read memory

section SameValue

variable {versions : Versions}

/-- Renaming to current versions keeps the value of an expression. -/
theorem sameValue_replaceTemps (h : versions.Tracks vars) {expr : Expr} {uses : NameSet}
    (hexpr : Unversioned vars expr.freeVars)
    (huses : ∀ name ∈ expr.freeVars, name ∈ vars → name ∈ uses) :
    SameValue vars versions.top expr (expr.replaceTemps (versions.renamer uses)) := by
  intro frame frame' hframes memory
  refine Expr.eval_replaceTemps memory fun name hname => ?_
  rw [Versions.renamed_renamer]
  by_cases hvar : name ∈ vars
  · rw [if_pos (huses name hname hvar), h.current_of_mem hvar, hframes.read hvar]
  · rw [h.current_of_not_mem hvar, ite_self, hframes.read_plain ⟨hvar, hexpr name hname⟩]

/-- An assigned value is renamed as a whole: no variable is an argument slot. -/
theorem sameValue_valueUses (h : versions.Tracks vars) (hslots : SlotFree vars) {value : Expr}
    (hvalue : Unversioned vars value.freeVars) :
    SameValue vars versions.top value
      (value.replaceTemps (versions.renamer (Node.valueUses value))) := by
  refine sameValue_replaceTemps h hvalue fun name hname hvar => ?_
  refine (Node.mem_valueUses hname).resolve_right fun hslot => ?_
  rw [(hslots name hvar).2] at hslot
  cases hslot

/-- Arguments have the same values. -/
theorem evalAll_eq {args args' : List Expr} (h : Forall₂ (SameValue vars top) args args')
    (hframes : Renamed vars top frame frame') (memory : Word → Word) :
    Expr.evalAll frame'.read memory args' = Expr.evalAll frame.read memory args := by
  induction h with
  | nil => rfl
  | cons harg _ ih => simp only [Expr.evalAll, harg hframes, ih]

end SameValue

/-! ### Renamed instructions -/

namespace Scope

variable {scope final : Scope}

/-- Results are received in new versions of the collectors. -/
theorem renamed_collect (htracks : scope.versions.Tracks vars) {names : List String}
    (hnames : ∀ name ∈ names, name ∈ vars)
    (h : Renamed vars scope.versions.top frame frame') (callee : String) (index : Nat)
    (values : List Word) :
    Collected (Renamed vars (scope.defineAll names).1.versions.top)
      (frame.collect callee index names values)
      (frame'.collect callee index (scope.defineAll names).2 values) := by
  induction names generalizing scope frame frame' index values with
  | nil => exact h
  | cons name rest ih =>
    obtain ⟨hname, hrest⟩ := forall_mem_cons.mp hnames
    rw [defineAll_cons htracks hname]
    cases values with
    | nil => exact rfl
    | cons value values =>
      exact ih (tracks_renew htracks hname) hrest
        (h.define hname (top_renew scope name) value) (index + 1) values

/-- The second list is the renaming of the first between two scopes. -/
inductive Renames (vars : List String) : Scope → List Instr → List Instr → Scope → Prop where
  | nil {scope : Scope} : Renames vars scope [] [] scope
  | define {scope final : Scope} {var : String} {value value' : Expr} {rest rest' : List Instr} :
      var ∈ vars → SameValue vars scope.versions.top value value' →
      Renames vars (scope.renew var) rest rest' final →
      Renames vars scope (.move (.temp var) value :: rest)
        (.move (.temp (versionName var (scope.versions.count var + 1))) value' :: rest') final
  | plain {scope final : Scope} {name : String} {value value' : Expr} {rest rest' : List Instr} :
      Plain vars name → SameValue vars scope.versions.top value value' →
      Renames vars scope rest rest' final →
      Renames vars scope (.move (.temp name) value :: rest)
        (.move (.temp name) value' :: rest') final
  | store {scope final : Scope} {address address' value value' : Expr} {rest rest' : List Instr} :
      SameValue vars scope.versions.top address address' →
      SameValue vars scope.versions.top value value' →
      Renames vars scope rest rest' final →
      Renames vars scope (.move (.mem address) value :: rest)
        (.move (.mem address') value' :: rest') final
  | call {scope final : Scope} {collectors : List String} {callee : String} {args args' : List Expr}
      {rest rest' : List Instr} :
      (∀ name ∈ collectors, name ∈ vars) →
      Forall₂ (SameValue vars scope.versions.top) args args' →
      Renames vars (scope.defineAll collectors).1 rest rest' final →
      Renames vars scope (.call collectors callee args :: rest)
        (.call (scope.defineAll collectors).2 callee args' :: rest') final

/-- Stretches are renamed in turn. -/
theorem Renames.append {middle : Scope} {instrs instrs' others others' : List Instr}
    (h : Renames vars scope instrs instrs' middle) (h' : Renames vars middle others others' final) :
    Renames vars scope (instrs ++ others) (instrs' ++ others') final := by
  induction h with
  | nil => exact h'
  | define hvar hvalue _ ih => exact .define hvar hvalue (ih h')
  | plain hname hvalue _ ih => exact .plain hname hvalue (ih h')
  | store haddress hvalue _ ih => exact .store haddress hvalue (ih h')
  | call hnames hargs _ ih => exact .call hnames hargs (ih h')

mutual

/-- Renaming a node renames its instructions. -/
theorem renames_renameNode (hslots : SlotFree vars) {scope : Scope}
    (h : scope.versions.Tracks vars) : ∀ {node : Node}, Suits vars node →
      Renames vars scope node.instrs (scope.renameNode node).2.instrs (scope.renameNode node).1
  | .assign target value span, hnode => by
      have hvalue : SameValue vars scope.versions.top value _ :=
        sameValue_valueUses h hslots hnode.assign
      rw [renameNode, Node.instrs]
      split
      · next hresult =>
        rw [Node.instrs]
        exact .plain (Frame.plain_of_isResult hslots hresult) hvalue .nil
      · next hresult =>
        have htarget : target ∈ vars := hnode.defs target (by simp [Node.definitions, hresult])
        rw [define_of_mem h htarget, Node.instrs]
        exact .define htarget hvalue .nil
  | .store address value span, hnode => by
      obtain ⟨haddress, hvalue⟩ := hnode.store
      rw [renameNode, Node.instrs, Node.instrs]
      exact .store (sameValue_replaceTemps h haddress fun name hname _ => by simp [hname])
        (sameValue_replaceTemps h hvalue fun name hname _ => by simp [hname]) .nil
  | .call collectors callee args span, hnode => by
      rw [renameNode, Node.instrs, Node.instrs]
      refine .call (by simpa only [Node.definitions] using hnode.defs) ?_ .nil
      rw [forall₂_map_right_iff, forall₂_same]
      refine fun arg harg => sameValue_replaceTemps h (hnode.call arg harg) fun name hname _ => ?_
      exact NameSet.mem_unions.mpr ⟨arg.freeVars, mem_map.mpr ⟨arg, harg, rfl⟩, hname⟩
  | .block children span, hnode => by
      rw [renameNode, Node.instrs, Node.instrs]
      exact renames_renameNodes hslots h hnode.block
  | .phi phi span, hnode => absurd hnode.phi (by simp [Node.holdsPhi])
  | .branch _ _, _ | .start _, _ | .ret _, _ | .spin _, _ | .stub _, _ => by
      simp only [renameNode, Node.instrs]
      exact .nil

/-- Lists are renamed in turn. -/
theorem renames_renameNodes (hslots : SlotFree vars) {scope : Scope}
    (h : scope.versions.Tracks vars) : ∀ {nodes : List Node}, SuitsList vars nodes →
      Renames vars scope (Node.instrsList nodes) (Node.instrsList (scope.renameNodes nodes).2)
        (scope.renameNodes nodes).1
  | [], _ => by
      rw [renameNodes, Node.instrsList]
      exact .nil
  | node :: rest, hnodes => by
      obtain ⟨hnode, hrest⟩ := hnodes.cons
      rw [renameNodes, Node.instrsList, Node.instrsList]
      exact (renames_renameNode hslots h hnode).append
        (renames_renameNodes hslots (tracks_renameNode h hnode.defs) hrest)

end

/-- A renamed instruction does what the instruction does. -/
theorem Renames.matched {source target : Body} {rel : PointRel source target}
    {instr instr' : Instr} {rest rest' : List Instr} {resume : source.Control}
    {resume' : target.Control}
    (h : Renames vars scope (instr :: rest) (instr' :: rest') final)
    (htracks : scope.versions.Tracks vars) (hframes : Renamed vars scope.versions.top frame frame')
    (hrel : ∀ {next after after'}, next.versions.Tracks vars → Renames vars next rest rest' final →
      Renamed vars next.versions.top after after' → rel resume after resume' after')
    (name : String) (world : World) :
    Matched rel frame frame' ((instr.effect name frame world).action resume)
      ((instr'.effect name frame' world).action resume') := by
  cases h with
  | @define _ _ var value value' _ _ hvar hvalue hrest =>
    simp only [Instr.effect, hvalue hframes]
    cases value.eval frame.read world.heap.read with
    | error failure => exact rfl
    | ok word =>
      exact ⟨rfl, _, _, .refl, hrel (tracks_renew htracks hvar) hrest
        (hframes.define hvar (top_renew scope var) word)⟩
  | @plain _ _ plain value value' _ _ hplain hvalue hrest =>
    simp only [Instr.effect, hvalue hframes]
    cases value.eval frame.read world.heap.read with
    | error failure => exact rfl
    | ok word => exact ⟨rfl, _, _, .refl, hrel htracks hrest (hframes.write hplain word)⟩
  | @store _ _ address address' value value' _ _ haddress hvalue hrest =>
    simp only [Instr.effect, hvalue hframes, haddress hframes]
    cases value.eval frame.read world.heap.read with
    | error failure => exact rfl
    | ok word =>
      cases address.eval frame.read world.heap.read with
      | error failure => exact rfl
      | ok place => exact ⟨rfl, _, _, .refl, hrel htracks hrest hframes⟩
  | @call _ _ collectors callee args args' _ _ hnames hargs hrest =>
    simp only [Instr.effect, evalAll_eq hargs hframes]
    cases Expr.evalAll frame.read world.heap.read args with
    | error failure => exact rfl
    | ok words =>
      refine ⟨rfl, rfl, fun results => ?_⟩
      exact (renamed_collect htracks hnames hframes callee 0 results).imp
        (hrel (tracks_defineAll htracks hnames) hrest)

end Scope

end Flowgraph
