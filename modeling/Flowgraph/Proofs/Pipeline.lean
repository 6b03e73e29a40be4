import Flowgraph.Pipeline
import Flowgraph.Proofs.Flow.Checked
import Flowgraph.Proofs.Flow.Flatten

/-!
# The plain pipeline preserves behaviour

Each function of a unit is simulated by its flow graph and each flow graph by the code that it is
laid out as, in both directions. What remains is to follow functions by name: of two functions with
one name the last one counts (`Function.last?`), in the table of the machine as in the flow graphs.
-/

namespace Flowgraph

variable {name : String} {functions : List Function} {settings : Settings} {unit flat : CodeUnit}

open Std.ExtTreeMap

namespace Outcome

variable {α β : Type} {outcome : Outcome α} {next : α → Outcome β} {result : β}

/-- Both steps succeed. -/
theorem andThen_eq_done :
    outcome.andThen next = done result ↔ ∃ value, outcome = done value ∧
      next value = done result := by
  cases outcome <;> simp

/-- Both steps of a block succeed. -/
theorem bind_eq_done :
    outcome >>= next = done result ↔ ∃ value, outcome = done value ∧ next value = done result :=
  andThen_eq_done

instance (outcome : Outcome α) : Decidable (∃ value, outcome = done value) :=
  match outcome with
  | done value => isTrue ⟨value, rfl⟩
  | failed _ => isFalse (by simp)
  | broken _ => isFalse (by simp)

/-- Results without an error succeed. -/
theorem ofErrors_eq_done {result : Except FlowError α} {value : α} :
    ofErrors result = done value ↔ result = .ok value := by
  cases result <;> simp [ofErrors]

end Outcome

/-! ### The last function with a name -/

/-- The last function with a name. -/
def Function.last? (name : String) : List Function → Option Function
  | [] => none
  | function :: rest =>
    (last? name rest).or (if function.name = name then some function else none)

namespace Function

variable {function : Function}

/-- The last function has the name. -/
theorem last?_eq_some (h : last? name functions = some function) :
    function ∈ functions ∧ function.name = name := by
  induction functions with
  | nil => cases h
  | cons first rest ih =>
    rw [last?] at h
    rcases Option.or_eq_some_iff.mp h with hrest | ⟨-, hfirst⟩
    · exact ⟨List.mem_cons_of_mem _ (ih hrest).1, (ih hrest).2⟩
    · split at hfirst
      · next hname => exact Option.some.inj hfirst ▸ ⟨List.mem_cons_self, hname⟩
      · cases hfirst

/-- No function has the name. -/
theorem last?_eq_none : last? name functions = none ↔ ∀ function ∈ functions,
    function.name ≠ name := by
  induction functions with
  | nil => simp [last?]
  | cons first rest ih => simp [last?, ih, and_comm]

end Function

section Tables

variable {graphs graphs' : NameMap FlowGraph}

/-- The machine runs the last function with a name. -/
theorem CodeUnit.getElem?_codeTable (unit : CodeUnit) :
    unit.codeTable[name]? =
      (Function.last? name unit.functionList).map fun function => Code.ofBody function.body := by
  suffices hall : ∀ (functions : List Function) (table : CodeTable),
      (functions.foldl (fun table function =>
        table.insert function.name (Code.ofBody function.body)) table)[name]? =
      ((Function.last? name functions).map fun function => Code.ofBody function.body).or
        table[name]? by
    simpa [codeTable] using hall unit.functionList ∅
  intro functions
  induction functions with
  | nil => simp [Function.last?]
  | cons first rest ih =>
    intro table
    rw [List.foldl_cons, ih, Function.last?, getElem?_insert]
    cases Function.last? name rest with
    | some function => simp
    | none => by_cases hname : first.name = name <;> simp [hname]

/-- In a keyed unit the machine runs the function under its name. -/
theorem CodeUnit.getElem?_codeTable_of_keyed
    (h : ∀ {key : String} {function : Function}, unit.functions[key]? = some function →
      function.name = key) : unit.codeTable[name]? =
      unit.functions[name]?.map fun function => Code.ofBody function.body := by
  rw [unit.getElem?_codeTable]
  congr 1
  cases hlast : Function.last? name unit.functionList with
  | some function =>
    obtain ⟨hmem, rfl⟩ := Function.last?_eq_some hlast
    obtain ⟨key, hkey⟩ := mem_functionList.mp hmem
    rw [h hkey, hkey]
  | none =>
    cases hname : unit.functions[name]? with
    | none => rfl
    | some function =>
      exact absurd (h hname)
        (Function.last?_eq_none.mp hlast function (mem_functionList.mpr ⟨name, hname⟩))

/-- The flow graph under a name is that of the last function with it. -/
theorem FlowGraph.getElem?_ofFunctions (name : String)
    (h : ofFunctions graphs functions = .ok graphs') : match Function.last? name functions with
    | some function => ∃ cfg, ofBody function.body = .ok cfg ∧ graphs'[name]? = some cfg
    | none => graphs'[name]? = graphs[name]? := by
  induction functions generalizing graphs with
  | nil =>
    cases h
    rfl
  | cons first rest ih =>
    rw [ofFunctions] at h
    split at h
    · cases h
    next cfg hcfg =>
    have hrest := ih h
    rw [Function.last?]
    cases hlast : Function.last? name rest with
    | some function => simpa [hlast] using hrest
    | none =>
      simp only [hlast, getElem?_insert] at hrest
      by_cases hname : first.name = name
      · simpa [hname, hcfg] using hrest
      · simpa [hname] using hrest

/-- Without single assignment form the passes leave a graph as it is. -/
theorem Pipeline.transform_eq (hssa : settings.ssa = false) {cfg cfg' : FlowGraph}
    (h : transform settings cfg = .done cfg') : cfg' = cfg := by
  obtain ⟨_, -, hrest⟩ := Outcome.bind_eq_done.mp h
  simp only [hssa, Bool.false_eq_true, if_false] at hrest
  exact (Outcome.done.inj hrest).symm

/-- Every graph is transformed to itself. -/
theorem Pipeline.getElem?_transformAll (name : String) (hssa : settings.ssa = false)
    {entries : List (String × FlowGraph)}
    (hdistinct : entries.Pairwise fun first second => first.1 ≠ second.1)
    (h : transformAll settings entries graphs = .done graphs') :
    (∀ {cfg}, (name, cfg) ∈ entries → graphs'[name]? = some cfg) ∧
      (name ∉ entries.map Prod.fst → graphs'[name]? = graphs[name]?) := by
  induction entries generalizing graphs with
  | nil =>
    cases h
    simp
  | cons entry rest ih =>
    obtain ⟨first, cfg⟩ := entry
    obtain ⟨cfg', hcfg', hrest⟩ := Outcome.andThen_eq_done.mp h
    obtain rfl := transform_eq hssa hcfg'
    obtain ⟨hfirst, hdistinct⟩ := List.pairwise_cons.mp hdistinct
    obtain ⟨hmem, hnot⟩ := ih hdistinct hrest
    constructor
    · intro other hother
      rcases List.mem_cons.mp hother with heq | hother
      · cases heq
        rw [hnot fun hin => ?_]
        · simp
        · obtain ⟨⟨_, _⟩, hentry, rfl⟩ := List.mem_map.mp hin
          exact hfirst _ hentry rfl
      · exact hmem hother
    · intro hname
      simp only [List.map_cons, List.mem_cons, not_or] at hname
      rw [hnot hname.2, getElem?_insert]
      simp [Ne.symm hname.1]

/-- Without single assignment form the graphs stay as they are. -/
theorem Pipeline.transformAll_eq (hssa : settings.ssa = false)
    (h : transformAll settings graphs.toList ∅ = .done graphs') :
    graphs'[name]? = graphs[name]? := by
  have hdistinct : graphs.toList.Pairwise fun first second => first.1 ≠ second.1 := by
    simpa using graphs.distinct_keys_toList
  obtain ⟨hmem, hnot⟩ := getElem?_transformAll name hssa hdistinct h
  cases hname : graphs[name]? with
  | some cfg => exact hmem (mem_toList_iff_getElem?_eq_some.mpr hname)
  | none =>
    rw [hnot fun hin => ?_]
    · simp
    · obtain ⟨⟨_, cfg⟩, hentry, rfl⟩ := List.mem_map.mp hin
      simp [mem_toList_iff_getElem?_eq_some.mp hentry] at hname

/-- Every function of a unit is held under its name. -/
def CodeUnit.Keyed (unit : CodeUnit) : Prop :=
  ∀ {key : String} {function : Function}, unit.functions[key]? = some function → function.name = key

/-- Added functions keep their key. -/
theorem CodeUnit.Keyed.add (h : unit.Keyed) (function : Function) : (unit.add function).Keyed := by
  intro key other hkey
  simp only [CodeUnit.add, CodeUnit.insert, getElem?_insert] at hkey
  split at hkey
  · next heq =>
    rw [← Option.some.inj hkey]
    simpa using heq
  · exact h hkey

/-- A stray function has the name of a graph. -/
theorem FlowGraph.name_of_mem_strays {function : Function} (h : function ∈ strays graphs unit) :
    ∃ cfg, graphs[function.name]? = some cfg := by
  obtain ⟨⟨name, cfg⟩, hentry, rfl⟩ := List.mem_map.mp h
  exact ⟨cfg, mem_toList_iff_getElem?_eq_some.mp (List.mem_filter.mp hentry).1⟩

/-- The functions that are laid out. -/
theorem FlowGraph.flattenFunctions_spec (name : String) {flat : CodeUnit}
    {supply rest : LabelSupply} (hunit : unit.Keyed)
    (h : flattenFunctions graphs functions unit supply = .done (flat, rest)) : flat.Keyed ∧
      (∀ {cfg}, graphs[name]? = some cfg → (∃ function ∈ functions, function.name = name) →
        ∃ body supply rest, cfg.flatten supply = .done (body, rest) ∧
          flat.functions[name]? = some ⟨name, body⟩) ∧
      ((∀ function ∈ functions, function.name ≠ name) →
        flat.functions[name]? = unit.functions[name]?) := by
  induction functions generalizing unit supply with
  | nil =>
    cases h
    exact ⟨hunit, by simp, fun _ => rfl⟩
  | cons first others ih =>
    -- The first function is laid out, or it keeps its body because it has no graph.
    have hfirst : ∃ function supply', function.name = first.name ∧
        (∀ {cfg}, graphs[first.name]? = some cfg → ∃ supply rest,
          cfg.flatten supply = .done (function.body, rest)) ∧
        flattenFunctions graphs others (unit.add function) supply' = .done (flat, rest) := by
      rw [flattenFunctions] at h
      split at h
      · next hnone => exact ⟨first, supply, rfl, by simp [hnone], h⟩
      · next cfg hcfg =>
        obtain ⟨⟨body, supply'⟩, hbody, hrest⟩ := Outcome.andThen_eq_done.mp h
        refine ⟨⟨first.name, body⟩, supply', rfl, fun hcfg' => ?_, hrest⟩
        obtain rfl := Option.some.inj (hcfg.symm.trans hcfg')
        exact ⟨supply, supply', hbody⟩
    obtain ⟨function, supply', hname, hbody, hrest⟩ := hfirst
    obtain ⟨hkeyed, hlaid, hkept⟩ := ih (hunit.add function) hrest
    have hadd : (unit.add function).functions[name]? =
        if first.name = name then some function else unit.functions[name]? := by
      simp [CodeUnit.add, CodeUnit.insert, getElem?_insert, hname]
    refine ⟨hkeyed, fun hcfg hexists => ?_, fun hnone => ?_⟩
    · by_cases hlater : ∃ other ∈ others, other.name = name
      · exact hlaid hcfg hlater
      · obtain ⟨other, hother, rfl⟩ := hexists
        have hsame : first.name = other.name := by
          rcases List.mem_cons.mp hother with rfl | hother
          · rfl
          · exact absurd ⟨other, hother, rfl⟩ hlater
        obtain ⟨supply, rest, hflatten⟩ := hbody (hsame ▸ hcfg)
        refine ⟨function.body, supply, rest, hflatten, ?_⟩
        rw [hkept fun later hmem heq => hlater ⟨later, hmem, heq⟩, hadd, if_pos hsame, ← hsame,
          ← hname]
    · obtain ⟨hne, hnone⟩ := List.forall_mem_cons.mp hnone
      rw [hkept hnone, hadd, if_neg hne]

end Tables

/-! ### Behaviour -/

namespace Pipeline

/-- A function under a name is missing before and after, or there is a flow graph made from the one
and laid out as the other. -/
theorem function_of_run (hssa : settings.ssa = false) (h : run settings unit = .done flat)
    (name : String) :
    unit.codeTable[name]? = none ∧ flat.codeTable[name]? = none ∨
      ∃ function ∈ unit.functionList, ∃ cfg body supply rest,
        FlowGraph.ofBody function.body = .ok cfg ∧ cfg.flatten supply = .done (body, rest) ∧
        unit.codeTable[name]? = some (.ofBody function.body) ∧
        flat.codeTable[name]? = some (.ofBody body) := by
  obtain ⟨graphs, hgraphs, h⟩ := Outcome.bind_eq_done.mp h
  obtain ⟨transformed, htransformed, h⟩ := Outcome.bind_eq_done.mp h
  obtain ⟨⟨laid, supply⟩, hlaid, h⟩ := Outcome.bind_eq_done.mp h
  cases h
  rw [FlowGraph.ofUnitChecked_eq] at hgraphs
  have hkept : transformed[name]? = graphs[name]? := transformAll_eq hssa htransformed
  have hsource := FlowGraph.getElem?_ofFunctions name (Outcome.ofErrors_eq_done.mp hgraphs)
  obtain ⟨hkeyed, hflat, hnone⟩ := FlowGraph.flattenFunctions_spec name
    (fun {key function} hkey => by simp at hkey) hlaid
  rw [CodeUnit.getElem?_codeTable, CodeUnit.getElem?_codeTable_of_keyed hkeyed]
  cases hlast : Function.last? name unit.functionList with
  | none =>
    rw [hlast] at hsource
    have hgraph : transformed[name]? = none := hkept.trans (hsource.trans (by simp))
    have hmissing : ∀ function ∈ unit.functionList ++ FlowGraph.strays transformed unit,
        function.name ≠ name := by
      intro function hmem
      rcases List.mem_append.mp hmem with hmem | hstray
      · exact Function.last?_eq_none.mp hlast function hmem
      · exact (FlowGraph.name_of_mem_strays hstray).elim fun cfg hcfg heq => by
          simp [← heq, hcfg] at hgraph
    rw [hnone hmissing]
    exact .inl ⟨rfl, by simp⟩
  | some function =>
    rw [hlast] at hsource
    obtain ⟨cfg, hcfg, hgraph⟩ := hsource
    obtain ⟨hmem, hname⟩ := Function.last?_eq_some hlast
    obtain ⟨body, supply, rest, hflatten, hbody⟩ :=
      hflat (hkept.trans hgraph) ⟨function, List.mem_append_left _ hmem, hname⟩
    exact .inr ⟨function, hmem, cfg, body, supply, rest, hcfg, hflatten, rfl, by simp [hbody]⟩

/-- The functions before and after simulate the flow graph in between, and it simulates them. -/
theorem simulated_of_run (hssa : settings.ssa = false)
    (honce : ∀ function ∈ unit.functionList, function.body.definedLabels.Nodup)
    (hrun : run settings unit = .done flat) (name : String) :
    ∃ middle, Program.Simulated (Program.ofTable unit.codeTable name) middle ∧
      Program.Simulated middle (Program.ofTable flat.codeTable name) ∧
      Program.Simulated (Program.ofTable flat.codeTable name) middle ∧
      Program.Simulated middle (Program.ofTable unit.codeTable name) := by
  rcases function_of_run hssa hrun name with
    ⟨hunit, hflat⟩ | ⟨function, hmem, cfg, body, supply, rest, hcfg, hflatten, hunit, hflat⟩
  · refine ⟨none, ?_⟩
    simp [Program.ofTable, hunit, hflat, Program.Simulated]
  · obtain ⟨hto, hfrom⟩ := FlowGraph.simulations_of_ofBody hcfg (honce function hmem) name
    obtain ⟨hto', hfrom'⟩ := FlowGraph.simulations_of_flatten (.ofBody hcfg) hflatten name
    refine ⟨some (.ofGraph name cfg), ?_⟩
    rw [Program.ofTable, Program.ofTable, hunit, hflat]
    exact ⟨hto, hto', hfrom', hfrom⟩

/-- For a unit without labels that are defined twice, the plain pipeline preserves behaviour: calls
reach given answers on the unit with some fuel exactly if they do so on the result. An answer holds
the result of the call, the heap and the output. -/
theorem answers_iff_of_run (hssa : settings.ssa = false)
    (honce : ∀ function ∈ unit.functionList, function.body.definedLabels.Nodup)
    (hrun : run settings unit = .done flat) (world : World) (calls : List (String × List Word))
    (expected : List (Result × World))
    (hfuel : ∀ answer ∈ expected, answer.1 ≠ .error .outOfFuel) :
    (∃ fuel, { Machine.ofUnit unit with world, fuel }.answers calls = expected) ↔
      ∃ fuel, { Machine.ofUnit flat with world, fuel }.answers calls = expected := by
  choose middle hto hto' hfrom' hfrom using simulated_of_run hssa honce hrun
  have hthere : (Program.ofTable unit.codeTable).Refines (.ofTable flat.codeTable) :=
    (Program.Refines.of_simulations hto).trans (.of_simulations hto')
  have hback : (Program.ofTable flat.codeTable).Refines (.ofTable unit.codeTable) :=
    (Program.Refines.of_simulations hfrom').trans (.of_simulations hfrom)
  exact Machine.answers_congr hthere hback hfuel

/-- A function under another key that prints the numbers below its argument, with a loop, dead code
and a jump that leads nowhere. -/
def countdown : CodeUnit :=
  let body : List Instr :=
    [.label "again", .branch (.temp "_ARG0") "more", .jump "end", .label "nowhere", .jump "nowhere",
      .label "more", .move (.temp "_ARG0") (.binary .sub (.temp "_ARG0") (.const 1)),
      .call [] "print" [.temp "_ARG0"], .jump "again", .label "end",
      .move (.temp "_RET0") (.temp "_ARG0")]
  CodeUnit.insert { name := "test" } "entry" ⟨"down", .seq (body.map (.instr · .dummy)) .dummy⟩

/-- The countdown from two prints one and zero, before and after. -/
theorem answers_iff_of_run_countdown :
    ∃ flat, run {} countdown = .done flat ∧ ∃ fuel,
      { Machine.ofUnit flat with fuel }.answers [("down", [2])] =
        [(.ok [0], { output := #[1, 0] })] := by
  obtain ⟨flat, hrun⟩ : ∃ flat, run {} countdown = .done flat := by decide +kernel
  have honce : ∀ function ∈ countdown.functionList, function.body.definedLabels.Nodup := by
    decide +kernel
  have hcalls : { Machine.ofUnit countdown with fuel := 20 }.answers [("down", [2])] =
      [(.ok [0], { output := #[1, 0] })] := by decide +kernel
  exact ⟨flat, hrun, (answers_iff_of_run rfl honce hrun {} _ _ (by simp)).mp ⟨20, hcalls⟩⟩

end Pipeline

end Flowgraph
