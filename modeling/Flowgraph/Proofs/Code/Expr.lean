import Flowgraph.Code.Memory

/-!
# Renamed expressions

An expression depends on the temporaries that it reads only (`Expr.eval_congr`). A renamed
expression has the value of the old one wherever the new names hold what the old ones held
(`Expr.eval_replaceTemps`), and `Frame.through` is such a frame.
-/

namespace Flowgraph

namespace Expr

variable {names : NameMap String} {temps temps' : String → Word} {expr : Expr}

/-- Names that are not in the map stay. -/
theorem renamed_eq (names : NameMap String) (name : String) :
    renamed names name = names[name]?.getD name :=
  Std.ExtTreeMap.getD_eq_getD_getElem?

/-- Frames that agree on its temporaries give an expression one value. -/
theorem eval_congr (memory : Word → Word) (h : ∀ name ∈ expr.freeVars, temps name = temps' name) :
    expr.eval temps memory = expr.eval temps' memory := by
  induction expr with
  | const | symbol => rfl
  | temp name => exact congrArg Except.ok (h name (by simp [freeVars]))
  | mem address ih => simp only [eval, ih h]
  | binary op left right ihl ihr =>
    have hleft := ihl fun name hname => h name (by simp [freeVars, hname])
    have hright := ihr fun name hname => h name (by simp [freeVars, hname])
    simp only [eval, hleft, hright]

/-- The variables read decide the values. -/
theorem evalAll_congr (memory : Word → Word) {exprs : List Expr}
    (h : ∀ expr ∈ exprs, ∀ name ∈ expr.freeVars, temps name = temps' name) :
    evalAll temps memory exprs = evalAll temps' memory exprs := by
  induction exprs with
  | nil => rfl
  | cons expr rest ih =>
    obtain ⟨hfirst, hrest⟩ := List.forall_mem_cons.mp h
    simp only [evalAll, eval_congr memory hfirst, ih hrest]

/-- Renaming keeps the value if the new names hold what the old ones held. -/
theorem eval_replaceTemps (memory : Word → Word)
    (h : ∀ name ∈ expr.freeVars, temps' (renamed names name) = temps name) :
    (expr.replaceTemps names).eval temps' memory = expr.eval temps memory := by
  rw [← eval_congr memory h]
  clear h
  induction expr with
  | const | symbol | temp => rfl
  | mem address ih => simp only [replaceTemps, eval, ih]
  | binary op left right ihl ihr => simp only [replaceTemps, eval, ihl, ihr]

/-- A renamed expression reads the new names of what the old one reads. -/
theorem mem_freeVars_replaceTemps {name : String} :
    name ∈ (expr.replaceTemps names).freeVars ↔ ∃ old ∈ expr.freeVars,
      name = renamed names old := by
  induction expr with
  | const | symbol => simp [replaceTemps, freeVars]
  | temp old => simp [replaceTemps, freeVars, @eq_comm _ name]
  | mem address ih => simpa [replaceTemps, freeVars] using ih
  | binary op left right ihl ihr =>
    simp only [replaceTemps, freeVars, Std.ExtTreeSet.mem_union_iff, ihl, ihr]
    constructor
    · rintro (⟨old, hold, rfl⟩ | ⟨old, hold, rfl⟩)
      · exact ⟨old, .inl hold, rfl⟩
      · exact ⟨old, .inr hold, rfl⟩
    · rintro ⟨old, hold | hold, rfl⟩
      · exact .inl ⟨old, hold, rfl⟩
      · exact .inr ⟨old, hold, rfl⟩

end Expr

/-- The frame that is read through a renaming. -/
def Frame.through (frame : Frame) (names : NameMap String) : Frame :=
  ⟨frame.temps ∪ names.map fun _ name => frame.read name⟩

/-- Reading through a renaming of variables. -/
theorem Frame.read_through (frame : Frame) (names : NameMap String) (name : String) :
    (frame.through names).read name = frame.read (Expr.renamed names name) := by
  rw [read, through, Std.ExtTreeMap.getD_union, Std.ExtTreeMap.getD_map, Expr.renamed_eq]
  cases names[name]? <;> rfl

namespace Expr

/-- Renaming the temporaries of an expression is the same as reading the frame through the renaming,
also when evaluation fails. The renamed expression reads the image of the old temporaries, and what
an expression does not read makes no difference to it. -/
theorem eval_substitution (expr : Expr) (names : NameMap String) (frame : Frame) (heap : Heap) :
    (∀ name, (frame.through names).read name = frame.read (names[name]?.getD name)) ∧
      (expr.replaceTemps names).eval frame.read heap.read =
        expr.eval (frame.through names).read heap.read ∧
      (expr.replaceTemps names).freeVars =
        .ofList (expr.freeVars.toList.map fun name => names[name]?.getD name) ∧
      ∀ other : Frame, (∀ name ∈ expr.freeVars, frame.read name = other.read name) →
        expr.eval frame.read heap.read = expr.eval other.read heap.read := by
  simp only [← renamed_eq]
  refine ⟨frame.read_through names, ?_, Std.ExtTreeSet.ext_mem fun name => ?_,
    fun other hagree => ?_⟩
  · exact eval_replaceTemps heap.read fun name _ => (frame.read_through names name).symm
  · rw [mem_freeVars_replaceTemps, Std.ExtTreeSet.mem_ofList, List.contains_iff_mem, List.mem_map]
    simp only [Std.ExtTreeSet.mem_toList, @eq_comm _ name]
  · exact eval_congr heap.read hagree

/-- A quotient of a word in memory by the difference of two temporaries. -/
def pointed : Expr :=
  .binary .div (.mem (.temp "p")) (.binary .sub (.temp "x") (.temp "y"))

/-- Two temporaries swap their names and a third takes one of them. -/
def merging : NameMap String :=
  .ofList [("p", "x"), ("x", "p"), ("y", "p")]

/-- The quotient has a value, but two names became one. -/
theorem eval_substitution_merging :
    let frame := ((({} : Frame).write "p" 8).write "x" 5).write "y" 3
    let other := frame.write "z" 1
    let heap := ({} : Heap).write 8 12
    pointed.eval frame.read heap.read = .ok 6 ∧
      (pointed.replaceTemps merging).eval frame.read heap.read = .error .divisionByZero ∧
      (pointed.replaceTemps merging).eval frame.read heap.read =
        pointed.eval (frame.through merging).read heap.read ∧
      (pointed.replaceTemps merging).freeVars.toList = ["p", "x"] ∧
      pointed.eval frame.read heap.read = pointed.eval other.read heap.read := by
  intro frame other heap
  obtain ⟨-, hvalue, hnames, hagree⟩ := eval_substitution pointed merging frame heap
  have hrenamed : pointed.replaceTemps merging =
      .binary .div (.mem (.temp "x")) (.binary .sub (.temp "p") (.temp "p")) := by decide +kernel
  have hreads : ∀ name ∈ pointed.freeVars.toList, frame.read name = other.read name := by
    decide +kernel
  refine ⟨?_, ?_, hvalue, ?_, hagree other fun name hname => ?_⟩
  · simp [pointed, eval, frame, heap, BinaryOp.apply, BinaryOp.checked]
  · simp [hrenamed, eval, frame, BinaryOp.apply, BinaryOp.checked]
  · rw [hnames]
    decide +kernel
  · exact hreads name (Std.ExtTreeSet.mem_toList.mpr hname)

end Expr

end Flowgraph
