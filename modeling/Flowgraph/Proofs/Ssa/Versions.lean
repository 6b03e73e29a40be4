import Flowgraph.Ssa.Versions
import Mathlib.Data.List.Nodup
import Std.Data.String.ToNat

/-!
# Versions and phi blocks

Two versions have the same name only if they are the same version of the same variable
(`Versions.versionName_inj`). A node makes new versions of the variables that it defines, in the
order of `Node.definitions`, and dropping them restores the stacks (`Scope.live_foldl_pop`).
-/

namespace Flowgraph

variable {vars : List String} {var : String}

open Std.ExtTreeMap

/-! ### Sets and maps by name -/

/-- Sets list their members once. -/
theorem nodup_toList {α : Type} {cmp : α → α → Ordering} [Std.TransCmp cmp]
    (set : Std.ExtTreeSet α cmp) : set.toList.Nodup := by
  refine List.Pairwise.imp (fun {a b} hne heq => hne ?_) Std.ExtTreeSet.distinct_toList
  rw [heq]
  exact Std.ReflCmp.compare_self

section Maps

variable {β : Type} {entries : List (String × β)} {name : String}

/-- The entry of a listed name. -/
theorem NameMap.getElem?_ofList (hnodup : (entries.map (·.1)).Nodup) {value : β}
    (hmem : (name, value) ∈ entries) :
    (ofList entries compare)[name]? = some value := by
  refine getElem?_ofList_of_mem (k := name) (by simp) ?_ hmem
  exact (List.pairwise_map.mp hnodup).imp fun hne heq => hne (Std.LawfulEqCmp.eq_of_compare heq)

/-- Other names have no entry. -/
theorem NameMap.getElem?_ofList_none (hnot : name ∉ entries.map (·.1)) :
    (ofList entries compare)[name]? = none :=
  getElem?_ofList_of_contains_eq_false (by simpa using hnot)

end Maps

/-! ### Names of versions -/

namespace Versions

variable {stem : List Char} {first : Char} {later : Versions}

/-- Numbers hold no underscore. -/
theorem not_mem_digits (n : Nat) : '_' ∉ (toString n).toList := by
  intro hmem
  rw [Nat.toString_eq_ofList_toDigits, String.toList_ofList] at hmem
  exact absurd (Nat.isDigit_of_mem_toDigits (by decide) (by decide) hmem) (by decide)

/-- The characters of a version. -/
theorem toList_versionName (var : String) (n : Nat) :
    (versionName var n).toList = var.toList ++ '_' :: (toString n).toList := by
  simp [versionName, String.toList_append]

/-- A version begins with its variable and an underscore. -/
theorem begins_versionName (var : String) (n : Nat) :
    (var.toList ++ ['_']) <+: (versionName var n).toList :=
  ⟨(toString n).toList, by rw [toList_versionName, List.append_assoc, List.singleton_append]⟩

/-- The last underscore separates the variable from the number. -/
theorem versionName_inj {var other : String} {m n : Nat} :
    versionName var m = versionName other n ↔ var = other ∧ m = n := by
  refine ⟨fun heq => ?_, fun ⟨hvar, hn⟩ => by rw [hvar, hn]⟩
  have hlists : var.toList ++ '_' :: (toString m).toList = other.toList ++ '_' ::
      (toString n).toList := by
    rw [← toList_versionName, ← toList_versionName, heq]
  have hempty : ∀ {back : List Char} {k l : Nat},
      '_' :: (toString k).toList = back ++ '_' :: (toString l).toList →
      back = [] ∧ (toString k).toList = (toString l).toList := by
    intro back k l hsuffix
    cases back with
    | nil => exact ⟨rfl, List.tail_eq_of_cons_eq hsuffix⟩
    | cons first back =>
      have hmem : '_' ∈ (toString k).toList := by
        rw [List.tail_eq_of_cons_eq hsuffix]
        simp
      exact absurd hmem (not_mem_digits k)
  rcases List.append_eq_append_iff.mp hlists with ⟨back, hback, hsuffix⟩ | ⟨back, hback, hsuffix⟩
  · obtain ⟨rfl, hdigits⟩ := hempty hsuffix
    rw [List.append_nil] at hback
    exact ⟨(String.toList_inj.mp hback).symm, Nat.repr_inj.mp (String.toList_inj.mp hdigits)⟩
  · obtain ⟨rfl, hdigits⟩ := hempty hsuffix
    rw [List.append_nil] at hback
    exact ⟨String.toList_inj.mp hback, (Nat.repr_inj.mp (String.toList_inj.mp hdigits)).symm⟩

/-- Stems end before the underscore. -/
theorem isPrefixOf_append_underscore {text rest : List Char} (hstem : '_' ∉ stem) :
    stem.isPrefixOf (text ++ '_' :: rest) = stem.isPrefixOf text := by
  induction text generalizing stem with
  | nil =>
    cases stem with
    | nil => rfl
    | cons first stem =>
      have hne : first ≠ '_' := fun heq => hstem (heq ▸ List.mem_cons_self)
      simp [List.isPrefixOf, hne]
  | cons char text ih =>
    cases stem with
    | nil => rfl
    | cons first stem => simp [List.isPrefixOf, ih (List.not_mem_of_not_mem_cons hstem)]

/-- Numbers start with a digit. -/
theorem isPrefixOf_digits (hfirst : first.isDigit = false) (stem : List Char) (n : Nat) :
    (first :: stem).isPrefixOf (toString n).toList = false := by
  cases hlist : (toString n).toList with
  | nil => rfl
  | cons digit rest =>
    have hdigit : digit.isDigit := by
      refine Nat.isDigit_of_mem_toDigits (b := 10) (n := n) (by decide) (by decide) ?_
      rw [← String.toList_ofList (l := Nat.toDigits 10 n), ← Nat.toString_eq_ofList_toDigits, hlist]
      exact List.mem_cons_self
    have hne : first ≠ digit := by
      rintro rfl
      exact Bool.noConfusion (hfirst.symm.trans hdigit)
    simp [List.isPrefixOf, hne]

/-- A version begins like a slot only if its variable does. -/
theorem isPrefixOf_versionName (hfirst : first.isDigit = false) (hstem : '_' ∉ first :: stem)
    (var : String) (n : Nat) : ('_' :: first :: stem).isPrefixOf (versionName var n).toList =
      ('_' :: first :: stem).isPrefixOf var.toList := by
  rw [toList_versionName]
  cases var.toList with
  | nil => exact isPrefixOf_digits hfirst stem n
  | cons char text => exact congrArg ('_' == char && ·) (isPrefixOf_append_underscore hstem)

/-- Versions of results are results. -/
theorem isResult_versionName (var : String) (n : Nat) :
    Slot.isResult (versionName var n) = Slot.isResult var :=
  isPrefixOf_versionName (by decide) (by decide) var n

/-- Versions of arguments are arguments. -/
theorem isArgument_versionName (var : String) (n : Nat) :
    Slot.isArgument (versionName var n) = Slot.isArgument var :=
  isPrefixOf_versionName (by decide) (by decide) var n

/-! ### Counters and stacks -/

/-- The current version of a variable. -/
def top (versions : Versions) (var : String) : Nat :=
  (versions.live.getD var []).headD 0

/-- The last version of a variable that was made. -/
def count (versions : Versions) (var : String) : Nat :=
  versions.counters.getD var 0

/-- Exactly the given variables have a counter and a version. -/
structure Tracks (versions : Versions) (vars : List String) : Prop where
  counted : ∀ var, var ∈ versions.counters ↔ var ∈ vars
  stacked : ∀ {var}, var ∈ vars → ∃ rest, versions.live[var]? = some (versions.top var :: rest)
  other : ∀ {var}, var ∉ vars → versions.live[var]? = none

variable {versions : Versions}

/-- Every variable starts at zero. -/
theorem tracks_ofVars (hvars : vars.Nodup) : (ofVars vars).Tracks vars ∧
    ∀ var, (ofVars vars).top var = 0 := by
  have hkeys : ∀ {β : Type} (value : β), ((vars.map (·, value)).map (·.1)) = vars := by
    intro β value
    simp [Function.comp_def]
  have hsome : ∀ {β : Type} (value : β) {var}, var ∈ vars →
      (ofList (vars.map (·, value)) compare)[var]? = some value := by
    intro β value var hvar
    exact NameMap.getElem?_ofList (by rwa [hkeys]) (List.mem_map.mpr ⟨var, hvar, rfl⟩)
  have hnone : ∀ {β : Type} (value : β) {var}, var ∉ vars →
      (ofList (vars.map (·, value)) compare)[var]? = none := by
    intro β value var hvar
    exact NameMap.getElem?_ofList_none (by rwa [hkeys])
  have htop : ∀ var, (ofVars vars).top var = 0 := by
    intro var
    rw [top, getD_eq_getD_getElem?]
    by_cases hvar : var ∈ vars
    · simp [ofVars, hsome _ hvar]
    · simp [ofVars, hnone _ hvar]
  refine ⟨⟨fun var => ?_, fun {var} hvar => ⟨[], ?_⟩, fun {var} hvar => hnone _ hvar⟩, htop⟩
  · rw [mem_iff_isSome_getElem?, ofVars]
    by_cases hvar : var ∈ vars
    · simp [hvar]
    · simp [hvar]
  · rw [htop]
    exact hsome _ hvar

section

variable (h : versions.Tracks vars)
include h

/-- The current version of a variable. -/
theorem Tracks.current?_of_mem (hvar : var ∈ vars) :
    versions.current? var = some (versionName var (versions.top var)) := by
  obtain ⟨rest, hstack⟩ := h.stacked hvar
  simp [current?, hstack]

/-- Other names have no version. -/
theorem Tracks.current?_of_not_mem (hvar : var ∉ vars) : versions.current? var = none := by
  simp [current?, h.other hvar]

/-- Variables are renamed to it. -/
theorem Tracks.current_of_mem (hvar : var ∈ vars) :
    versions.current var = versionName var (versions.top var) := by
  simp [current, h.current?_of_mem hvar]

/-- Other names stay. -/
theorem Tracks.current_of_not_mem (hvar : var ∉ vars) : versions.current var = var := by
  simp [current, h.current?_of_not_mem hvar]

end

/-- The renaming gives each temporary its current name. -/
theorem renamed_renamer (versions : Versions) (uses : NameSet) (name : String) :
    Expr.renamed (versions.renamer uses) name =
      if name ∈ uses then versions.current name else name := by
  have hkeys : ((uses.toList.filterMap fun var => (versions.current? var).map (var, ·)).map
      (·.1)).Nodup := by
    refine List.pairwise_map.mpr (List.Pairwise.filterMap _ (fun var other hne => ?_)
      (nodup_toList uses))
    simp only [Option.map_eq_some_iff]
    rintro _ ⟨_, -, rfl⟩ _ ⟨_, -, rfl⟩
    exact hne
  have hmem : ∀ {current}, (name, current) ∈
      (uses.toList.filterMap fun var => (versions.current? var).map (var, ·)) ↔
        name ∈ uses ∧ versions.current? name = some current := by
    simp
  rw [Expr.renamed, getD_eq_getD_getElem?, renamer, current]
  split
  · next hname =>
    cases hcurrent : versions.current? name with
    | none =>
      rw [NameMap.getElem?_ofList_none]
      simp [hcurrent]
    | some current => rw [NameMap.getElem?_ofList hkeys (hmem.mpr ⟨hname, hcurrent⟩)]
  · next hname =>
    rw [NameMap.getElem?_ofList_none]
    · rfl
    · simp [hname]

/-- Pushing sets one top. -/
theorem top_push (versions : Versions) (var other : String) (version : Nat) :
    (versions.push var version).top other = if var =
      other then version else versions.top other := by
  rw [top, push, getD_insert]
  split <;> simp_all [top]

/-- Pushing sets one counter. -/
theorem count_push (versions : Versions) (var other : String) (version : Nat) :
    (versions.push var version).count other = if var =
      other then version else versions.count other := by
  rw [count, push, getD_insert]
  split <;> simp_all [count]

/-- Pushing tracks the variables. -/
theorem Tracks.push (h : versions.Tracks vars) (hvar : var ∈ vars) (version : Nat) :
    (versions.push var version).Tracks vars where
  counted other := by
    rw [Versions.push, mem_insert, h.counted, Std.LawfulEqCmp.compare_eq_iff_eq]
    exact ⟨fun hother => hother.elim (fun heq => heq ▸ hvar) id, .inr⟩
  stacked {other} hother := by
    rw [top_push, Versions.push, getElem?_insert]
    by_cases heq : var = other
    · subst heq
      simp
    · simpa [heq] using h.stacked hother
  other {other} hother := by
    have hne : var ≠ other := fun heq => hother (heq ▸ hvar)
    rw [Versions.push, getElem?_insert]
    simpa [hne] using h.other hother

/-- Only live versions and counters matter. -/
theorem Tracks.of_live (h : versions.Tracks vars) (hlive : later.live = versions.live)
    (hcounted : ∀ var, var ∈ later.counters ↔ var ∈ vars) : later.Tracks vars where
  counted := hcounted
  stacked hvar := by simpa only [top, hlive] using h.stacked hvar
  other hvar := by simpa only [hlive] using h.other hvar

/-- Popping keeps the counters. -/
theorem counters_foldl_pop (names : List String) (versions : Versions) :
    (names.foldl pop versions).counters = versions.counters := by
  induction names generalizing versions with
  | nil => rfl
  | cons name rest ih =>
    rw [List.foldl_cons, ih, pop]
    split <;> rfl

/-- Dropping a version restores what was current before. -/
theorem Tracks.live_pop_push (h : versions.Tracks vars) (hvar : var ∈ vars) (version : Nat)
    (hlater : later.live = (versions.push var version).live) :
    (later.pop var).live = versions.live := by
  obtain ⟨rest, hstack⟩ := h.stacked hvar
  have htop : later.live[var]? = some (version :: versions.live.getD var []) := by
    simp [hlater, Versions.push]
  rw [pop, htop]
  refine ext_getElem? fun other => ?_
  rw [hlater, Versions.push, getElem?_insert, getElem?_insert]
  by_cases heq : var = other
  · subst heq
    simp [getD_eq_getD_getElem?, hstack]
  · simp [heq]

end Versions

/-! ### Definitions of a node -/

mutual

/-- The variables that a node defines, one for each place, in order. -/
def Node.definitions : Node → List String
  | .assign target _ _ => if Slot.isResult target then [] else [target]
  | .call collectors _ _ _ => collectors
  | .block children _ => definitionsList children
  | .phi mappings _ => mappings.targets
  | _ => []

/-- The variables that several nodes in a row define. -/
def Node.definitionsList : List Node → List String
  | [] => []
  | node :: rest => node.definitions ++ definitionsList rest

end

mutual

/-- The places of definitions are those of defined variables. -/
theorem Node.mem_definitions {var : String} : ∀ {node : Node},
    var ∈ node.definitions ↔ var ∈ node.defs
  | .assign target _ _ => by
      rw [Node.definitions, Node.defs]
      split
      · simp
      · simp [@eq_comm _ var target]
  | .call collectors _ _ _ => by simp [Node.definitions, Node.defs]
  | .block children _ => by
      rw [Node.definitions, Node.defs]
      exact Node.mem_definitionsList
  | .phi mappings _ => by simp [Node.definitions, Node.defs]
  | .start _ | .ret _ | .store _ _ _ | .branch _ _ | .spin _ | .stub _ => by
      simp [Node.definitions, Node.defs]

/-- Definitions of a list. -/
theorem Node.mem_definitionsList {var : String} : ∀ {nodes : List Node},
    var ∈ Node.definitionsList nodes ↔ var ∈ Node.defsList nodes
  | [] => by simp [Node.definitionsList, Node.defsList]
  | node :: rest => by
      simp only [Node.definitionsList, Node.defsList, List.mem_append, Std.ExtTreeSet.mem_union_iff,
        Node.mem_definitions, Node.mem_definitionsList]

end

/-- A scope tracks what its versions do. -/
theorem Versions.Tracks.toScope {versions : Versions} {vars : List String}
    (h : versions.Tracks vars) : ({ versions } : Scope).versions.Tracks vars := h

namespace Scope

open Versions

variable {scope : Scope}

/-- Make the next version of a variable. -/
def renew (scope : Scope) (var : String) : Scope :=
  ⟨scope.versions.push var (scope.versions.count var + 1), var :: scope.defined⟩

/-- Renewing tracks the variables. -/
theorem tracks_renew (h : scope.versions.Tracks vars) (hvar : var ∈ vars) :
    (scope.renew var).versions.Tracks vars :=
  h.push hvar _

/-- Renewing sets one top. -/
theorem top_renew (scope : Scope) (var other : String) : (scope.renew var).versions.top other =
    if var = other then scope.versions.count var + 1 else scope.versions.top other :=
  top_push ..

/-- Renewing sets one counter. -/
theorem count_renew (scope : Scope) (var other : String) : (scope.renew var).versions.count other =
    if var = other then scope.versions.count var + 1 else scope.versions.count other :=
  count_push ..

/-- Counters never fall. -/
theorem count_le_renew (scope : Scope) (var other : String) :
    scope.versions.count other ≤ (scope.renew var).versions.count other := by
  rw [count_renew]
  split
  · next heq => exact heq ▸ Nat.le_succ _
  · exact Nat.le_refl _

/-- Defining a variable renews it. -/
theorem define_of_mem (h : scope.versions.Tracks vars) (hvar : var ∈ vars) : scope.define var =
    (scope.renew var, versionName var (scope.versions.count var + 1)) := by
  obtain ⟨counter, hcounter⟩ := Option.isSome_iff_exists.mp
    (mem_iff_isSome_getElem?.mp ((h.counted var).mpr hvar))
  have hcount : scope.versions.count var = counter := by
    simp [count, getD_eq_getD_getElem?, hcounter]
  simp [define, renew, hcounter, hcount]

/-- Names are defined in turn. -/
theorem defineAll_cons (h : scope.versions.Tracks vars) (hvar : var ∈ vars) (rest : List String) :
    scope.defineAll (var :: rest) = (((scope.renew var).defineAll rest).1,
      versionName var (scope.versions.count var + 1) :: ((scope.renew var).defineAll rest).2) := by
  rw [defineAll, define_of_mem h hvar]

/-- Lists are defined in turn. -/
theorem defineAll_append (scope : Scope) (names others : List String) :
    scope.defineAll (names ++ others) =
      (((scope.defineAll names).1.defineAll others).1,
        (scope.defineAll names).2 ++ ((scope.defineAll names).1.defineAll others).2) := by
  induction names generalizing scope with
  | nil => rfl
  | cons name rest ih => simp [defineAll, ih]

/-- Targets are defined as a list. -/
theorem defineTargets_fst (scope : Scope) (phi : Phi) (targets : List String) :
    (scope.defineTargets phi targets).1 = (scope.defineAll targets).1 := by
  induction targets generalizing scope phi with
  | nil => rfl
  | cons target rest ih => exact ih ..

mutual

/-- A node makes new versions of what it defines, in order. -/
theorem renameNode_fst (scope : Scope) : ∀ node : Node,
    (scope.renameNode node).1 = (scope.defineAll node.definitions).1
  | .assign target _ _ => by
      rw [renameNode, Node.definitions]
      split <;> rfl
  | .call collectors _ _ _ => by rw [renameNode, Node.definitions]
  | .block children _ => by
      rw [renameNode, Node.definitions]
      exact renameNodes_fst scope children
  | .phi phi _ => by
      rw [renameNode, Node.definitions]
      exact defineTargets_fst ..
  | .start _ | .ret _ | .store _ _ _ | .branch _ _ | .spin _ | .stub _ => by
      simp [renameNode, Node.definitions, defineAll]

/-- Renaming defines the definitions. -/
theorem renameNodes_fst (scope : Scope) : ∀ nodes : List Node,
    (scope.renameNodes nodes).1 = (scope.defineAll (Node.definitionsList nodes)).1
  | [] => by rw [renameNodes, Node.definitionsList, defineAll]
  | node :: rest => by
      rw [renameNodes, Node.definitionsList, defineAll_append, ← renameNode_fst scope node]
      exact renameNodes_fst _ rest

end

/-- Renaming keeps the kind. -/
theorem kind_renameNode (scope : Scope) (node : Node) :
    (scope.renameNode node).2.kind = node.kind := by
  cases node with
  | assign =>
    rw [renameNode]
    split <;> rfl
  | _ => simp [renameNode, Node.kind]

section DefineAll

variable {names : List String}

variable (h : scope.versions.Tracks vars) (hnames : ∀ name ∈ names, name ∈ vars)
include h hnames

/-- Defining tracks the variables. -/
theorem tracks_defineAll : (scope.defineAll names).1.versions.Tracks vars := by
  induction names generalizing scope with
  | nil => exact h
  | cons name rest ih =>
    obtain ⟨hname, hrest⟩ := List.forall_mem_cons.mp hnames
    rw [defineAll_cons h hname]
    exact ih (tracks_renew h hname) hrest

/-- Counters only grow. -/
theorem count_le_defineAll (var : String) :
    scope.versions.count var ≤ (scope.defineAll names).1.versions.count var := by
  induction names generalizing scope with
  | nil => exact Nat.le_refl _
  | cons name rest ih =>
    obtain ⟨hname, hrest⟩ := List.forall_mem_cons.mp hnames
    rw [defineAll_cons h hname]
    exact Nat.le_trans (count_le_renew scope name var) (ih (tracks_renew h hname) hrest)

/-- A variable that is not defined keeps its version. -/
theorem top_defineAll_of_not_mem (hvar : var ∉ names) :
    (scope.defineAll names).1.versions.top var = scope.versions.top var := by
  induction names generalizing scope with
  | nil => rfl
  | cons name rest ih =>
    obtain ⟨hname, hrest⟩ := List.forall_mem_cons.mp hnames
    rw [defineAll_cons h hname, ih (tracks_renew h hname) hrest (List.not_mem_of_not_mem_cons hvar),
      top_renew, if_neg (Ne.symm (List.ne_of_not_mem_cons hvar))]

/-- A variable that is defined once gets its next version. -/
theorem defineAll_of_mem (hnodup : names.Nodup) (hvar : var ∈ names) :
    (scope.defineAll names).1.versions.top var = scope.versions.count var + 1 ∧
      scope.versions.count var + 1 ≤ (scope.defineAll names).1.versions.count var := by
  induction names generalizing scope with
  | nil => simp at hvar
  | cons name rest ih =>
    obtain ⟨hname, hrest⟩ := List.forall_mem_cons.mp hnames
    obtain ⟨hnot, hnodup⟩ := List.nodup_cons.mp hnodup
    have hrenew := tracks_renew h hname
    rw [defineAll_cons h hname]
    rcases List.mem_cons.mp hvar with rfl | hvar
    · have hle := count_le_defineAll hrenew hrest var
      rw [count_renew, if_pos rfl] at hle
      rw [top_defineAll_of_not_mem hrenew hrest hnot, top_renew, if_pos rfl]
      exact ⟨rfl, hle⟩
    · have hne : name ≠ var := fun heq => hnot (heq ▸ hvar)
      have hfinal := ih hrenew hrest hnodup hvar
      rwa [count_renew, if_neg hne] at hfinal

/-- Names of new versions, with numbers not given before. -/
theorem mem_defineAll {name : String} (hname : name ∈ (scope.defineAll names).2) :
    ∃ var ∈ names, ∃ n, name = versionName var n ∧ scope.versions.count var < n ∧
      n ≤ (scope.defineAll names).1.versions.count var := by
  induction names generalizing scope with
  | nil => simp [defineAll] at hname
  | cons first rest ih =>
    obtain ⟨hfirst, hrest⟩ := List.forall_mem_cons.mp hnames
    have hrenew := tracks_renew h hfirst
    rw [defineAll_cons h hfirst] at hname ⊢
    rcases List.mem_cons.mp hname with rfl | hname
    · refine ⟨first, List.mem_cons_self, _, rfl, Nat.lt_succ_self _, ?_⟩
      have hle := count_le_defineAll hrenew hrest first
      rwa [count_renew, if_pos rfl] at hle
    · obtain ⟨var, hvar, n, rfl, hlt, hle⟩ := ih hrenew hrest hname
      exact ⟨var, List.mem_cons_of_mem _ hvar, n, rfl,
        Nat.lt_of_le_of_lt (count_le_renew scope first var) hlt, hle⟩

/-- No version is made twice. -/
theorem nodup_defineAll : (scope.defineAll names).2.Nodup := by
  induction names generalizing scope with
  | nil => exact List.nodup_nil
  | cons first rest ih =>
    obtain ⟨hfirst, hrest⟩ := List.forall_mem_cons.mp hnames
    have hrenew := tracks_renew h hfirst
    rw [defineAll_cons h hfirst]
    refine List.nodup_cons.mpr ⟨fun hmem => ?_, ih hrenew hrest⟩
    obtain ⟨var, -, n, heq, hlt, -⟩ := mem_defineAll hrenew hrest hmem
    obtain ⟨rfl, rfl⟩ := versionName_inj.mp heq
    rw [count_renew, if_pos rfl] at hlt
    exact Nat.lt_irrefl _ hlt

/-- Dropping the versions that a node made restores the stacks. -/
theorem live_foldl_pop {later : Versions}
    (hlater : later.live = (scope.defineAll names).1.versions.live) :
    ∃ made, (scope.defineAll names).1.defined = made ++ scope.defined ∧
      (made.foldl Versions.pop later).live = scope.versions.live := by
  induction names generalizing scope later with
  | nil => exact ⟨[], rfl, hlater⟩
  | cons first rest ih =>
    obtain ⟨hfirst, hrest⟩ := List.forall_mem_cons.mp hnames
    rw [defineAll_cons h hfirst] at hlater ⊢
    obtain ⟨made, hmade, hpop⟩ := ih (tracks_renew h hfirst) hrest hlater
    refine ⟨made ++ [first], by rw [List.append_assoc]; exact hmade, ?_⟩
    rw [List.foldl_append]
    exact h.live_pop_push hfirst _ hpop

end DefineAll

end Scope

end Flowgraph
