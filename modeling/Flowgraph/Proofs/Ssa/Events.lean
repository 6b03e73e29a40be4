import Flowgraph.Proofs.Code.Expr
import Flowgraph.Proofs.Ssa.Phi

/-!
# Reads and definitions in order

The events of a node are its reads and definitions of temporaries, in order. `LastVersion` says
which version of a variable was defined last. A node that is renamed with the versions defined last
reads these, and leaves the versions that are defined last after it (`Scope.current_renameNode`).
-/

namespace Flowgraph

open Std.ExtTreeSet

/-- A read or a definition of a temporary. -/
inductive Event where
  | read (name : String)
  | define (name : String)
  deriving DecidableEq

/-- The reads of an expression. -/
def Expr.reads (expr : Expr) : List Event :=
  expr.freeVars.toList.map .read

mutual

/-- The reads and definitions of a node in order. Arguments of a phi block are read on the edges to
it. -/
def Node.events : Node → List Event
  | .assign target value _ => value.reads ++ if Slot.isResult target then [] else [.define target]
  | .store address value _ => value.reads ++ address.reads
  | .call collectors _ args _ => args.flatMap Expr.reads ++ collectors.map .define
  | .branch cond _ => cond.reads
  | .block children _ => eventsList children
  | .phi mappings _ => mappings.targets.map .define
  | _ => []

/-- The reads and definitions of several nodes in a row. -/
def Node.eventsList : List Node → List Event
  | [] => []
  | node :: rest => node.events ++ eventsList rest

end

mutual

/-- The temporaries that occur in a node. -/
def Node.temps : Node → NameSet
  | .assign target value _ => {target} ∪ value.freeVars
  | .store address value _ => address.freeVars ∪ value.freeVars
  | .call collectors _ args _ => .ofList collectors ∪ NameSet.unions (args.map Expr.freeVars)
  | .branch cond _ => cond.freeVars
  | .block children _ => tempsList children
  | .phi ⟨_, mappings⟩ _ => .ofList (mappings.toList.flatMap fun entry => entry.1 :: entry.2)
  | _ => ∅

/-- The temporaries that occur in several nodes. -/
def Node.tempsList : List Node → NameSet
  | [] => ∅
  | node :: rest => node.temps ∪ tempsList rest

end

mutual

/-- Whether a node is a phi node or a block with a phi node in it. -/
def Node.holdsPhi : Node → Bool
  | .phi _ _ => true
  | .block children _ => holdsPhiList children
  | _ => false

/-- Whether one of several nodes is or holds a phi node. -/
def Node.holdsPhiList : List Node → Bool
  | [] => false
  | node :: rest => node.holdsPhi || holdsPhiList rest

end

mutual

/-- What a node defines occurs in it. -/
theorem Node.mem_temps_of_mem_definitions {var : String} : ∀ {node : Node},
    var ∈ node.definitions → var ∈ node.temps
  | .assign target _ _, h => by
      rw [Node.definitions] at h
      split at h
      · simp at h
      · obtain rfl := List.mem_singleton.mp h
        simp [Node.temps]
  | .call collectors _ _ _, h => by
      rw [Node.definitions] at h
      simp [Node.temps, h]
  | .block children _, h => by
      rw [Node.definitions] at h
      simpa [Node.temps] using Node.mem_tempsList_of_mem_definitionsList h
  | .phi mappings _, h => by
      rw [Node.definitions, Phi.targets] at h
      obtain ⟨entry, hentry, rfl⟩ := List.mem_map.mp h
      rw [Node.temps, mem_ofList, List.contains_iff_mem]
      exact List.mem_flatMap.mpr ⟨entry, hentry, List.mem_cons_self⟩
  | .start _, h | .ret _, h | .store _ _ _, h | .branch _ _, h | .spin _, h | .stub _, h => by
      simp [Node.definitions] at h

/-- Defined variables are temporaries. -/
theorem Node.mem_tempsList_of_mem_definitionsList {var : String} : ∀ {nodes : List Node},
    var ∈ Node.definitionsList nodes → var ∈ Node.tempsList nodes
  | [], h => by simp [Node.definitionsList] at h
  | node :: rest, h => by
      rw [Node.tempsList, mem_union_iff]
      exact (List.mem_append.mp (by simpa only [Node.definitionsList] using h)).imp
        Node.mem_temps_of_mem_definitions Node.mem_tempsList_of_mem_definitionsList

end

/-! ### The version defined last -/

open Versions (versionName versionName_inj)

variable {var : String} {events others earlier : List Event} {vars : List String}

/-- The last version of a variable, where zero stands for none. -/
def LastVersion (var : String) (n : Nat) (events : List Event) : Prop :=
  (1 ≤ n ∧ ∃ before after, events = before ++ .define (versionName var n) :: after ∧
    ∀ k, .define (versionName var k) ∉ after) ∨
  n = 0 ∧ ∀ k, .define (versionName var k) ∉ events

namespace LastVersion

variable {n : Nat}

/-- Before the first event. -/
theorem nil (var : String) : LastVersion var 0 [] :=
  .inr ⟨rfl, by simp⟩

/-- Events that do not define a variable leave its last version. -/
theorem append (h : LastVersion var n events)
    (hothers : ∀ k, .define (versionName var k) ∉ others) :
    LastVersion var n (events ++ others) := by
  rcases h with ⟨hn, before, after, rfl, hafter⟩ | ⟨rfl, hnone⟩
  · refine .inl ⟨hn, before, after ++ others, by simp, fun k hk => ?_⟩
    rcases List.mem_append.mp hk with hk | hk
    · exact hafter k hk
    · exact hothers k hk
  · refine .inr ⟨rfl, fun k hk => ?_⟩
    rcases List.mem_append.mp hk with hk | hk
    · exact hnone k hk
    · exact hothers k hk

/-- A definition makes its version the last one. -/
theorem define (hn : 1 ≤ n) (events : List Event)
    (hothers : ∀ k, .define (versionName var k) ∉ others) :
    LastVersion var n (events ++ .define (versionName var n) :: others) :=
  .inl ⟨hn, events, others, rfl, hothers⟩

end LastVersion

/-- Every read of a version reads the last one. -/
def ReadsLast (vars : List String) (earlier events : List Event) : Prop :=
  ∀ before after var n, var ∈ vars → events = before ++ .read (versionName var n) :: after →
    LastVersion var n (earlier ++ before)

namespace ReadsLast

/-- Reads of two stretches. -/
theorem append (h : ReadsLast vars earlier events)
    (h' : ReadsLast vars (earlier ++ events) others) :
    ReadsLast vars earlier (events ++ others) := by
  intro before after var n hvar heq
  rcases List.append_eq_append_iff.mp heq with ⟨middle, rfl, hrest⟩ | ⟨middle, rfl, hrest⟩
  · rw [← List.append_assoc]
    exact h' middle after var n hvar hrest
  · cases middle with
    | nil =>
      simpa using h' [] after var n hvar (by simpa using hrest.symm)
    | cons first middle =>
      obtain ⟨rfl, -⟩ := List.cons_eq_cons.mp hrest
      exact h before middle var n hvar rfl

/-- Definitions read nothing. -/
theorem of_defines (names : List String) : ReadsLast vars earlier (names.map .define) := by
  intro before after var n _ heq
  have hmem : Event.read (versionName var n) ∈ names.map Event.define := by simp [heq]
  simp at hmem

/-- Several reads in a row. -/
theorem of_reads {names : List String} (h : ∀ var ∈ vars, ∀ n, versionName var n ∈ names →
    LastVersion var n earlier) : ReadsLast vars earlier (names.map .read) := by
  intro before after var n hvar heq
  have hmem : versionName var n ∈ names := by
    have : Event.read (versionName var n) ∈ names.map Event.read := by simp [heq]
    simpa using this
  refine (h var hvar n hmem).append fun k hk => ?_
  have : Event.define (versionName var k) ∈ names.map Event.read := by simp [heq, hk]
  simp at this

end ReadsLast

/-! ### Renamed expressions -/

section Renamed

variable {versions : Versions} {uses : NameSet} {expr : Expr}

/-- A set of temporaries holds no version of the variables. -/
def Unversioned (vars : List String) (temps : NameSet) : Prop :=
  ∀ temp ∈ temps, ∀ var ∈ vars, ∀ n, temp ≠ versionName var n

/-- It is enough to look at the beginnings of temporaries. -/
theorem Unversioned.of_not_begins {temps : NameSet} (h : ∀ temp ∈ temps.toList, ∀ var ∈ vars,
    ¬ (var.toList ++ ['_']) <+: temp.toList) : Unversioned vars temps := by
  intro temp htemp var hvar n heq
  exact h temp (mem_toList.mpr htemp) var hvar (heq ▸ Versions.begins_versionName var n)

section

variable (h : versions.Tracks vars) (hexpr : Unversioned vars expr.freeVars)
include h hexpr

/-- A version that a renamed expression reads is the current one. -/
theorem Versions.Tracks.read_eq_top {n : Nat} (hvar : var ∈ vars)
    (hread : versionName var n ∈ (expr.replaceTemps (versions.renamer uses)).freeVars) :
    n = versions.top var := by
  obtain ⟨old, hold, heq⟩ := Expr.mem_freeVars_replaceTemps.mp hread
  rw [Versions.renamed_renamer] at heq
  split at heq
  · by_cases holdVar : old ∈ vars
    · rw [h.current_of_mem holdVar] at heq
      obtain ⟨rfl, rfl⟩ := versionName_inj.mp heq
      rfl
    · rw [h.current_of_not_mem holdVar] at heq
      exact absurd heq.symm (hexpr old hold var hvar n)
  · exact absurd heq.symm (hexpr old hold var hvar n)

/-- Renamed expressions read what is current. -/
theorem ReadsLast.of_expr (hearlier : ∀ var ∈ vars, LastVersion var (versions.top var) earlier) :
    ReadsLast vars earlier (expr.replaceTemps (versions.renamer uses)).reads := by
  refine .of_reads fun var hvar n hread => ?_
  rw [h.read_eq_top hexpr hvar (mem_toList.mp hread)]
  exact hearlier var hvar

end

/-- Renamed reads do not read a variable under its own name. -/
theorem Versions.Tracks.not_mem_freeVars (h : versions.Tracks vars)
    (hfresh : ∀ var ∈ vars, ∀ n, versionName var n ∉ vars)
    (huses : ∀ temp ∈ expr.freeVars, temp ∈ uses) (hvar : var ∈ vars) :
    var ∉ (expr.replaceTemps (versions.renamer uses)).freeVars := by
  intro hread
  obtain ⟨old, hold, heq⟩ := Expr.mem_freeVars_replaceTemps.mp hread
  rw [Versions.renamed_renamer, if_pos (huses old hold)] at heq
  by_cases holdVar : old ∈ vars
  · rw [h.current_of_mem holdVar] at heq
    exact hfresh old holdVar _ (heq ▸ hvar)
  · rw [h.current_of_not_mem holdVar] at heq
    exact holdVar (heq ▸ hvar)

/-- Expressions define nothing. -/
theorem Expr.not_define_mem_reads (expr : Expr) (name : String) : .define name ∉ expr.reads := by
  simp [reads]

end Renamed

/-! ### Renamed nodes -/

namespace Scope

variable {scope : Scope} {names : List String} {node : Node}

/-- The versions that definitions make are the last ones after them. -/
theorem lastVersion_defineAll (h : scope.versions.Tracks vars)
    (hnames : ∀ name ∈ names, name ∈ vars)
    (hearlier : ∀ var ∈ vars, LastVersion var (scope.versions.top var) earlier) :
    ∀ var ∈ vars, LastVersion var ((scope.defineAll names).1.versions.top var)
      (earlier ++ (scope.defineAll names).2.map .define) := by
  induction names generalizing scope earlier with
  | nil => simpa [defineAll] using hearlier
  | cons name rest ih =>
    obtain ⟨hname, hrest⟩ := List.forall_mem_cons.mp hnames
    rw [defineAll_cons h hname, List.map_cons, List.append_cons]
    refine ih (tracks_renew h hname) hrest fun var hvar => ?_
    rw [top_renew]
    split
    · next heq =>
      subst heq
      exact .define (Nat.le_add_left ..) earlier (by simp)
    · next hne =>
      refine (hearlier var hvar).append fun k hk => ?_
      simp only [List.mem_singleton, Event.define.injEq, versionName_inj] at hk
      exact hne hk.1.symm

/-- No phi nodes, no temporaries that are versions, and tracked definitions. -/
structure Suits (vars : List String) (node : Node) : Prop where
  phi : node.holdsPhi = false
  temps : Unversioned vars node.temps
  defs : ∀ var ∈ node.definitions, var ∈ vars

/-- Several nodes in a row without phi nodes in them. -/
structure SuitsList (vars : List String) (nodes : List Node) : Prop where
  phi : Node.holdsPhiList nodes = false
  temps : Unversioned vars (Node.tempsList nodes)
  defs : ∀ var ∈ Node.definitionsList nodes, var ∈ vars

/-- The children of a block are suited. -/
theorem Suits.block {children : List Node} {span : Span} (h : Suits vars (.block children span)) :
    SuitsList vars children where
  phi := by simpa only [Node.holdsPhi] using h.phi
  temps := by simpa only [Node.temps] using h.temps
  defs := by simpa only [Node.definitions] using h.defs

/-- The first node and the rest. -/
theorem SuitsList.cons {rest : List Node} (h : SuitsList vars (node :: rest)) :
    Suits vars node ∧ SuitsList vars rest := by
  obtain ⟨hphi, htemps, hdefs⟩ := h
  simp only [Node.holdsPhiList, Bool.or_eq_false_iff] at hphi
  simp only [Node.tempsList, Unversioned, mem_union_iff] at htemps
  simp only [Node.definitionsList, List.mem_append] at hdefs
  exact ⟨⟨hphi.1, fun temp htemp => htemps temp (.inl htemp), fun var hvar =>
    hdefs var (.inl hvar)⟩,
    hphi.2, fun temp htemp => htemps temp (.inr htemp), fun var hvar => hdefs var (.inr hvar)⟩

section Uses

variable {value address : Expr} {span : Span}

/-- The names an assignment reads. -/
theorem Suits.assign {target : String} (h : Suits vars (.assign target value span)) :
    Unversioned vars value.freeVars :=
  fun temp htemp => h.temps temp (by simp [Node.temps, htemp])

/-- The names a store reads. -/
theorem Suits.store (h : Suits vars (.store address value span)) :
    Unversioned vars address.freeVars ∧ Unversioned vars value.freeVars := by
  have htemps : Unversioned vars (address.freeVars ∪ value.freeVars) := by
    simpa only [Node.temps] using h.temps
  exact ⟨fun temp htemp => htemps temp (mem_union_iff.mpr (.inl htemp)),
    fun temp htemp => htemps temp (mem_union_iff.mpr (.inr htemp))⟩

/-- The names a call reads. -/
theorem Suits.call {collectors : List String} {callee : String} {args : List Expr}
    (h : Suits vars (.call collectors callee args span)) :
    ∀ arg ∈ args, Unversioned vars arg.freeVars := by
  intro arg harg temp htemp
  refine h.temps temp ?_
  rw [Node.temps, mem_union_iff, NameSet.mem_unions]
  exact .inr ⟨arg.freeVars, List.mem_map.mpr ⟨arg, harg, rfl⟩, htemp⟩

end Uses

/-- Renamed nodes read the last versions and make the current ones the last. -/
def KeepsCurrent (vars : List String) (earlier : List Event) (scope : Scope) (events : List Event) :
    Prop :=
  ReadsLast vars earlier events ∧
    ∀ var ∈ vars, LastVersion var (scope.versions.top var) (earlier ++ events)

/-- Events that only read leave the versions. -/
theorem KeepsCurrent.of_reads {events : List Event} (hreads : ReadsLast vars earlier events)
    (hnone : ∀ name, .define name ∉ events)
    (hearlier : ∀ var ∈ vars, LastVersion var (scope.versions.top var) earlier) :
    KeepsCurrent vars earlier scope events :=
  ⟨hreads, fun var hvar => (hearlier var hvar).append fun _ => hnone _⟩

/-- Reads, and then definitions. -/
theorem KeepsCurrent.define {events : List Event} (h : KeepsCurrent vars earlier scope events)
    (htracks : scope.versions.Tracks vars) (hnames : ∀ name ∈ names, name ∈ vars) :
    KeepsCurrent vars earlier (scope.defineAll names).1
      (events ++ (scope.defineAll names).2.map .define) := by
  refine ⟨h.1.append (.of_defines _), fun var hvar => ?_⟩
  rw [← List.append_assoc]
  exact lastVersion_defineAll htracks hnames h.2 var hvar

/-- Expressions keep the versions current. -/
theorem KeepsCurrent.of_expr {expr : Expr} {uses : NameSet} (h : scope.versions.Tracks vars)
    (hexpr : Unversioned vars expr.freeVars)
    (hearlier : ∀ var ∈ vars, LastVersion var (scope.versions.top var) earlier) :
    KeepsCurrent vars earlier scope (expr.replaceTemps (scope.versions.renamer uses)).reads :=
  .of_reads (.of_expr h hexpr hearlier) (Expr.not_define_mem_reads _) hearlier

/-- Two stretches keep them current. -/
theorem KeepsCurrent.append {middle last : Scope} {events others : List Event}
    (h : KeepsCurrent vars earlier middle events)
    (h' : KeepsCurrent vars (earlier ++ events) last others) :
    KeepsCurrent vars earlier last (events ++ others) :=
  ⟨h.1.append h'.1, by simpa only [List.append_assoc] using h'.2⟩

/-- Renaming a node tracks the variables. -/
theorem tracks_renameNode (h : scope.versions.Tracks vars)
    (hdefs : ∀ var ∈ node.definitions, var ∈ vars) :
    (scope.renameNode node).1.versions.Tracks vars :=
  renameNode_fst scope node ▸ tracks_defineAll h hdefs

mutual

/-- Renaming with the last versions reads and leaves the last versions. -/
theorem current_renameNode {scope : Scope} {earlier : List Event} (h : scope.versions.Tracks vars)
    (hearlier : ∀ var ∈ vars, LastVersion var (scope.versions.top var) earlier) :
    ∀ {node : Node}, Suits vars node →
      KeepsCurrent vars earlier (scope.renameNode node).1 (scope.renameNode node).2.events
  | .assign target value span, hnode => by
      have hreads : KeepsCurrent vars earlier scope
          (value.replaceTemps (scope.versions.renamer (Node.valueUses value))).reads :=
        .of_expr h hnode.assign hearlier
      rw [renameNode]
      split
      · next hresult => simpa [Node.events, hresult] using hreads
      · next hresult =>
        have htarget : target ∈ vars := hnode.defs target (by simp [Node.definitions, hresult])
        have hdefine := hreads.define h (List.forall_mem_singleton.mpr htarget)
        rw [defineAll_cons h htarget, defineAll] at hdefine
        simpa [define_of_mem h htarget, Node.events, Versions.isResult_versionName, hresult]
          using hdefine
  | .store address value span, hnode => by
      obtain ⟨haddress, hvalue⟩ := hnode.store
      have hfirst : KeepsCurrent vars earlier scope (value.replaceTemps
          (scope.versions.renamer (address.freeVars ∪ value.freeVars))).reads :=
        .of_expr h hvalue hearlier
      rw [renameNode, Node.events]
      exact hfirst.append (.of_expr h haddress hfirst.2)
  | .call collectors callee args span, hnode => by
      rw [renameNode]
      dsimp only
      rw [Node.events]
      refine KeepsCurrent.define (.of_reads ?_ ?_ hearlier) h
        (by simpa only [Node.definitions] using hnode.defs)
      · unfold Expr.reads
        rw [← List.map_flatMap]
        refine .of_reads fun var hvar n hread => ?_
        obtain ⟨renamed, hrenamed, hread⟩ := List.mem_flatMap.mp hread
        obtain ⟨arg, harg, rfl⟩ := List.mem_map.mp hrenamed
        rw [h.read_eq_top (hnode.call arg harg) hvar (mem_toList.mp hread)]
        exact hearlier var hvar
      · intro name hname
        obtain ⟨arg, -, harg⟩ := List.mem_flatMap.mp hname
        exact Expr.not_define_mem_reads arg name harg
  | .branch cond span, hnode => by
      rw [renameNode, Node.events]
      exact .of_expr h (by simpa only [Node.temps] using hnode.temps) hearlier
  | .block children span, hnode => by
      rw [renameNode]
      exact current_renameNodes h hearlier hnode.block
  | .phi phi span, hnode => absurd hnode.phi (by simp [Node.holdsPhi])
  | .start span, hnode | .ret span, hnode | .spin span, hnode | .stub span, hnode => by
      rw [renameNode]
      exact .of_reads (.of_defines []) (by simp [Node.events]) hearlier

/-- Renaming a list keeps them current. -/
theorem current_renameNodes {scope : Scope} {earlier : List Event} (h : scope.versions.Tracks vars)
    (hearlier : ∀ var ∈ vars, LastVersion var (scope.versions.top var) earlier) :
    ∀ {nodes : List Node}, SuitsList vars nodes →
      KeepsCurrent vars earlier (scope.renameNodes nodes).1
        (Node.eventsList (scope.renameNodes nodes).2)
  | [], _ => by
      rw [renameNodes]
      exact .of_reads (.of_defines []) (by simp [Node.eventsList]) hearlier
  | node :: rest, hnodes => by
      obtain ⟨hnode, hrest⟩ := hnodes.cons
      rw [renameNodes]
      have hfirst := current_renameNode h hearlier hnode
      exact hfirst.append (current_renameNodes (tracks_renameNode h hnode.defs) hfirst.2 hrest)

end

mutual

/-- A renamed node defines the versions that its definitions made. -/
theorem definitions_renameNode {scope : Scope} (h : scope.versions.Tracks vars) :
    ∀ {node : Node}, Suits vars node →
      (scope.renameNode node).2.definitions = (scope.defineAll node.definitions).2
  | .assign target value span, hnode => by
      rw [renameNode]
      split
      · next hresult => simp [Node.definitions, hresult, defineAll]
      · next hresult =>
        have htarget : target ∈ vars := hnode.defs target (by simp [Node.definitions, hresult])
        simp [Node.definitions, hresult, define_of_mem h htarget, Versions.isResult_versionName,
          defineAll]
  | .call collectors callee args span, _ => by
      rw [renameNode]
      simp [Node.definitions]
  | .block children span, hnode => by
      rw [renameNode]
      simpa only [Node.definitions] using definitions_renameNodes h hnode.block
  | .phi phi span, hnode => absurd hnode.phi (by simp [Node.holdsPhi])
  | .store _ _ span, _ | .branch _ span, _ | .start span, _ | .ret span, _ | .spin span, _
  | .stub span, _ => by
      rw [renameNode]
      simp [Node.definitions, defineAll]

/-- What a renamed list defines. -/
theorem definitions_renameNodes {scope : Scope} (h : scope.versions.Tracks vars) :
    ∀ {nodes : List Node}, SuitsList vars nodes →
      Node.definitionsList (scope.renameNodes nodes).2 =
        (scope.defineAll (Node.definitionsList nodes)).2
  | [], _ => by simp [renameNodes, Node.definitionsList, defineAll]
  | node :: rest, hnodes => by
      obtain ⟨hnode, hrest⟩ := hnodes.cons
      rw [renameNodes]
      simp only [Node.definitionsList, defineAll_append, definitions_renameNode h hnode,
        renameNode_fst, definitions_renameNodes (tracks_defineAll h hnode.defs) hrest]

end

/-- What a renamed value counts as using was counted as used before. -/
theorem not_mem_valueUses (h : scope.versions.Tracks vars)
    (hfresh : ∀ var ∈ vars, ∀ n, versionName var n ∉ vars) {var : String} (hvar : var ∈ vars)
    (value : Expr) : var ∉ Node.valueUses
      (value.replaceTemps (scope.versions.renamer (Node.valueUses value))) := by
  have hcounted : Node.valueUses value = value.freeVars → var ∉ Node.valueUses
      (value.replaceTemps (scope.versions.renamer (Node.valueUses value))) := by
    intro huses huse
    have hread := h.not_mem_freeVars hfresh (fun temp htemp => huses.symm ▸ htemp) hvar
    rw [Node.valueUses] at huse
    split at huse
    · split at huse
      · simp at huse
      · exact hread huse
    · exact hread huse
  cases value with
  | temp name =>
    by_cases hargument : Slot.isArgument name
    · -- A bare argument slot is not counted, so it keeps its name.
      have huses : Node.valueUses (.temp name) = ∅ := by
        simp [Node.valueUses, Expr.asTemp?, hargument]
      have hsame : Expr.replaceTemps (scope.versions.renamer ∅) (.temp name) = .temp name := by
        rw [Expr.replaceTemps, Versions.renamed_renamer, if_neg (by simp)]
      rw [huses, hsame, huses]
      simp
    · exact hcounted (by simp [Node.valueUses, Expr.asTemp?, hargument])
  | _ => exact hcounted rfl

mutual

/-- A renamed node does not use a variable under its own name. -/
theorem not_mem_uses_renameNode {scope : Scope} (h : scope.versions.Tracks vars)
    (hfresh : ∀ var ∈ vars, ∀ n, versionName var n ∉ vars) {var : String} (hvar : var ∈ vars) :
    ∀ {node : Node}, Suits vars node → var ∉ (scope.renameNode node).2.uses
  | .assign target value span, _ => by
      rw [renameNode]
      split <;> simpa only [Node.uses] using not_mem_valueUses h hfresh hvar value
  | .store address value span, _ => by
      rw [renameNode]
      simp only [Node.uses, mem_union_iff, not_or]
      exact ⟨h.not_mem_freeVars hfresh (fun temp htemp => by simp [htemp]) hvar,
        h.not_mem_freeVars hfresh (fun temp htemp => by simp [htemp]) hvar⟩
  | .call collectors callee args span, _ => by
      rw [renameNode]
      simp only [Node.uses, NameSet.mem_unions, List.map_map, List.mem_map]
      rintro ⟨_, ⟨arg, harg, rfl⟩, hread⟩
      refine h.not_mem_freeVars hfresh (fun temp htemp => ?_) hvar hread
      exact NameSet.mem_unions.mpr ⟨arg.freeVars, List.mem_map.mpr ⟨arg, harg, rfl⟩, htemp⟩
  | .branch cond span, _ => by
      rw [renameNode]
      simpa only [Node.uses] using h.not_mem_freeVars hfresh (fun _ htemp => htemp) hvar
  | .block children span, hnode => by
      rw [renameNode]
      simpa only [Node.uses] using not_mem_uses_renameNodes h hfresh hvar hnode.block
  | .phi phi span, hnode => absurd hnode.phi (by simp [Node.holdsPhi])
  | .start span, _ | .ret span, _ | .spin span, _ | .stub span, _ => by
      rw [renameNode]
      simp [Node.uses]

/-- Renamed lists use no old name. -/
theorem not_mem_uses_renameNodes {scope : Scope} (h : scope.versions.Tracks vars)
    (hfresh : ∀ var ∈ vars, ∀ n, versionName var n ∉ vars) {var : String} (hvar : var ∈ vars) :
    ∀ {nodes : List Node}, SuitsList vars nodes →
      var ∉ Node.usesList (scope.renameNodes nodes).2
  | [], _ => by simp [renameNodes, Node.usesList]
  | node :: rest, hnodes => by
      obtain ⟨hnode, hrest⟩ := hnodes.cons
      rw [renameNodes]
      simp only [Node.usesList, mem_union_iff, mem_diff_iff, not_or,
        not_and]
      exact ⟨fun huse => absurd huse
        (not_mem_uses_renameNodes (tracks_renameNode h hnode.defs) hfresh hvar hrest),
        not_mem_uses_renameNode h hfresh hvar hnode⟩

end

end Scope

end Flowgraph
