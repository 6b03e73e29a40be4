import Flowgraph.Proofs.Ssa.Events
import Mathlib.Data.List.Forall2

/-!
# Where names stem from

Renaming gives each temporary of a node a version, or keeps its name (`Stems`). The temporaries of a
renamed node stem from those of the node one by one, in the order of the text
(`Scope.stems_renameNode`).
-/

namespace Flowgraph

open List

open Versions (versionName versionName_inj)

/-! ### Temporaries in the order of the text -/

/-- The temporaries of an expression from left to right. -/
def Expr.occurrences : Expr → List String
  | .const _ | .symbol _ => []
  | .temp name => [name]
  | .binary _ left right => left.occurrences ++ right.occurrences
  | .mem address => address.occurrences

mutual

/-- The temporaries of a node from left to right. -/
def Node.occurrences : Node → List String
  | .assign target value _ => target :: value.occurrences
  | .store address value _ => address.occurrences ++ value.occurrences
  | .call collectors _ args _ => collectors ++ args.flatMap Expr.occurrences
  | .branch cond _ => cond.occurrences
  | .block children _ => occurrencesList children
  | .phi ⟨_, mappings⟩ _ => mappings.toList.flatMap fun entry => entry.1 :: entry.2
  | _ => []

/-- The temporaries of several nodes in a row. -/
def Node.occurrencesList : List Node → List String
  | [] => []
  | node :: rest => node.occurrences ++ occurrencesList rest

end

/-- Names that occur are free. -/
theorem Expr.mem_occurrences {name : String} {expr : Expr} :
    name ∈ expr.occurrences ↔ name ∈ expr.freeVars := by
  induction expr with
  | const | symbol => simp [occurrences, freeVars]
  | temp => simp [occurrences, freeVars, @eq_comm _ name]
  | mem _ ih => simpa [occurrences, freeVars] using ih
  | binary _ _ _ ihl ihr => simp [occurrences, freeVars, ihl, ihr]

/-- Every occurrence is renamed. -/
theorem Expr.occurrences_replaceTemps (names : NameMap String) (expr : Expr) :
    (expr.replaceTemps names).occurrences = expr.occurrences.map (Expr.renamed names) := by
  induction expr with
  | const | symbol | temp => rfl
  | mem _ ih => exact ih
  | binary _ _ _ ihl ihr => simp [replaceTemps, occurrences, ihl, ihr]

/-! ### What becomes of a name -/

/-- A name that may be kept: it is no variable, or it is a slot. -/
def Kept (vars : List String) (name : String) : Prop :=
  name ∉ vars ∨ Slot.isResult name ∨ Slot.isArgument name

instance (vars : List String) (name : String) : Decidable (Kept vars name) :=
  inferInstanceAs (Decidable (_ ∨ _ ∨ _))

/-- A name stems from another as its version, or as the name itself if it may be kept. -/
def Stems (vars : List String) (old new : String) : Prop :=
  (old ∈ vars ∧ ∃ n, new = versionName old n) ∨ Kept vars old ∧ new = old

namespace Scope

variable {scope : Scope} {vars names : List String} {versions : Versions} {uses : NameSet}

/-- Renamed names stem from the old. -/
theorem stems_renamed (h : versions.Tracks vars) {name : String}
    (huses : name ∈ uses ∨ Slot.isArgument name) :
    Stems vars name (Expr.renamed (versions.renamer uses) name) := by
  rw [Versions.renamed_renamer]
  split
  · by_cases hvar : name ∈ vars
    · rw [h.current_of_mem hvar]
      exact .inl ⟨hvar, _, rfl⟩
    · rw [h.current_of_not_mem hvar]
      exact .inr ⟨.inl hvar, rfl⟩
  · next hnot => exact .inr ⟨.inr (.inr (huses.resolve_left hnot)), rfl⟩

/-- Lists of names stem from the old. -/
theorem stems_map_renamed (h : versions.Tracks vars)
    (huses : ∀ name ∈ names, name ∈ uses ∨ Slot.isArgument name) :
    Forall₂ (Stems vars) names (names.map (Expr.renamed (versions.renamer uses))) := by
  rw [forall₂_map_right_iff, forall₂_same]
  exact fun name hname => stems_renamed h (huses name hname)

/-- Renamed expressions stem from the old. -/
theorem stems_replaceTemps (h : versions.Tracks vars) {expr : Expr}
    (huses : ∀ name ∈ expr.freeVars, name ∈ uses ∨ Slot.isArgument name) :
    Forall₂ (Stems vars) expr.occurrences
      (expr.replaceTemps (versions.renamer uses)).occurrences := by
  rw [Expr.occurrences_replaceTemps]
  exact stems_map_renamed h fun name hname => huses name (Expr.mem_occurrences.mp hname)

section

variable (h : scope.versions.Tracks vars) (hnames : ∀ name ∈ names, name ∈ vars)
include h hnames

/-- Definitions get versions of the old names, one by one. -/
theorem versions_defineAll :
    Forall₂ (fun old new => ∃ n, new = versionName old n) names (scope.defineAll names).2 := by
  induction names generalizing scope with
  | nil => exact .nil
  | cons name rest ih =>
    obtain ⟨hname, hrest⟩ := forall_mem_cons.mp hnames
    rw [defineAll_cons h hname]
    exact .cons ⟨_, rfl⟩ (ih (tracks_renew h hname) hrest)

/-- Definitions stem from the old. -/
theorem stems_defineAll : Forall₂ (Stems vars) names (scope.defineAll names).2 :=
  ((forall₂_and_left _ _).mpr ⟨hnames, versions_defineAll h hnames⟩).imp fun _ _ hstem =>
    .inl hstem

end

mutual

/-- The temporaries of a renamed node stem from the old ones. -/
theorem stems_renameNode {scope : Scope} (h : scope.versions.Tracks vars) :
    ∀ {node : Node}, node.holdsPhi = false → (∀ var ∈ node.definitions, var ∈ vars) →
      Forall₂ (Stems vars) node.occurrences (scope.renameNode node).2.occurrences
  | .assign target value span, _, hdefs => by
      have hvalue : Forall₂ (Stems vars) value.occurrences
          (value.replaceTemps (scope.versions.renamer (Node.valueUses value))).occurrences :=
        stems_replaceTemps h fun name hname => Node.mem_valueUses hname
      rw [renameNode]
      split
      · -- A result slot is written under its own name.
        next hresult => exact .cons (.inr ⟨.inr (.inl hresult), rfl⟩) hvalue
      · next hresult =>
        have htarget : target ∈ vars := hdefs target (by simp [Node.definitions, hresult])
        rw [define_of_mem h htarget]
        exact .cons (.inl ⟨htarget, _, rfl⟩) hvalue
  | .store address value span, _, _ => by
      rw [renameNode]
      simp only [Node.occurrences]
      exact rel_append (stems_replaceTemps h fun name hname => .inl (by simp [hname]))
        (stems_replaceTemps h fun name hname => .inl (by simp [hname]))
  | .call collectors callee args span, _, hdefs => by
      have hargs : ∀ names : NameMap String, (args.map (Expr.replaceTemps names)).flatMap
          Expr.occurrences = (args.flatMap Expr.occurrences).map (Expr.renamed names) := by
        simp [flatMap_map, map_flatMap, Expr.occurrences_replaceTemps]
      rw [renameNode]
      simp only [Node.occurrences, hargs]
      refine rel_append (stems_defineAll h (by simpa only [Node.definitions] using hdefs))
        (stems_map_renamed h fun name hname => .inl ?_)
      obtain ⟨arg, harg, hname⟩ := mem_flatMap.mp hname
      rw [NameSet.mem_unions]
      exact ⟨arg.freeVars, mem_map.mpr ⟨arg, harg, rfl⟩, Expr.mem_occurrences.mp hname⟩
  | .branch cond span, _, _ => by
      rw [renameNode]
      exact stems_replaceTemps h fun name hname => .inl hname
  | .block children span, hphi, hdefs => by
      rw [renameNode]
      exact stems_renameNodes h (by simpa only [Node.holdsPhi] using hphi)
        (by simpa only [Node.definitions] using hdefs)
  | .phi phi span, hphi, _ => absurd hphi (by simp [Node.holdsPhi])
  | .start span, _, _ | .ret span, _, _ | .spin span, _, _ | .stub span, _, _ => by
      rw [renameNode]
      exact .nil

/-- Renamed lists stem from the old. -/
theorem stems_renameNodes {scope : Scope} (h : scope.versions.Tracks vars) :
    ∀ {nodes : List Node}, Node.holdsPhiList nodes = false →
      (∀ var ∈ Node.definitionsList nodes, var ∈ vars) →
      Forall₂ (Stems vars) (Node.occurrencesList nodes)
        (Node.occurrencesList (scope.renameNodes nodes).2)
  | [], _, _ => by
      rw [renameNodes]
      exact .nil
  | node :: rest, hphi, hdefs => by
      rw [Node.holdsPhiList, Bool.or_eq_false_iff] at hphi
      rw [Node.definitionsList, forall_mem_append] at hdefs
      rw [renameNodes]
      exact rel_append (stems_renameNode h hphi.1 hdefs.1)
        (stems_renameNodes (tracks_renameNode h hdefs.1) hphi.2 hdefs.2)

end

end Scope

end Flowgraph
