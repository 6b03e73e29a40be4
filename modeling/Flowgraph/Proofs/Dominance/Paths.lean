import Flowgraph.Proofs.Dominance.Semidominator
import Flowgraph.Proofs.Flow.Sound

/-!
# Dominance by paths

A node dominates another if the other can be reached from the start and every path from the start to
it passes through the first. `dominates_iff` turns this into a statement about ways round a node.
-/

namespace Flowgraph

open Relation (ReflTransGen)

namespace Graph

variable {α : Type} {g : Graph α} {source target : NodeId} {nodes : List NodeId} {d : NodeId}

/-- The nodes of a way in order, both ends included. -/
inductive Path (g : Graph α) (source : NodeId) : NodeId → List NodeId → Prop where
  | here : g.Path source source [source]
  | step {middle last : NodeId} {nodes : List NodeId} : g.Path source middle nodes →
      last ∈ g.successors middle → g.Path source last (nodes ++ [last])

/-- Some edge leads from one node to another. -/
def Adjacent (g : Graph α) (source target : NodeId) : Prop :=
  target ∈ g.successors source

section

variable (h : g.Path source target nodes)
include h

/-- Paths hold their end. -/
theorem Path.target_mem : target ∈ nodes := by
  cases h <;> simp

/-- Paths end in their end. -/
theorem Path.dropLast_append : nodes.dropLast ++ [target] = nodes := by
  cases h <;> simp

/-- A path that does not contain a node goes round it. -/
theorem Path.bypass (hd : d ∉ nodes) : Bypass g.Adjacent source d target := by
  induction h with
  | here => exact ⟨fun h => hd (by simp [h]), .refl⟩
  | step _ hlast ih =>
    simp only [List.mem_append, List.mem_singleton, not_or] at hd
    obtain ⟨hne, hpath⟩ := ih hd.1
    exact ⟨hne, hpath.tail ⟨hlast, Ne.symm hd.2⟩⟩

end

/-- A way that goes round a node is a path that does not contain it. -/
theorem exists_path_of_bypass (h : Bypass g.Adjacent source d target) :
    ∃ nodes, g.Path source target nodes ∧ d ∉ nodes := by
  obtain ⟨hne, hpath⟩ := h
  induction hpath with
  | refl => exact ⟨[source], .here, by simpa using hne.symm⟩
  | tail _ hlast ih =>
    obtain ⟨nodes, hnodes, hd⟩ := ih
    exact ⟨_, hnodes.step hlast.1, by simp [hd, Ne.symm hlast.2]⟩

end Graph

namespace FlowGraph

variable {cfg : FlowGraph} {a b : NodeId} {c : NodeId}

/-- Every path from the start to a reached node passes through another. -/
def Dominates (cfg : FlowGraph) (a b : NodeId) : Prop :=
  cfg.Reaches cfg.start b ∧ ∀ nodes, cfg.Path cfg.start b nodes → a ∈ nodes

/-- One node dominates another and is not the same. -/
def StrictlyDominates (cfg : FlowGraph) (a b : NodeId) : Prop :=
  a ≠ b ∧ cfg.Dominates a b

/-- The strict dominator that every other one dominates. -/
def IsImmediateDominator (cfg : FlowGraph) (d b : NodeId) : Prop :=
  cfg.StrictlyDominates d b ∧ ∀ a, cfg.StrictlyDominates a b → cfg.Dominates a d

/-- Dominators cannot be bypassed. -/
theorem dominates_iff : cfg.Dominates a b ↔
    cfg.Reaches cfg.start b ∧ ¬ Bypass cfg.Adjacent cfg.start a b := by
  refine and_congr_right fun _ => ⟨fun hall hbypass => ?_, fun hnot nodes hnodes => ?_⟩
  · obtain ⟨nodes, hnodes, ha⟩ := Graph.exists_path_of_bypass hbypass
    exact ha (hall nodes hnodes)
  · by_contra ha
    exact hnot (hnodes.bypass ha)

/-- Reached nodes dominate themselves. -/
theorem Dominates.refl (h : cfg.Reaches cfg.start b) : cfg.Dominates b b :=
  ⟨h, fun _ hnodes => hnodes.target_mem⟩

/-- The start dominates what is reached. -/
theorem start_dominates (h : cfg.Reaches cfg.start b) : cfg.Dominates cfg.start b :=
  dominates_iff.mpr ⟨h, fun hbypass => hbypass.1 rfl⟩

/-- A way round `a` to a node that `b` dominates reaches `b`. -/
theorem path_of_not_bypass {V : Type} {edge : V → V → Prop} {root a b c : V}
    (h : ReflTransGen (fun u v => edge u v ∧ v ≠ a) root c) (hb : ¬ Bypass edge root b c) :
    ReflTransGen (fun u v => edge u v ∧ v ≠ a) root b := by
  induction h with
  | refl =>
    obtain rfl : root = b := by
      by_contra hne
      exact hb ⟨hne, .refl⟩
    exact .refl
  | @tail m c hpath hlast ih =>
    by_cases hm : Bypass edge root b m
    · obtain rfl : c = b := by
        by_contra hne
        exact hb ⟨hm.1, hm.2.tail ⟨hlast.1, hne⟩⟩
      exact hpath.tail hlast
    · exact ih hm

/-- Dominators are reached. -/
theorem Dominates.reaches_left (h : cfg.Dominates a b) : cfg.Reaches cfg.start a := by
  obtain ⟨hreach, hnot⟩ := dominates_iff.mp h
  by_contra hnone
  refine hnot ⟨fun heq => hnone (heq ▸ .refl _), ?_⟩
  -- no node on a way from the start is the unreachable one
  have hall : ∀ c, cfg.Reaches cfg.start c →
      ReflTransGen (fun u v => cfg.Adjacent u v ∧ v ≠ a) cfg.start c := by
    intro c hc
    induction hc with
    | refl => exact .refl
    | @tail m c hm hlast ih =>
      refine ih.tail ⟨hlast, ?_⟩
      rintro rfl
      exact hnone (Relation.ReflTransGen.tail hm hlast)
  exact hall b hreach

/-- Dominance is transitive. -/
theorem Dominates.trans (hab : cfg.Dominates a b) (hbc : cfg.Dominates b c) :
    cfg.Dominates a c := by
  obtain ⟨-, hab⟩ := dominates_iff.mp hab
  obtain ⟨hc, hbc⟩ := dominates_iff.mp hbc
  exact dominates_iff.mpr ⟨hc, fun hac => hab ⟨hac.1, path_of_not_bypass hac.2 hbc⟩⟩

/-- Strict dominators dominate every reached predecessor. -/
theorem StrictlyDominates.dominates_predecessor (h : cfg.StrictlyDominates a c)
    (hb : cfg.Reaches cfg.start b) (hbc : c ∈ cfg.successors b) : cfg.Dominates a b := by
  refine dominates_iff.mpr ⟨hb, fun hbypass => ?_⟩
  exact (dominates_iff.mp h.2).2 ⟨hbypass.1, hbypass.2.tail ⟨hbc, Ne.symm h.1⟩⟩

end FlowGraph

end Flowgraph
