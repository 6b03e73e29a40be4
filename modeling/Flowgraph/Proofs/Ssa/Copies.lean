import Flowgraph.Proofs.Flow.Lane
import Flowgraph.Proofs.Ssa.Frames
import Flowgraph.Ssa.Revert

/-!
# Copies on an edge

The copies that take the place of a phi block are made one after another, but a copy reads a version
of the variable of which it writes one, so none disturbs another. Control passes the lane without an
effect on anything but the frame, and then the new versions hold the values of their variables
(`FlowGraph.Lane.exists_quiet`).
-/

namespace Flowgraph

open List

open Versions (versionName versionName_inj)
open Frame (Renamed)

variable {vars : List String} {top : String → Nat} {frame frame' : Frame}

/-- A new version of a variable takes over its value. -/
theorem Frame.Renamed.copy (h : Renamed vars top frame frame') {var : String} (hvar : var ∈ vars)
    {n : Nat} {top' : String → Nat} (htop : ∀ other, top' other = if var = other then n
      else top other) :
    Renamed vars top' frame (frame'.write (versionName var n) (frame.read var)) := by
  have hdefine := h.define hvar htop (frame.read var)
  refine ⟨fun {other} hother => ?_, fun {name} hname => ?_⟩
  · rw [hdefine.read hother, read_write]
    split
    · next heq => rw [heq]
    · rfl
  · have hne : var ≠ name := fun heq => hname.1 (heq ▸ hvar)
    rw [hdefine.plain hname, getElem?_write, if_neg hne]

namespace FlowGraph

variable {new : String → Nat} {span : Span}

/-- The copy for a target, unless it is one of a name to itself. -/
def copyFor (slot : Nat) (span : Span) (entry : String × List String) : Option Node :=
  match entry.2[slot]? with
  | none => none
  | some arg => if arg = entry.1 then none else some (.assign entry.1 (.temp arg) span)

/-- The copies for a slot. -/
theorem copiesFor_eq (phi : Phi) (slot : Nat) (span : Span) :
    copiesFor phi slot span = phi.mappings.toList.filterMap (copyFor slot span) := rfl

/-- The current versions after copies to some names. -/
def topAfter (names : List String) (new top : String → Nat) (var : String) : Nat :=
  if versionName var (new var) ∈ names then new var else top var

/-- One more name is on top. -/
theorem topAfter_cons {names : List String} {top' : String → Nat} {var : String}
    (htop : ∀ other, top' other = if var = other then new var else top other) (other : String) :
    topAfter (versionName var (new var) :: names) new top other =
      topAfter names new top' other := by
  unfold topAfter
  simp only [mem_cons, htop]
  by_cases heq : var = other
  · subst heq
    simp
  · have hne : versionName other (new other) ≠ versionName var (new var) := fun hname =>
      heq (versionName_inj.mp hname).1.symm
    simp only [hne, false_or, if_neg heq]

variable {cfg : FlowGraph} {target first : NodeId} {ids : List NodeId}

/-- A copy changes nothing but the frame. -/
theorem quiet_copy (name : String) {id next : NodeId} {copied arg : String}
    (hnode : cfg.node? id = some (.assign copied (.temp arg) span))
    (hout : cfg.outgoing id = [(next, none)]) (frame : Frame) :
    (Body.ofGraph name cfg).Quiet (cfg.arrive id) frame (cfg.arrive next)
      (frame.write copied (frame.read arg)) := by
  have hsucc : cfg.successors id = [next] := Graph.successors_eq hout
  have hwrite : ∀ world, (Body.ofGraph name cfg).next (cfg.arrive id) frame world =
      .go ([], id) (frame.write copied (frame.read arg)) world := by
    intro world
    rw [arrive_eq hnode]
    rfl
  have hdepart : ∀ world,
      (Body.ofGraph name cfg).next ([], id) (frame.write copied (frame.read arg)) world =
      .go (cfg.arrive next) (frame.write copied (frame.read arg)) world := fun world =>
    depart_onward hnode (by simp [Node.Onward, Node.kind]) hsucc
  exact .head hwrite (.head hdepart .refl)

/-- Empty lanes are at their target. -/
theorem Lane.eq_of_nil (h : cfg.Lane target first [] ids) : first = target := by
  cases h
  rfl

/-- At the end of a lane the new versions hold the values. -/
theorem Lane.exists_quiet (name : String) {slot : Nat} {entries : List (String × List String)}
    (hlane : cfg.Lane target first (entries.filterMap (copyFor slot span)) ids)
    (hnodup : (entries.map Prod.fst).Nodup)
    (hentries : ∀ entry ∈ entries, ∃ var ∈ vars, entry.1 = versionName var (new var) ∧
      entry.2[slot]? = some (versionName var (top var))) (h : Renamed vars top frame frame') :
    ∃ after, (Body.ofGraph name cfg).Quiet (cfg.arrive first) frame' (cfg.arrive target) after ∧
      Renamed vars (topAfter (entries.map Prod.fst) new top) frame after := by
  induction entries generalizing first ids top frame' with
  | nil =>
    obtain rfl := hlane.eq_of_nil
    exact ⟨frame', .refl, h.congr fun var _ => by simp [topAfter]⟩
  | cons entry rest ih =>
    obtain ⟨copied, args⟩ := entry
    obtain ⟨⟨var, hvar, hcopied, harg⟩, hrest⟩ := forall_mem_cons.mp hentries
    obtain ⟨hnot, hdistinct⟩ := nodup_cons.mp hnodup
    dsimp only at hcopied harg hnot
    subst hcopied
    obtain ⟨top', htop⟩ : ∃ top' : String → Nat,
        ∀ other, top' other = if var = other then new var else top other := ⟨_, fun _ => rfl⟩
    -- A later copy is for another variable, whose current version is still the old one.
    have hlater : ∀ entry ∈ rest, ∃ var ∈ vars, entry.1 = versionName var (new var) ∧
        entry.2[slot]? = some (versionName var (top' var)) := by
      intro entry hentry
      obtain ⟨other, hother, hname, hargs⟩ := hrest entry hentry
      have hne : var ≠ other := by
        intro heq
        subst heq
        exact hnot (hname ▸ mem_map.mpr ⟨entry, hentry, rfl⟩)
      exact ⟨other, hother, hname, by rw [htop, if_neg hne, hargs]⟩
    have hgoal : ∀ {after}, Renamed vars (topAfter (rest.map Prod.fst) new top') frame after →
        Renamed vars (topAfter (versionName var (new var) :: rest.map Prod.fst) new top) frame
        after :=
      fun hafter => hafter.congr fun other _ => topAfter_cons htop other
    by_cases hsame : versionName var (top var) = versionName var (new var)
    · -- The version stays, and there is no copy for it.
      have hnone : copyFor slot span (versionName var (new var), args) = none := by
        simp only [copyFor, harg, hsame, if_true]
      rw [filterMap_cons_none hnone] at hlane
      have hkept : Renamed vars top' frame frame' := h.congr fun other _ => by
        rw [htop]
        split
        · next heq => rw [← heq, (versionName_inj.mp hsame).2]
        · rfl
      obtain ⟨after, hquiet, hafter⟩ := ih hlane hdistinct hlater hkept
      exact ⟨after, hquiet, hgoal hafter⟩
    · have hcopy : copyFor slot span (versionName var (new var), args) =
          some (.assign (versionName var (new var)) (.temp (versionName var (top var))) span) := by
        simp only [copyFor, harg, hsame, if_false]
      rw [filterMap_cons_some hcopy] at hlane
      cases hlane with
      | cons hnode hout hlane =>
        have hstep := quiet_copy name hnode hout frame'
        rw [h.read hvar] at hstep
        obtain ⟨after, hquiet, hafter⟩ := ih hlane hdistinct hlater (h.copy hvar htop)
        exact ⟨after, hstep.trans hquiet, hgoal hafter⟩

end FlowGraph

end Flowgraph
