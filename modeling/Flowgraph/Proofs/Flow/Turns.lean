import Flowgraph.Proofs.Flow.Depiction

/-!
# How many nodes a circle has

The flow graph shows a circle of labels and jumps as a node that leads to itself, made for a jump of
the circle that leads back (`Code.TurnsBack`). A circle may have several nodes, even for the two
ways of one branch (`FlowGraph.spins_apart`), but no more than such jumps, and a circle with only
one of them has only one node (`FlowGraph.spins_turn`).
-/

namespace Flowgraph

open List

variable {first : Nat} {body : Stmt} {cfg : FlowGraph}

open Code
open Relation (ReflTransGen TransGen)

namespace Code

variable {instrs : List Instr} {k k' : Nat} {label : String}

/-- A jump on the circle with the given first position leads back. -/
def TurnsBack (instrs : List Instr) (k first : Nat) : Prop :=
  Circles instrs k first ∧ ∃ k' ≤ k, Skips instrs k k'

/-- A jump leads back if its label is not defined behind it. -/
theorem pos?_le (hnone : Builder.firstLabel label (instrs.drop (k + 1)) = none)
    (hpos : pos? instrs k label = some k') : k' ≤ k := by
  rw [pos?, hnone, Option.map_none, Option.none_or] at hpos
  by_contra hlt
  have hmem : .label label ∈ instrs.drop (k + 1) := by
    refine mem_of_getElem? (i := k' - (k + 1)) ?_
    rw [getElem?_drop, Nat.add_sub_cancel' (by omega)]
    exact Builder.getElem?_of_firstLabel hpos
  obtain ⟨i, hi⟩ := Builder.exists_firstLabel hmem
  rw [hnone] at hi
  cases hi

end Code

namespace Builder

variable {builder : Builder} {places : List NodeId} {dest : NodeId → NodeId} {e e' : Nat}
  {id other entry : NodeId}

/-- A node is the spin that is made for a jump. -/
def Marks (builder : Builder) (places : List NodeId) (dest : NodeId → NodeId) (e : Nat)
    (id : NodeId) : Prop :=
  ∃ stub entry, stub ∈ builder.stubIds ∧ dest stub = id ∧
    builder.resolve stub = .ok (.circle entry) ∧ Creates places e entry

variable (h : Built builder body places cfg dest)
include h

/-- The stub that closes a circle stands at a jump that leads back. -/
theorem Built.turnsBack (hcreates : Creates places e entry)
    (hround : TransGen (Passes builder.labels builder.stubs) entry entry)
    (hcircles : Circles body.code e first) : TurnsBack body.code e first := by
  obtain ⟨_, hpass, -⟩ := TransGen.head'_iff.mp hround
  obtain ⟨label, -, hinstr, -, hentry, -, hnone⟩ :=
    (h.made hcreates).mem_stubIds h.valid (h.valid.mem_stubIds_of_passes hpass)
  obtain ⟨next, hlabel⟩ := h.resolved.labels hentry
  obtain ⟨k', hpos, -⟩ := h.pos hnone hlabel
  exact ⟨hcircles, k', pos?_le (h.firstLabel_eq_none hnone) hpos, .jump hinstr hpos⟩

/-- Spins stand at a turn. -/
theorem Built.exists_turn (hlocated : Located builder body places cfg dest id (.spin first)) :
    ∃ e, Marks builder places dest e id ∧ TurnsBack body.code e first := by
  cases hlocated with
  | spin hstub hdest hcircle hcreates hcircles =>
    exact ⟨_, ⟨_, _, hstub, hdest, hcircle, hcreates⟩,
      h.turnsBack hcreates (h.valid.circle_of_resolve hcircle).2 hcircles⟩

/-- One spin is made for a jump. -/
theorem Built.eq_of_marks (hid : Marks builder places dest e id)
    (hother : Marks builder places dest e other) : id = other := by
  obtain ⟨stub, entry, hstub, rfl, hcircle, hcreates⟩ := hid
  obtain ⟨stub', entry', hstub', rfl, hcircle', hcreates'⟩ := hother
  obtain rfl : entry = entry' := Option.some.inj (hcreates.1.symm.trans hcreates'.1)
  exact (h.resolved.circles hstub hstub' hcircle hcircle').mpr rfl

end Builder

namespace FlowGraph

/-- The nodes that lead to themselves. -/
def spins (cfg : FlowGraph) : List NodeId :=
  cfg.nodes.filter fun id => cfg.kind? id = some .spin

/-- Spins have their sites. -/
theorem Depicts.site_of_mem_spins {site : NodeId → Site} (h : Depicts body cfg site) {id : NodeId}
    (hid : id ∈ cfg.spins) : cfg.contains id ∧ ∃ first, site id = .spin first := by
  obtain ⟨hmem, hkind⟩ := mem_filter.mp hid
  have hlive := Graph.mem_nodes.mp hmem
  obtain ⟨node, hnode⟩ := exists_node hlive
  have hspin : node.kind = .spin := by
    simpa [kind?, hnode] using hkind
  have hsuits := (h.node hnode).kind
  rw [hspin] at hsuits
  refine ⟨hlive, ?_⟩
  cases hsite : site id with
  | start =>
    rw [hsite] at hsuits
    cases hsuits
  | stmt k =>
    rw [hsite] at hsuits
    exact absurd rfl hsuits.2
  | spin first => exact ⟨first, rfl⟩

/-- Spins with different numbers among some are no more than these. -/
theorem length_spins_le {number : NodeId → Nat} {numbers : List Nat}
    (hmem : ∀ id ∈ cfg.spins, number id ∈ numbers)
    (hinj : ∀ id ∈ cfg.spins, ∀ other ∈ cfg.spins, number id = number other → id = other) :
    cfg.spins.length ≤ numbers.length := by
  have hspins : cfg.spins.Nodup := (nodup_range.filter _).filter _
  have hnodup : (cfg.spins.map number).Nodup :=
    (nodup_map_iff_inj_on hspins).mpr fun id hid other hother heq =>
      hinj id hid other hother heq
  have hsubset : ∀ n ∈ cfg.spins.map number, n ∈ numbers := by
    intro n hn
    obtain ⟨id, hid, rfl⟩ := mem_map.mp hn
    exact hmem id hid
  rw [← length_map number]
  exact (hnodup.subperm hsubset).length_le

/-- Every spin of the flow graph of a body is made for a jump that leads back on its circle, and no
two for the same. So there are no more spins than such jumps. A circle with only one of them has
only one spin, to which all ways into the circle lead; and if all circles are like this, there are
no more spins than circles. -/
theorem spins_turn (h : ofBody body = .ok cfg) :
    ∃ (site : NodeId → Site) (turn : NodeId → Nat), Depicts body cfg site ∧
      (∀ id ∈ cfg.spins, ∃ first, site id = .spin first ∧ TurnsBack body.code (turn id) first) ∧
      (∀ id ∈ cfg.spins, ∀ other ∈ cfg.spins, turn id = turn other → id = other) ∧
      (∀ turns : List Nat, (∀ k first, TurnsBack body.code k first → k ∈ turns) →
        cfg.spins.length ≤ turns.length) ∧
      (∀ first, (∀ k k', TurnsBack body.code k first → TurnsBack body.code k' first → k = k') →
        ∀ id ∈ cfg.spins, ∀ other ∈ cfg.spins, site id = .spin first → site other = .spin first →
          id = other) ∧
      ((∀ first k k', TurnsBack body.code k first → TurnsBack body.code k' first → k = k') →
        ∀ circles : List Nat, (∀ k first, Circles body.code k first → first ∈ circles) →
          cfg.spins.length ≤ circles.length) := by
  obtain ⟨builder, places, dest, hbuilt⟩ := built_of_ofBody h
  obtain ⟨site, hdepicts, hlocated⟩ := hbuilt.exists_depicts
  have hall : ∀ id, ∃ e first, id ∈ cfg.spins → site id = .spin first ∧
      builder.Marks places dest e id ∧ TurnsBack body.code e first := by
    intro id
    by_cases hid : id ∈ cfg.spins
    · obtain ⟨hlive, first, hfirst⟩ := hdepicts.site_of_mem_spins hid
      obtain ⟨e, hmarks, hturns⟩ := hbuilt.exists_turn (hfirst ▸ hlocated hlive)
      exact ⟨e, first, fun _ => ⟨hfirst, hmarks, hturns⟩⟩
    · exact ⟨0, 0, fun hmem => absurd hmem hid⟩
  choose turn circle hspin using hall
  have hinj : ∀ id ∈ cfg.spins, ∀ other ∈ cfg.spins, turn id = turn other → id = other := by
    intro id hid other hother heq
    have hmarks := (hspin id hid).2.1
    rw [heq] at hmarks
    exact hbuilt.eq_of_marks hmarks (hspin other hother).2.1
  have hone : ∀ first, (∀ k k', TurnsBack body.code k first → TurnsBack body.code k' first →
      k = k') →
      ∀ id ∈ cfg.spins, ∀ other ∈ cfg.spins, circle id = first → circle other = first →
        id = other := by
    intro first hturns id hid other hother hfirst hfirst'
    exact hinj id hid other hother
      (hturns _ _ (hfirst ▸ (hspin id hid).2.2) (hfirst' ▸ (hspin other hother).2.2))
  refine ⟨site, turn, hdepicts, fun id hid => ⟨_, (hspin id hid).1, (hspin id hid).2.2⟩, hinj,
    fun turns hturns => ?_, fun first hturns id hid other hother hfirst hfirst' => ?_,
    fun hturns circles hcircles => ?_⟩
  · exact length_spins_le (fun id hid => hturns _ _ (hspin id hid).2.2) hinj
  · refine hone first hturns id hid other hother ?_ ?_
    · exact Site.spin.inj ((hspin id hid).1.symm.trans hfirst)
    · exact Site.spin.inj ((hspin other hother).1.symm.trans hfirst')
  · exact length_spins_le (fun id hid => hcircles _ _ (hspin id hid).2.2.1)
      fun id hid other hother heq => hone _ (hturns _) id hid other hother heq rfl

/-- A branch into a circle with two jumps that lead back, whose ways come to different ones first.
-/
def whirling : Stmt :=
  .seq [
    .instr (.branch (.temp "x") "B") .dummy,
    .instr (.label "A") .dummy,
    .instr (.jump "C") .dummy,
    .instr (.label "B") .dummy,
    .instr (.jump "A") .dummy,
    .instr (.label "C") .dummy,
    .instr (.jump "B") .dummy] .dummy

/-- The graph of the body. -/
theorem ofBody_whirling : ∃ cfg, ofBody whirling = .ok cfg ∧
    cfg.outgoing 4 = [(6, some true), (5, some false)] ∧ cfg.spins = [5, 6] :=
  exists_ok_of_any (by decide +kernel)

/-- Both ways of a branch lead into one circle, to different spins. -/
theorem spins_apart : ∃ cfg, ofBody whirling = .ok cfg ∧
    Site.ways whirling.code (.stmt 0) = [(3, some true), (1, some false)] ∧
    Enters whirling.code 3 (.spin 1) ∧ Enters whirling.code 1 (.spin 1) ∧
    cfg.outgoing 4 = [(6, some true), (5, some false)] ∧ cfg.spins = [5, 6] := by
  obtain ⟨cfg, hcfg, hout, hspins⟩ := ofBody_whirling
  have hnone : ∀ k, skip? whirling.code k ≠ some 0 := by
    intro k
    by_cases hk : k < 7
    · revert k
      decide
    · have hend : whirling.code[k]? = none := getElem?_eq_none (Nat.le_of_not_lt hk)
      simp [skip?, hend]
  have hskip : ∀ k k', skip? whirling.code k = some k' → Skips whirling.code k k' := fun _ _ => id
  have hround : TransGen (Skips whirling.code) 1 1 :=
    .head (hskip 1 2 rfl) (.head (hskip 2 5 rfl) (.head (hskip 5 6 rfl) (.head (hskip 6 3 rfl)
      (.head (hskip 3 4 rfl) (.single (hskip 4 1 rfl))))))
  have hcircles : Circles whirling.code 1 1 := by
    refine ⟨hround, .refl, fun other hother => Nat.pos_of_ne_zero fun hzero => ?_⟩
    subst hzero
    obtain heq | ⟨k, -, hk⟩ := ReflTransGen.cases_tail hother
    · omega
    · exact hnone k hk
  have henters : Enters whirling.code 1 (.spin 1) := .round hcircles
  exact ⟨cfg, hcfg, rfl, .skip (hskip 3 4 rfl) (.skip (hskip 4 1 rfl) henters), henters,
    hout, hspins⟩

/-- A branch into a circle with one jump that leads back. -/
def rounding : Stmt :=
  .seq [
    .instr (.branch (.temp "x") "A") .dummy,
    .instr (.label "A") .dummy,
    .instr (.jump "A") .dummy] .dummy

/-- The only way round is from the label to the jump and back. -/
theorem skips_rounding {k k' : Nat} (h : Skips rounding.code k k') :
    k = 1 ∧ k' = 2 ∨ k = 2 ∧ k' = 1 := by
  rcases k with _ | _ | _ | k
  · cases show none = some k' from h
  · exact .inl ⟨rfl, (Option.some.inj h).symm⟩
  · exact .inr ⟨rfl, (Option.some.inj h).symm⟩
  · cases show none = some k' from h

/-- The only circle begins at the label. -/
theorem circles_rounding {k first : Nat} (h : Circles rounding.code k first) : first = 1 := by
  have hback : Skips rounding.code 2 1 := rfl
  obtain ⟨next, hnext, -⟩ := TransGen.head'_iff.mp h.round
  have hle : first ≤ 1 := by
    rcases skips_rounding hnext with ⟨rfl, -⟩ | ⟨rfl, -⟩
    · exact h.least 1 .refl
    · exact h.least 1 (.single hback)
  have hpos : 1 ≤ first := by
    obtain rfl | ⟨last, -, hlast⟩ := ReflTransGen.cases_tail h.leads
    · have := skips_rounding hnext
      omega
    · have := skips_rounding hlast
      omega
  omega

/-- A circle with two jumps that lead back has two spins, and one with one has one. -/
theorem spins_turn_whirling :
    (∃ cfg, ofBody whirling = .ok cfg ∧ cfg.spins.length = 2 ∧
      ∃ (site : NodeId → Site) (turn : NodeId → Nat), Depicts whirling cfg site ∧
        (∃ first, site 5 = .spin first ∧ TurnsBack whirling.code (turn 5) first) ∧
          turn 5 ≠ turn 6) ∧
    ∃ cfg, ofBody rounding = .ok cfg ∧ cfg.spins ≠ [] ∧ cfg.spins.length ≤ 1 ∧
      ∃ site, Depicts rounding cfg site ∧ ∀ id ∈ cfg.spins, ∀ other ∈ cfg.spins,
        site id = .spin 1 → site other = .spin 1 → id = other := by
  constructor
  · obtain ⟨cfg, hcfg, -, hspins⟩ := ofBody_whirling
    obtain ⟨site, turn, hdepicts, hturns, hinj, -⟩ := spins_turn hcfg
    refine ⟨cfg, hcfg, by rw [hspins]; rfl, site, turn, hdepicts, hturns 5 (by simp [hspins]),
      fun heq => ?_⟩
    exact absurd (hinj 5 (by simp [hspins]) 6 (by simp [hspins]) heq) (by decide)
  · obtain ⟨cfg, hcfg, hspins⟩ : ∃ cfg, ofBody rounding = .ok cfg ∧ cfg.spins ≠ [] :=
      exists_ok_of_any (by decide +kernel)
    have hturns : ∀ first k k', TurnsBack rounding.code k first → TurnsBack rounding.code k' first →
        k = k' := by
      rintro first k k' ⟨-, next, hle, hnext⟩ ⟨-, next', hle', hnext'⟩
      have := skips_rounding hnext
      have := skips_rounding hnext'
      omega
    obtain ⟨site, turn, hdepicts, -, -, -, hone, hcount⟩ := spins_turn hcfg
    refine ⟨cfg, hcfg, hspins, hcount hturns [1] fun k first hfirst => ?_, site, hdepicts,
      hone 1 (hturns 1)⟩
    rw [circles_rounding hfirst]
    exact mem_singleton_self _

end FlowGraph

end Flowgraph
