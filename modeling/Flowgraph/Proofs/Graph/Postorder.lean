import Flowgraph.Proofs.Graph.DepthFirst

/-!
# The order in which a search leaves nodes

`Walk.Leaves` says what a search adds to the list of the nodes left: those that it entered, so that
if a way leads from `x` to `y`, some node on a circle with `x` is left no earlier than `y`
(`Walk.Leaves.ordered`).
-/

namespace Flowgraph

open List

variable {next : NodeId → List NodeId}

/-- Some way leads from one node to another over nodes of a list. -/
def Within (next : NodeId → List NodeId) (nodes : List NodeId) : NodeId → NodeId → Prop :=
  Relation.ReflTransGen fun source target => target ∈ next source ∧ target ∈ nodes

namespace Within

variable {nodes others : List NodeId} {x y z : NodeId}

/-- The empty path. -/
theorem refl : Within next nodes x x :=
  Relation.ReflTransGen.refl

variable (h : Within next nodes x y)
include h

/-- Paths compose. -/
theorem trans (h' : Within next nodes y z) : Within next nodes x z :=
  Relation.ReflTransGen.trans h h'

/-- A path goes on by a step. -/
theorem tail (hnext : z ∈ next y) (hz : z ∈ nodes) : Within next nodes x z :=
  Relation.ReflTransGen.tail h ⟨hnext, hz⟩

/-- Paths stay in larger sets of nodes. -/
theorem mono (hsub : nodes ⊆ others) : Within next others x y :=
  Relation.ReflTransGen.mono (fun _ _ hstep => ⟨hstep.1, hsub hstep.2⟩) _ _ h

/-- Paths end inside. -/
theorem mem (hx : x ∈ nodes) : y ∈ nodes := by
  cases h with
  | refl => exact hx
  | tail _ hstep => exact hstep.2

/-- A way stays among some nodes if it cannot leave them. -/
theorem forward (hx : x ∈ others) (hstay : ∀ a ∈ others, ∀ b ∈ next a, b ∈ nodes → b ∈ others) :
    Within next others x y := by
  induction h with
  | refl => exact refl
  | @tail a b _ hstep ih => exact ih.tail hstep.1 (hstay a (ih.mem hx) b hstep.1 hstep.2)

/-- A way stays among nodes that cannot be come to from elsewhere. -/
theorem backward (hx : x ∈ nodes) (hy : y ∈ others)
    (hstay : ∀ a ∈ nodes, ∀ b ∈ next a, b ∈ others → a ∈ others) : Within next others x y := by
  induction h with
  | refl => exact refl
  | @tail a b hfirst hstep ih =>
    have ha : a ∈ nodes := Within.mem hfirst hx
    exact (ih (hstay a ha b hstep.1 hy)).tail hstep.1 hy

end Within

namespace Walk

variable {walk middle after : Walk} {ids : List NodeId}

/-- A node left no earlier than `y` lies on a circle with `x`. The list has the node left last at
its head. -/
def LastOfCircle (next : NodeId → List NodeId) (nodes : List NodeId) (x y : NodeId) : Prop :=
  ∃ front z back, nodes = front ++ z :: back ∧ y ∈ z :: back ∧
    Within next nodes x z ∧ Within next nodes z x

/-- What a search from some nodes leaves, the last one first. -/
structure Leaves (next : NodeId → List NodeId) (walk : Walk) (ids new : List NodeId)
    (after : Walk) : Prop where
  finished : after.finished = new ++ walk.finished
  entered : ∀ {id}, after.number.contains id ↔ walk.number.contains id ∨ id ∈ new
  started : ∀ id ∈ ids, after.number.contains id
  fresh : ∀ id ∈ new, walk.number.contains id = false
  nodup : new.Nodup
  closed : ∀ id ∈ new, ∀ other ∈ next id, after.number.contains other
  reached : ∀ id ∈ new, ∃ root ∈ ids, root ∈ new ∧ Within next new root id
  ordered : ∀ x ∈ new, ∀ y ∈ new, Within next new x y → LastOfCircle next new x y

namespace Leaves

variable {first second new new' : List NodeId}

/-- Nothing is left if all nodes were entered before. -/
theorem nil (hids : ∀ id ∈ ids, walk.number.contains id) : Leaves next walk ids [] walk where
  finished := rfl
  entered := by simp
  started := hids
  fresh := by simp
  nodup := nodup_nil
  closed := by simp
  reached := by simp
  ordered := by simp

/-- A second search comes to no node of the first that leads on to its own. -/
theorem trans (h : Leaves next walk first new middle) (h' : Leaves next middle second new' after) :
    Leaves next walk (first ++ second) (new' ++ new) after := by
  have hseparate : ∀ a ∈ new, ∀ b ∈ next a, b ∉ new' := by
    intro a ha b hb hnew'
    have hold := h.closed a ha b hb
    rw [h'.fresh b hnew'] at hold
    cases hold
  have hright : new ⊆ new' ++ new := subset_append_right ..
  have hleft : new' ⊆ new' ++ new := subset_append_left ..
  refine ⟨?_, ?_, ?_, ?_, ?_, ?_, ?_, ?_⟩
  · rw [h'.finished, h.finished, append_assoc]
  · intro id
    rw [h'.entered, h.entered, mem_append]
    tauto
  · intro id hid
    rcases mem_append.mp hid with hid | hid
    · exact h'.entered.mpr (.inl (h.started id hid))
    · exact h'.started id hid
  · intro id hid
    rcases mem_append.mp hid with hid | hid
    · by_contra hold
      have hmiddle := h.entered.mpr (.inl ((Bool.not_eq_false _).mp hold))
      rw [h'.fresh id hid] at hmiddle
      cases hmiddle
    · exact h.fresh id hid
  · refine nodup_append.mpr ⟨h'.nodup, h.nodup, fun id hid other hother heq => ?_⟩
    have hmiddle := h.entered.mpr (.inr hother)
    rw [← heq, h'.fresh id hid] at hmiddle
    cases hmiddle
  · intro id hid other hother
    rcases mem_append.mp hid with hid | hid
    · exact h'.closed id hid other hother
    · exact h'.entered.mpr (.inl (h.closed id hid other hother))
  · intro id hid
    rcases mem_append.mp hid with hid | hid
    · obtain ⟨root, hroot, hnew, hway⟩ := h'.reached id hid
      exact ⟨root, mem_append_right _ hroot, hleft hnew, hway.mono hleft⟩
    · obtain ⟨root, hroot, hnew, hway⟩ := h.reached id hid
      exact ⟨root, mem_append_left _ hroot, hright hnew, hway.mono hright⟩
  · intro x hx y hy hway
    rcases mem_append.mp hx with hx | hx
    · rcases mem_append.mp hy with hy | hy
      · -- a way between nodes of the second search never touches the first one
        have hstay : ∀ a ∈ new' ++ new, ∀ b ∈ next a, b ∈ new' → a ∈ new' := by
          intro a ha b hb hnew'
          rcases mem_append.mp ha with ha | ha
          · exact ha
          · exact absurd hnew' (hseparate a ha b hb)
        have hinside := hway.backward (hleft hx) hy hstay
        obtain ⟨front, z, back, hsplit, hz, hto, hfrom⟩ := h'.ordered x hx y hy hinside
        refine ⟨front, z, back ++ new, by simp [hsplit], ?_, hto.mono hleft, hfrom.mono hleft⟩
        exact mem_append_left new hz
      · obtain ⟨front, back, hsplit⟩ := append_of_mem hx
        refine ⟨front, x, back ++ new, by simp [hsplit], ?_, .refl, .refl⟩
        exact mem_cons_of_mem _ (mem_append_right _ hy)
    · have hstay : ∀ a ∈ new, ∀ b ∈ next a, b ∈ new' ++ new → b ∈ new := by
        intro a ha b hb hmem
        rcases mem_append.mp hmem with hmem | hmem
        · exact absurd hmem (hseparate a ha b hb)
        · exact hmem
      have hinside := hway.forward hx hstay
      obtain ⟨front, z, back, hsplit, hz, hto, hfrom⟩ := h.ordered x hx y (hinside.mem hx) hinside
      exact ⟨new' ++ front, z, back, by simp [hsplit], hz, hto.mono hright, hfrom.mono hright⟩

/-- A node is left after all that was entered from it. -/
theorem leave {id : NodeId} {parent : Nat} (hnew : walk.number.contains id = false)
    (h : Leaves next (walk.enter parent id) (next id) new after) :
    Leaves next walk [id] (id :: new) (after.leave id) := by
  have henter : ∀ {other}, (walk.enter parent id).number.contains other ↔
      walk.number.contains other ∨ other = id := by
    intro other
    show (walk.number.insert id walk.entered.size).contains other ↔ _
    simp only [Std.ExtTreeMap.contains_insert, Bool.or_eq_true, beq_iff_eq,
      Std.LawfulEqCmp.compare_eq_iff_eq]
    tauto
  have hsub : new ⊆ id :: new := subset_cons_self ..
  have hbelow : ∀ other ∈ id :: new, Within next (id :: new) id other := by
    intro other hother
    rcases mem_cons.mp hother with heq | hother
    · rw [heq]
      exact .refl
    · obtain ⟨root, hroot, hmem, hway⟩ := h.reached other hother
      exact (Within.refl.tail hroot (hsub hmem)).trans (hway.mono hsub)
  refine ⟨?_, ?_, ?_, ?_, ?_, ?_, ?_, ?_⟩
  · show id :: after.finished = _
    rw [h.finished]
    rfl
  · intro other
    show after.number.contains other ↔ _
    rw [h.entered, henter, mem_cons]
    tauto
  · intro other hother
    show after.number.contains other
    rw [h.entered, henter]
    exact .inl (.inr (mem_singleton.mp hother))
  · intro other hother
    rcases mem_cons.mp hother with heq | hother
    · rwa [heq]
    · by_contra hold
      have hentered := henter.mpr (.inl ((Bool.not_eq_false _).mp hold))
      rw [h.fresh other hother] at hentered
      cases hentered
  · refine nodup_cons.mpr ⟨fun hmem => ?_, h.nodup⟩
    have hentered : (walk.enter parent id).number.contains id := henter.mpr (.inr rfl)
    rw [h.fresh id hmem] at hentered
    cases hentered
  · intro other hother target htarget
    show after.number.contains target
    rcases mem_cons.mp hother with heq | hother
    · exact h.started target (heq ▸ htarget)
    · exact h.closed other hother target htarget
  · exact fun other hother => ⟨id, by simp, by simp, hbelow other hother⟩
  · intro x hx y hy hway
    by_cases hback : Within next (id :: new) x id
    · exact ⟨[], id, new, rfl, hy, hback, hbelow x hx⟩
    · -- no way from `x` leads to the node itself
      have hne : ∀ {z}, Within next (id :: new) x z → z ∈ id :: new → z ∈ new := by
        intro z hz hmem
        rcases mem_cons.mp hmem with heq | hmem
        · exact absurd (heq ▸ hz) hback
        · exact hmem
      have hinside : Within next new x y := by
        induction hway with
        | refl => exact .refl
        | @tail a b hfirst hstep ih =>
          exact (ih (Within.mem hfirst hx)).tail hstep.1
            (hne (Within.tail hfirst hstep.1 hstep.2) hstep.2)
      obtain ⟨front, z, back, hsplit, hz, hto, hfrom⟩ :=
        h.ordered x (hne .refl hx) y (hne hway hy) hinside
      exact ⟨id :: front, z, back, by simp [hsplit], hz, hto.mono hsub, hfrom.mono hsub⟩

end Leaves

/-! ### Searches that are deep enough -/

section Visit

variable {all : List NodeId} {depth : Nat}

/-- A walk that has entered more nodes leaves fewer of them. -/
theorem length_unentered_lt {id : NodeId} (hid : id ∈ all)
    (hmore : ∀ other, walk.number.contains other → after.number.contains other)
    (hnew : walk.number.contains id = false) (hentered : after.number.contains id) :
    (after.unentered all).length < (walk.unentered all).length := by
  have hsub : (after.unentered all).Sublist (walk.unentered all) :=
    monotone_filter_right _ fun other hother => by
      by_contra hold
      rw [hmore other (by simpa using hold)] at hother
      exact absurd hother (by simp)
  refine Nat.lt_of_le_of_ne hsub.length_le fun heq => ?_
  have hmem : id ∈ after.unentered all := by
    rw [hsub.eq_of_length heq]
    simp [unentered, hid, hnew]
  simp [unentered, hentered] at hmem

/-- Entering more leaves fewer to enter. -/
theorem length_unentered_le
    (hmore : ∀ other, walk.number.contains other → after.number.contains other) :
    (after.unentered all).length ≤ (walk.unentered all).length := by
  refine List.Sublist.length_le (monotone_filter_right _ fun other hother => ?_)
  by_contra hold
  rw [hmore other (by simpa using hold)] at hother
  exact absurd hother (by simp)

/-- Searching from several nodes, if a search from one is known. -/
theorem leaves_foldl (visit : Walk → NodeId → Walk)
    (hvisit : ∀ {walk id}, id ∈ all → (walk.unentered all).length ≤ depth →
      ∃ new, Leaves next walk [id] new (visit walk id))
    (hids : ∀ id ∈ ids, id ∈ all) (hdepth : (walk.unentered all).length ≤ depth) :
    ∃ new, Leaves next walk ids new (ids.foldl visit walk) := by
  induction ids generalizing walk with
  | nil => exact ⟨[], .nil (by simp)⟩
  | cons id rest ih =>
    obtain ⟨hid, hrest⟩ := forall_mem_cons.mp hids
    obtain ⟨new, hnew⟩ := hvisit hid hdepth
    have hle : ((visit walk id).unentered all).length ≤ (walk.unentered all).length :=
      length_unentered_le fun other hother => hnew.entered.mpr (.inl hother)
    obtain ⟨new', hnew'⟩ := ih hrest (Nat.le_trans hle hdepth)
    exact ⟨new' ++ new, hnew.trans hnew'⟩

/-- What a search that is deep enough leaves. -/
theorem leaves_visit (hclosed : ∀ id ∈ all, ∀ other ∈ next id, other ∈ all) {parent : Nat}
    {id : NodeId} (hid : id ∈ all) (hdepth : (walk.unentered all).length ≤ depth) :
    ∃ new, Leaves next walk [id] new (visit next depth parent walk id) := by
  induction depth generalizing parent walk id with
  | zero =>
    have hentered := contains_of_unentered_le_zero hid hdepth
    exact ⟨[], .nil (by simpa using hentered)⟩
  | succ depth ih =>
    rw [visit]
    by_cases hentered : walk.number.contains id
    · rw [if_pos hentered]
      exact ⟨[], .nil (by simpa using hentered)⟩
    rw [if_neg hentered]
    have hnew : walk.number.contains id = false := (Bool.not_eq_true _).mp hentered
    have hlt : ((walk.enter parent id).unentered all).length < (walk.unentered all).length :=
      length_unentered_lt hid
        (fun other hother => by simp [Walk.enter, Std.ExtTreeMap.contains_insert, hother]) hnew
        (by simp [Walk.enter])
    obtain ⟨new, hleaves⟩ := leaves_foldl (visit next depth walk.entered.size)
      (fun hmem hsmall => ih hmem hsmall) (hclosed id hid)
      (show ((walk.enter parent id).unentered all).length ≤ depth by omega)
    exact ⟨id :: new, hleaves.leave hnew⟩

end Visit

end Walk

end Flowgraph
