import Flowgraph.Graph.DepthFirst
import Flowgraph.Proofs.Graph.Reach

/-!
# The tree of a depth-first search

The tree of parents, in terms of numbers: `Walk.Sane` holds between any two steps of a walk, and
`Walk.visit_spec` says what a search from one node adds. The parent of a vertex is an ancestor of
the one entered just before it, so the vertices below a vertex are numbered without a gap, and an
edge to a larger number leads down the tree.
-/

namespace Flowgraph

open List

/-- A vertex is an ancestor of itself and of every vertex whose parent it is an ancestor of. -/
inductive Ancestor (parent : Nat → Nat) (a : Nat) : Nat → Prop where
  | refl : Ancestor parent a a
  | step {v : Nat} : Ancestor parent a (parent v) → Ancestor parent a v

namespace Ancestor

variable {parent other : Nat → Nat} {a b c v : Nat}

/-- Ancestors of ancestors are ancestors. -/
theorem trans (hab : Ancestor parent a b) (hbc : Ancestor parent b c) : Ancestor parent a c := by
  induction hbc with
  | refl => exact hab
  | step _ ih => exact ih.step

/-- Ancestors have smaller numbers. -/
theorem le (hle : ∀ v, parent v ≤ v) (h : Ancestor parent a v) : a ≤ v := by
  induction h with
  | refl => exact Nat.le_refl _
  | step _ ih => exact Nat.le_trans ih (hle _)

/-- Other ancestors of a vertex are ancestors of its parent. -/
theorem parent_of_ne (h : Ancestor parent a v) (hne : a ≠ v) : Ancestor parent a (parent v) := by
  cases h with
  | refl => exact absurd rfl hne
  | step h => exact h

/-- Ancestors depend on the parents of smaller vertices only. -/
theorem congr {size : Nat} (hle : ∀ v, parent v ≤ v) (heq : ∀ v < size, other v = parent v)
    (h : Ancestor parent a v) (hv : v < size) : Ancestor other a v := by
  induction h with
  | refl => exact .refl
  | @step v _ ih =>
    apply Ancestor.step
    rw [heq v hv]
    exact ih (Nat.lt_of_le_of_lt (hle v) hv)

end Ancestor

namespace Walk

variable {parent : Nat} {id : NodeId} {first second : Walk}

/-! ### Entering and leaving -/

section Enter

variable (walk : Walk) (parent : Nat) (id : NodeId) (k : Nat)

/-- Entering adds one node. -/
@[simp] theorem size_enter : (walk.enter parent id).entered.size = walk.entered.size + 1 := by
  simp [enter]

/-- The node entered last has the next number. -/
theorem node_enter :
    (walk.enter parent id).node k = if k = walk.entered.size then id else walk.node k := by
  simp only [node, enter, Array.getD_eq_getD_getElem?, Array.getElem?_push]
  split <;> rfl

/-- The parent of the node entered last. -/
theorem parent_enter (h : walk.parents.size = walk.entered.size) :
    (walk.enter parent id).parent k = if k = walk.entered.size then parent else walk.parent k := by
  simp only [Walk.parent, enter, Array.getD_eq_getD_getElem?, Array.getElem?_push, h]
  split <;> rfl

/-- The number of the node entered last. -/
theorem number_enter (other : NodeId) :
    (walk.enter parent id).number[other]? =
      if id = other then some walk.entered.size else walk.number[other]? := by
  simp [enter, Std.ExtTreeMap.getElem?_insert]

/-- The entry at a number is its node. -/
theorem node_eq_of_getElem? {walk : Walk} {k : Nat} {id : NodeId}
    (h : walk.entered[k]? = some id) : walk.node k = id := by
  simp [node, Array.getD_eq_getD_getElem?, h]

/-- Every number given out has an entry. -/
theorem getElem?_of_lt {walk : Walk} {k : Nat} (h : k < walk.entered.size) :
    walk.entered[k]? = some (walk.node k) := by
  simp [node, h]

end Enter

/-! ### What holds between two steps -/

/-- Numbers and nodes correspond, and a vertex is a root and its own parent, or has an edge from its
parent, an ancestor of the vertex entered just before. -/
structure Sane (next : NodeId → List NodeId) (walk : Walk) : Prop where
  parents_size : walk.parents.size = walk.entered.size
  number_iff : ∀ {id : NodeId} {k : Nat}, walk.number[id]? = some k ↔ walk.entered[k]? = some id
  parent_le : ∀ k, walk.parent k ≤ k
  parent_edge : ∀ {k}, k < walk.entered.size → walk.parent k ≠ k →
    walk.node k ∈ next (walk.node (walk.parent k))
  previous : ∀ {k}, k < walk.entered.size → walk.parent k ≠ k →
    Ancestor walk.parent (walk.parent k) (k - 1)

/-- A walk goes on from another one. -/
structure Extends (first second : Walk) : Prop where
  size_le : first.entered.size ≤ second.entered.size
  node_eq : ∀ {k}, k < first.entered.size → second.node k = first.node k
  parent_eq : ∀ {k}, k < first.entered.size → second.parent k = first.parent k
  number_eq : ∀ {id : NodeId} {k : Nat}, first.number[id]? = some k → second.number[id]? = some k

/-- All successors of a vertex were entered, those after it below it. -/
def Explored (next : NodeId → List NodeId) (walk : Walk) (k : Nat) : Prop :=
  ∀ id ∈ next (walk.node k), ∃ j, walk.number[id]? = some j ∧ (k < j → Ancestor walk.parent k j)

variable {next : NodeId → List NodeId} {walk : Walk}

namespace Extends

/-- A walk extends itself. -/
theorem refl : Extends walk walk := ⟨Nat.le_refl _, fun _ => rfl, fun _ => rfl, id⟩

/-- Extensions compose. -/
theorem trans {third : Walk} (h : Extends first second) (h' : Extends second third) :
    Extends first third where
  size_le := Nat.le_trans h.size_le h'.size_le
  node_eq hk := (h'.node_eq (Nat.lt_of_lt_of_le hk h.size_le)).trans (h.node_eq hk)
  parent_eq hk := (h'.parent_eq (Nat.lt_of_lt_of_le hk h.size_le)).trans (h.parent_eq hk)
  number_eq hk := h'.number_eq (h.number_eq hk)

/-- Leaving a node extends a walk. -/
theorem leave (h : Extends first second) (id : NodeId) : Extends first (second.leave id) :=
  ⟨h.size_le, h.node_eq, h.parent_eq, h.number_eq⟩

/-- Extending a walk keeps ancestors. -/
theorem ancestor (h : Extends first second) (hsane : Sane next first) {a b : Nat}
    (hb : b < first.entered.size) (hab : Ancestor first.parent a b) : Ancestor second.parent a b :=
  hab.congr hsane.parent_le (fun _ hv => h.parent_eq hv) hb

end Extends

namespace Sane

variable {k : Nat}

/-- Numbers count the nodes entered. -/
theorem lt_of_number (h : Sane next walk) (hk : walk.number[id]? = some k) :
    k < walk.entered.size :=
  (Array.getElem?_eq_some_iff.mp (h.number_iff.mp hk)).1

/-- The number of a node leads back to it. -/
theorem node_of_number (h : Sane next walk) (hk : walk.number[id]? = some k) : walk.node k = id :=
  node_eq_of_getElem? (h.number_iff.mp hk)

/-- Every node entered has its number. -/
theorem number_node (h : Sane next walk) (hk : k < walk.entered.size) :
    walk.number[walk.node k]? = some k :=
  h.number_iff.mpr (getElem?_of_lt hk)

/-- The walk before its first step. -/
theorem empty : Sane next {} where
  parents_size := rfl
  number_iff := by simp
  parent_le := by simp [Walk.parent]
  parent_edge := by simp
  previous := by simp

/-- Leaving a node keeps a walk sane. -/
theorem leave (h : Sane next walk) (id : NodeId) : Sane next (walk.leave id) :=
  ⟨h.parents_size, h.number_iff, h.parent_le, h.parent_edge, h.previous⟩

end Sane

/-- A node is entered from nothing, or over an edge from an ancestor of the last vertex. -/
def MayEnter (next : NodeId → List NodeId) (walk : Walk) (parent : Nat) (id : NodeId) : Prop :=
  parent = walk.entered.size ∨
    (parent < walk.entered.size ∧ id ∈ next (walk.node parent) ∧
      Ancestor walk.parent parent (walk.entered.size - 1))

/-- The parent was entered before. -/
theorem MayEnter.le (h : MayEnter next walk parent id) : parent ≤ walk.entered.size := by
  rcases h with h | h
  · exact Nat.le_of_eq h
  · exact Nat.le_of_lt h.1

namespace Sane

/-- Entering a new node extends a walk. -/
theorem extends_enter (h : Sane next walk) (hnew : walk.number[id]? = none) (parent : Nat) :
    Extends walk (walk.enter parent id) where
  size_le := by simp
  node_eq hk := by rw [node_enter, if_neg (Nat.ne_of_lt hk)]
  parent_eq hk := by rw [parent_enter _ _ _ _ h.parents_size, if_neg (Nat.ne_of_lt hk)]
  number_eq {other k} hk := by
    rw [number_enter, if_neg, hk]
    rintro rfl
    simp [hnew] at hk

/-- Entering a new node keeps a walk sane. -/
theorem enter (h : Sane next walk) (hnew : walk.number[id]? = none)
    (hparent : MayEnter next walk parent id) : Sane next (walk.enter parent id) := by
  have hext : Extends walk (walk.enter parent id) := h.extends_enter hnew parent
  have hlast : (walk.enter parent id).parent walk.entered.size = parent := by
    rw [parent_enter _ _ _ _ h.parents_size, if_pos rfl]
  refine ⟨by simp [Walk.enter, h.parents_size], ?_, ?_, ?_, ?_⟩
  · intro other k
    rw [number_enter]
    by_cases hother : id = other
    · subst hother
      simp only [if_true, Walk.enter, Array.getElem?_push, Option.some.injEq]
      constructor
      · rintro rfl
        simp
      · intro hk
        by_contra hne
        rw [if_neg (Ne.symm hne)] at hk
        simp [h.number_iff.mpr hk] at hnew
    · rw [if_neg hother, h.number_iff]
      simp only [Walk.enter, Array.getElem?_push]
      by_cases hk : k = walk.entered.size
      · simp [hk, hother]
      · simp [hk]
  · intro k
    rw [parent_enter _ _ _ _ h.parents_size]
    split
    · next hk => exact hk ▸ hparent.le
    · exact h.parent_le k
  · intro k hk hroot
    rw [size_enter] at hk
    rcases Nat.lt_succ_iff_lt_or_eq.mp hk with hk | rfl
    · rw [hext.parent_eq hk] at hroot ⊢
      rw [hext.node_eq hk, hext.node_eq (Nat.lt_of_le_of_lt (h.parent_le k) hk)]
      exact h.parent_edge hk hroot
    · rw [hlast] at hroot ⊢
      rcases hparent with hparent | ⟨hlt, hedge, -⟩
      · exact absurd hparent hroot
      · rwa [hext.node_eq hlt, node_enter, if_pos rfl]
  · intro k hk hroot
    rw [size_enter] at hk
    rcases Nat.lt_succ_iff_lt_or_eq.mp hk with hk | rfl
    · rw [hext.parent_eq hk] at hroot ⊢
      exact hext.ancestor h (by omega) (h.previous hk hroot)
    · rw [hlast] at hroot ⊢
      rcases hparent with hparent | ⟨hlt, -, hancestor⟩
      · exact absurd hparent hroot
      · exact hext.ancestor h (by omega) hancestor

end Sane

/-- What was explored stays explored. -/
theorem Explored.extend {k : Nat} (h : Explored next first k) (hsane : Sane next first)
    (hext : Extends first second) (hk : k < first.entered.size) : Explored next second k := by
  intro id hid
  rw [hext.node_eq hk] at hid
  obtain ⟨j, hj, hbelow⟩ := h id hid
  exact ⟨j, hext.number_eq hj, fun hkj => hext.ancestor hsane (hsane.lt_of_number hj) (hbelow hkj)⟩

/-! ### What a search adds -/

/-- The nodes of a list that a walk has not entered. -/
def unentered (walk : Walk) (all : List NodeId) : List NodeId :=
  all.filter fun id => !walk.number.contains id

/-- Nodes entered are those with a number. -/
theorem contains_number : walk.number.contains id ↔ ∃ k, walk.number[id]? = some k := by
  rw [← Std.ExtTreeMap.isSome_getElem?_eq_contains, Option.isSome_iff_exists]

/-- Nodes not entered have no number. -/
theorem number_eq_none : walk.number.contains id = false ↔ walk.number[id]? = none := by
  rw [← Std.ExtTreeMap.isSome_getElem?_eq_contains]
  cases walk.number[id]? <;> simp

/-- Nodes entered stay entered. -/
theorem Extends.contains (h : Extends first second) (hid : first.number.contains id) :
    second.number.contains id := by
  obtain ⟨k, hk⟩ := contains_number.mp hid
  exact contains_number.mpr ⟨k, h.number_eq hk⟩

/-- A search as deep as the graph has slots is deep enough. -/
theorem length_unentered_le_size {α : Type} (walk : Walk) (g : Graph α) :
    (walk.unentered g.nodes).length ≤ g.slots.size :=
  calc (walk.unentered g.nodes).length
    _ ≤ g.nodes.length := length_filter_le ..
    _ ≤ (List.range g.slots.size).length := length_filter_le ..
    _ = g.slots.size := length_range

/-- A longer walk leaves fewer nodes. -/
theorem Extends.unentered_le (h : Extends first second) (all : List NodeId) :
    (second.unentered all).length ≤ (first.unentered all).length := by
  refine List.Sublist.length_le (monotone_filter_right _ fun id hid => ?_)
  by_contra hfirst
  rw [h.contains (by simpa using hfirst)] at hid
  exact absurd hid (by simp)

/-- In the end every node is entered. -/
theorem contains_of_unentered_le_zero {all : List NodeId} (hid : id ∈ all)
    (h : (walk.unentered all).length ≤ 0) : walk.number.contains id := by
  have hnone : walk.unentered all = [] := eq_nil_of_length_eq_zero (Nat.le_zero.mp h)
  simpa using filter_eq_nil_iff.mp hnone id hid

/-- Entering a node leaves at least one node less. -/
theorem unentered_enter_lt {all : List NodeId} (hid : id ∈ all) (hsane : Sane next walk)
    (hnew : walk.number[id]? = none) (parent : Nat) :
    ((walk.enter parent id).unentered all).length < (walk.unentered all).length := by
  have hle := (hsane.extends_enter hnew parent).unentered_le all
  refine Nat.lt_of_le_of_ne hle fun heq => ?_
  have hsub : ((walk.enter parent id).unentered all).Sublist (walk.unentered all) :=
    monotone_filter_right _ fun other hother => by
      by_contra hfirst
      rw [(hsane.extends_enter hnew parent).contains (by simpa using hfirst)] at hother
      exact absurd hother (by simp)
  have hmem : id ∈ (walk.enter parent id).unentered all := by
    rw [hsub.eq_of_length heq]
    simp [unentered, hid, number_eq_none.mpr hnew]
  have hentered : (walk.enter parent id).number.contains id :=
    contains_number.mpr ⟨_, by rw [number_enter, if_pos rfl]⟩
  simp [unentered, hentered] at hmem

/-- A search from a node enters it, and explores new vertices below `parent`. -/
structure Searched (next : NodeId → List NodeId) (walk : Walk) (parent : Nat) (ids : List NodeId)
    (after : Walk) : Prop where
  sane : Sane next after
  extend : Extends walk after
  entered : ∀ id ∈ ids, after.number.contains id
  below : ∀ {k}, walk.entered.size ≤ k → k < after.entered.size → Ancestor after.parent parent k
  explored : ∀ {k}, walk.entered.size ≤ k → k < after.entered.size → Explored next after k

/-- Nothing has to be done for nodes that were entered before. -/
theorem Searched.refl (hsane : Sane next walk) {ids : List NodeId}
    (hids : ∀ id ∈ ids, walk.number.contains id) : Searched next walk parent ids walk where
  sane := hsane
  extend := .refl
  entered := hids
  below h h' := absurd h' (Nat.not_lt.mpr h)
  explored h h' := absurd h' (Nat.not_lt.mpr h)

/-- Two searches from the same vertex, one after another. -/
theorem Searched.trans {first second : List NodeId} {middle after : Walk}
    (h : Searched next walk parent first middle) (h' : Searched next middle parent second after) :
    Searched next walk parent (first ++ second) after where
  sane := h'.sane
  extend := h.extend.trans h'.extend
  entered id hid := by
    rcases mem_append.mp hid with hid | hid
    · exact h'.extend.contains (h.entered id hid)
    · exact h'.entered id hid
  below {k} hk hk' := by
    by_cases hmiddle : k < middle.entered.size
    · exact h'.extend.ancestor h.sane hmiddle (h.below hk hmiddle)
    · exact h'.below (Nat.le_of_not_lt hmiddle) hk'
  explored {k} hk hk' := by
    by_cases hmiddle : k < middle.entered.size
    · exact (h.explored hk hmiddle).extend h.sane h'.extend hmiddle
    · exact h'.explored (Nat.le_of_not_lt hmiddle) hk'

section Visit

variable {all : List NodeId} {depth : Nat}

variable (hclosed : ∀ id ∈ all, ∀ other ∈ next id, other ∈ all)
include hclosed

/-- Searching from several successors, if one search is known. -/
theorem foldl_visit_spec
    (hvisit : ∀ {parent : Nat} {walk : Walk} {id : NodeId}, Sane next walk → id ∈ all →
      (walk.unentered all).length ≤ depth → MayEnter next walk parent id →
      Searched next walk parent [id] (visit next depth parent walk id)) {vertex : Nat}
    (ids : List NodeId) (hsane : Sane next walk) (hvertex : vertex < walk.entered.size)
    (hbelow : ∀ k, vertex ≤ k → k < walk.entered.size → Ancestor walk.parent vertex k)
    (hids : ∀ id ∈ ids, id ∈ next (walk.node vertex)) (hall : walk.node vertex ∈ all)
    (hdepth : (walk.unentered all).length ≤ depth) :
    Searched next walk vertex ids (ids.foldl (visit next depth vertex) walk) := by
  induction ids generalizing walk with
  | nil => exact .refl hsane (by simp)
  | cons id rest ih =>
    have hid : id ∈ next (walk.node vertex) := hids id mem_cons_self
    have hmay : MayEnter next walk vertex id :=
      .inr ⟨hvertex, hid, hbelow _ (by omega) (by omega)⟩
    have hfirst := hvisit hsane (hclosed _ hall id hid) hdepth hmay
    have hnode := hfirst.extend.node_eq hvertex
    refine hfirst.trans (ih hfirst.sane (Nat.lt_of_lt_of_le hvertex hfirst.extend.size_le)
      ?_ ?_ ?_ (Nat.le_trans (hfirst.extend.unentered_le all) hdepth))
    · intro k hk hk'
      by_cases hold : k < walk.entered.size
      · exact hfirst.extend.ancestor hsane hold (hbelow k hk hold)
      · exact hfirst.below (Nat.le_of_not_lt hold) hk'
    · exact fun other hother => hnode ▸ hids other (mem_cons_of_mem _ hother)
    · exact hnode ▸ hall

/-- A search that is deep enough for all nodes not entered. A new node gets the next number. -/
theorem visit_spec (hsane : Sane next walk) (hid : id ∈ all)
    (hdepth : (walk.unentered all).length ≤ depth) (hparent : MayEnter next walk parent id) :
    Searched next walk parent [id] (visit next depth parent walk id) ∧
      (walk.number.contains id = false →
        (visit next depth parent walk id).number[id]? = some walk.entered.size) := by
  induction depth generalizing parent walk id with
  | zero =>
    have hentered := contains_of_unentered_le_zero hid hdepth
    exact ⟨.refl hsane (by simpa using hentered), fun hnew => by simp [hnew] at hentered⟩
  | succ depth ih =>
    rw [visit]
    by_cases hentered : walk.number.contains id
    · rw [if_pos hentered]
      exact ⟨.refl hsane (by simpa using hentered), fun hnew => by simp [hnew] at hentered⟩
    rw [if_neg hentered]
    have hnew : walk.number[id]? = none := number_eq_none.mp ((Bool.not_eq_true _).mp hentered)
    have hext := hsane.extends_enter hnew parent
    have hsane' := hsane.enter hnew hparent
    have hnode : (walk.enter parent id).node walk.entered.size = id := by
      rw [node_enter, if_pos rfl]
    have hlast : (walk.enter parent id).parent walk.entered.size = parent := by
      rw [parent_enter _ _ _ _ hsane.parents_size, if_pos rfl]
    have hself : walk.entered.size < (walk.enter parent id).entered.size := by simp
    -- the vertex just entered is the only one from its own number on
    have hfold := foldl_visit_spec hclosed (fun h h' h'' => (ih h h' h'' ·|>.1))
      (next id) hsane' hself (by
        intro k hk hk'
        obtain rfl : k = walk.entered.size := by
          rw [size_enter] at hk'
          omega
        exact .refl)
      (by simp [hnode]) (by simpa [hnode] using hid)
      (by
        have hlt := unentered_enter_lt hid hsane hnew parent
        omega)
    generalize (next id).foldl (visit next depth walk.entered.size) (walk.enter parent id) = after
      at hfold
    have hsize : walk.entered.size < after.entered.size :=
      Nat.lt_of_lt_of_le hself hfold.extend.size_le
    have hbelow : ∀ {k}, walk.entered.size ≤ k → k < after.entered.size →
        Ancestor after.parent walk.entered.size k := by
      intro k hk hk'
      by_cases hkself : k = walk.entered.size
      · subst hkself
        exact .refl
      · exact hfold.below (by rw [size_enter]; omega) hk'
    have hnumber : after.number[id]? = some walk.entered.size :=
      hfold.extend.number_eq (by rw [number_enter, if_pos rfl])
    refine ⟨⟨hfold.sane.leave id, ?_, ?_, ?_, ?_⟩, fun _ => hnumber⟩
    · exact (hext.trans hfold.extend).leave id
    · intro other hother
      obtain rfl := mem_singleton.mp hother
      exact contains_number.mpr ⟨_, hnumber⟩
    · intro k hk hk'
      refine Ancestor.trans ?_ (hbelow hk hk')
      rcases hparent with hroot | ⟨hlt, -, -⟩
      · rw [hroot]
        exact .refl
      · apply Ancestor.step
        change Ancestor after.parent parent (after.parent walk.entered.size)
        rw [hfold.extend.parent_eq hself, hlast]
        exact .refl
    · intro k hk hk'
      by_cases hkself : k = walk.entered.size
      · subst hkself
        intro other hother
        change other ∈ next (after.node walk.entered.size) at hother
        rw [hfold.extend.node_eq hself, hnode] at hother
        obtain ⟨j, hj⟩ := contains_number.mp (hfold.entered other hother)
        exact ⟨j, hj, fun hlt => hbelow (Nat.le_of_lt hlt) (hfold.sane.lt_of_number hj)⟩
      · exact hfold.explored (by rw [size_enter]; omega) hk'

end Visit

end Walk

end Flowgraph
