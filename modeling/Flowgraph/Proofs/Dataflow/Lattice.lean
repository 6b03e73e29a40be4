import Flowgraph.Dataflow.Basic
import Mathlib.Data.DFinsupp.WellFounded

/-!
# Facts that are met

`MeetLaws` is what the greatest solution needs of facts: the meet is that of a semilattice with a
greatest element, without infinite descent. Tables of facts have gaps, and `Lower` puts a gap above
all facts. A finite table can be lowered finitely many times (`MeetLaws.wellFounded_lowered`).
-/

namespace Flowgraph

open List

variable {φ : Type}

/-- A fact is at most another: it is their meet. -/
def Below (meet : φ → φ → φ) (x y : φ) : Prop :=
  meet x y = x

/-- The laws of a meet with a greatest fact and without infinite descent. -/
structure MeetLaws (top : φ) (meet : φ → φ → φ) : Prop where
  assoc : ∀ x y z, meet (meet x y) z = meet x (meet y z)
  comm : ∀ x y, meet x y = meet y x
  idem : ∀ x, meet x x = x
  top_meet : ∀ x, meet top x = x
  no_descent : ¬ ∃ chain : Nat → φ, ∀ k,
    Below meet (chain (k + 1)) (chain k) ∧ chain (k + 1) ≠ chain k

/-- A transfer function that keeps the order of facts. -/
def KeepsOrder (meet : φ → φ → φ) (transfer : φ → φ) : Prop :=
  ∀ {x y}, Below meet x y → Below meet (transfer x) (transfer y)

/-- An entry is at most another, where a gap is above all facts. -/
def Lower (meet : φ → φ → φ) : Option φ → Option φ → Prop
  | _, none => True
  | none, some _ => False
  | some x, some y => Below meet x y

/-- Blocks of statements pass. -/
theorem Node.checkStatements_eq_ok {id : NodeId} {children : List Node}
    (h : ∀ child ∈ children, child.kind.isStatement) :
    Node.checkStatements id children = .ok () := by
  have hnone : children.find? (fun child => !child.kind.isStatement) = none := by
    simpa [find?_eq_none] using h
  rw [Node.checkStatements, hnone]

/-- The entries of those keys that have one, in their order. -/
theorem map_filter_eq {κ : Type} {keys : List κ} {test : κ → Bool} {table : κ → Option φ}
    (h : ∀ key ∈ keys, test key = (table key).isSome) :
    (keys.filter test).map table = (keys.filterMap table).map some := by
  induction keys with
  | nil => rfl
  | cons key rest ih =>
    obtain ⟨hkey, hrest⟩ := forall_mem_cons.mp h
    rw [filter_cons, filterMap_cons, hkey]
    cases hentry : table key with
    | none => simpa using ih hrest
    | some fact => simpa [hentry] using ih hrest

namespace MeetLaws

variable {top : φ} {meet : φ → φ → φ} (laws : MeetLaws top meet) {x y z : φ} {facts facts' : List φ}
include laws

/-- The order is reflexive. -/
theorem refl (x : φ) : Below meet x x :=
  laws.idem x

/-- The order is transitive. -/
theorem trans (h : Below meet x y) (h' : Below meet y z) : Below meet x z := by
  unfold Below at *
  rw [← h, laws.assoc, h']

/-- The order is antisymmetric. -/
theorem antisymm (h : Below meet x y) (h' : Below meet y x) : x = y := by
  unfold Below at *
  rw [← h, laws.comm, h']

/-- All facts are below the top. -/
theorem below_top (x : φ) : Below meet x top := by
  unfold Below
  rw [laws.comm, laws.top_meet]

/-- The meet is the greatest fact below two. -/
theorem below_meet_iff : Below meet x (meet y z) ↔ Below meet x y ∧ Below meet x z := by
  have hleft : Below meet (meet y z) y := by
    unfold Below
    rw [laws.comm y z, laws.assoc, laws.idem]
  have hright : Below meet (meet y z) z := by
    unfold Below
    rw [laws.assoc, laws.idem]
  constructor
  · exact fun h => ⟨laws.trans h hleft, laws.trans h hright⟩
  · intro ⟨hy, hz⟩
    unfold Below at *
    rw [← laws.assoc, hy, hz]

/-- The meet of a list is the greatest fact below all of them. -/
theorem below_meetAll_iff :
    Below meet x (meetAll top meet facts) ↔ ∀ fact ∈ facts, Below meet x fact := by
  have hfold : ∀ (rest : List φ) (first : φ), Below meet x (rest.foldl meet first) ↔
      Below meet x first ∧ ∀ fact ∈ rest, Below meet x fact := by
    intro rest
    induction rest with
    | nil => simp
    | cons fact rest ih =>
      intro first
      rw [foldl_cons, ih, laws.below_meet_iff, forall_mem_cons, and_assoc]
  cases facts with
  | nil => simpa [meetAll] using laws.below_top x
  | cons fact rest => rw [meetAll, hfold, forall_mem_cons]

/-! ### Tables with gaps -/

/-- The order of entries is reflexive. -/
theorem lower_refl (x : Option φ) : Lower meet x x := by
  cases x with
  | none => trivial
  | some x => exact laws.refl x

/-- The order of entries is antisymmetric. -/
theorem lower_antisymm {x y : Option φ} (h : Lower meet x y) (h' : Lower meet y x) : x = y := by
  cases x <;> cases y <;> first | rfl | exact h.elim | exact h'.elim | skip
  exact congrArg some (laws.antisymm h h')

omit laws in
/-- The entries of a list that is lower fact by fact are lower. -/
theorem lower_getElem? (h : Forall₂ (Below meet) facts facts') (index : Nat) :
    Lower meet facts[index]? facts'[index]? := by
  induction h generalizing index with
  | nil => trivial
  | cons hfirst _ ih =>
    cases index with
    | zero => exact hfirst
    | succ index => exact ih index

/-- All lists are below the tops. -/
theorem forall₂_top (facts : List φ) :
    Forall₂ (Below meet) facts (List.replicate facts.length top) := by
  induction facts with
  | nil => exact .nil
  | cons fact rest ih => exact .cons (laws.below_top fact) ih

/-- The order of lists is transitive. -/
theorem forall₂_trans {facts'' : List φ} (h : Forall₂ (Below meet) facts facts')
    (h' : Forall₂ (Below meet) facts' facts'') : Forall₂ (Below meet) facts facts'' := by
  induction h generalizing facts'' with
  | nil => exact h'
  | cons hfirst _ ih =>
    cases h' with
    | cons hfirst' hrest' => exact .cons (laws.trans hfirst hfirst') (ih hrest')

/-- Lower tables have lower meets, because a gap says nothing. -/
theorem below_meetAll_filterMap {κ : Type} {keys : List κ} {table table' : κ → Option φ}
    (h : ∀ key ∈ keys, Lower meet (table key) (table' key)) :
    Below meet (meetAll top meet (keys.filterMap table))
      (meetAll top meet (keys.filterMap table')) := by
  refine laws.below_meetAll_iff.mpr fun fact hfact => ?_
  obtain ⟨key, hkey, hentry'⟩ := mem_filterMap.mp hfact
  have hlower := h key hkey
  rw [hentry'] at hlower
  cases hentry : table key with
  | none =>
    rw [hentry] at hlower
    exact hlower.elim
  | some other =>
    rw [hentry] at hlower
    have hmem : other ∈ keys.filterMap table := mem_filterMap.mpr ⟨key, hkey, hentry⟩
    exact laws.trans (laws.below_meetAll_iff.mp (laws.refl _) other hmem) hlower

/-- The order of facts. -/
@[reducible] def order : PartialOrder φ where
  le := Below meet
  le_refl := laws.refl
  le_trans _ _ _ := laws.trans
  le_antisymm _ _ := laws.antisymm

/-- Facts cannot sink forever. -/
theorem wellFounded_below : WellFounded fun x y => Below meet x y ∧ x ≠ y :=
  wellFounded_iff_isEmpty_descending_chain.mpr
    ⟨fun ⟨chain, hchain⟩ => laws.no_descent ⟨chain, hchain⟩⟩

/-- A table with finitely many entries cannot be lowered for ever. -/
theorem wellFounded_lowered (ι : Type) [Finite ι] : WellFounded fun table table' : ι → Option φ =>
    (∀ key, Lower meet (table key) (table' key)) ∧ table ≠ table' := by
  let _ := laws.order
  have _ : WellFoundedLT φ :=
    ⟨Subrelation.wf (fun h => ⟨le_of_lt h, ne_of_lt h⟩) laws.wellFounded_below⟩
  -- a gap is the greatest element of the order of entries
  have hle : ∀ {x y : Option φ}, Lower meet x y →
      (show WithTop φ from x) ≤ (show WithTop φ from y) := by
    intro x y h
    cases y with
    | none => exact (le_top : (show WithTop φ from x) ≤ ⊤)
    | some y =>
      cases x with
      | none => exact h.elim
      | some x => exact WithTop.coe_le_coe.mpr h
  have hwf : WellFounded fun table table' : ι → WithTop φ => table < table' := wellFounded_lt
  refine Subrelation.wf (fun {table table'} h => ?_) hwf
  exact lt_of_le_of_ne (fun key => hle (h.1 key)) h.2

omit laws in
/-- Truth values with disjunction as meet: truth is the least fact. -/
theorem or : MeetLaws false (· || ·) where
  assoc := by decide
  comm := by decide
  idem := by decide
  top_meet := by decide
  no_descent := by
    intro ⟨chain, hchain⟩
    -- a strict step down ends at truth, below which there is nothing
    have hfirst := hchain 0
    have hsecond := hchain 1
    unfold Below at hfirst hsecond
    revert hfirst hsecond
    cases chain 0 <;> cases chain 1 <;> cases chain 2 <;> simp

end MeetLaws

/-- A sequence that never rises is level from some point on. -/
theorem exists_level {τ : Type} {below : τ → τ → Prop} (hwf : WellFounded below) {states : Nat → τ}
    (hstep : ∀ k, states (k + 1) = states k ∨ below (states (k + 1)) (states k)) :
    ∃ settled, ∀ k ≥ settled, states k = states settled := by
  obtain ⟨least, ⟨settled, rfl⟩, hleast⟩ := hwf.has_min (Set.range states) ⟨states 0, 0, rfl⟩
  refine ⟨settled, fun k hk => ?_⟩
  induction k, hk using Nat.le_induction with
  | base => rfl
  | succ k _ ih =>
    rcases hstep k with hsame | hbelow
    · exact hsame.trans ih
    · exact absurd (ih ▸ hbelow) (hleast _ ⟨k + 1, rfl⟩)

end Flowgraph
