import Flowgraph.Dominance.Forest
import Flowgraph.Proofs.Graph.DepthFirst

/-!
# Path compression is transparent

`Forest.Linked` describes the forest when all vertices from `bound` on are linked: the recorded
ancestor of a linked vertex may be any ancestor below which everything is linked, and the vertex
remembers the nearest one of least rank among those that it skips. A query then finds a vertex of
least rank among all linked ancestors (`Forest.eval_covers`). The tree only has to `Descends`.
-/

namespace Flowgraph

/-- Every vertex below `size` but the root has a smaller parent. -/
structure Descends (size : Nat) (parent : Nat → Nat) : Prop where
  parent_le : ∀ v, parent v ≤ v
  parent_lt : ∀ {v}, 0 < v → v < size → parent v < v

/-- Of two ancestors the smaller is an ancestor of the larger. -/
theorem Ancestor.of_le {parent : Nat → Nat} (hle : ∀ v, parent v ≤ v) {a b v : Nat}
    (ha : Ancestor parent a v) (hb : Ancestor parent b v) (hab : a ≤ b) : Ancestor parent a b := by
  induction hb with
  | refl => exact ha
  | @step v hb ih =>
    by_cases heq : a = v
    · have hup := hb.le hle
      have hdown := hle v
      obtain rfl : a = b := by omega
      exact .refl
    · exact ih (ha.parent_of_ne heq)

namespace Forest

variable {a v b : Nat}

/-! ### Reading after a change -/

/-- Equal arrays hold equal semidominators. -/
theorem semiOf_congr {forest other : Forest} (h : forest.semi = other.semi) (u : Nat) :
    forest.semiOf u = other.semiOf u := by
  rw [semiOf, h, ← semiOf]

section Reading

variable (forest : Forest) (v rank u : Nat)

/-- Setting one semidominator. -/
theorem semiOf_setSemi (hv : v < forest.semi.size) :
    (forest.setSemi v rank).semiOf u = if v = u then rank else forest.semiOf u := by
  simp only [semiOf, setSemi, Array.getD_eq_getD_getElem?, Array.getElem?_setIfInBounds]
  split
  · next h => simp [← h]
  · rfl

/-- Linking sets one ancestor. -/
theorem ancestor?_link (parent : Nat) (hv : v < forest.ancestor.size) :
    (forest.link parent v).ancestor? u = if v = u then some parent else forest.ancestor? u := by
  simp only [ancestor?, link, Array.getElem?_setIfInBounds]
  split
  · simp
  · rfl

/-- Skipping sets one ancestor. -/
theorem ancestor?_skip (a : Nat) (hv : v < forest.ancestor.size) :
    (forest.skip v a).ancestor? u = if v = u then forest.ancestor? a else forest.ancestor? u := by
  simp only [ancestor?, skip, Array.getElem?_setIfInBounds]
  split
  · simp
  · rfl

/-- Skipping takes the better label. -/
theorem bestOf_skip (a : Nat) (hv : v < forest.best.size) :
    (forest.skip v a).bestOf u =
      if v = u ∧ forest.semiOf (forest.bestOf a) < forest.semiOf (forest.bestOf v) then
        forest.bestOf a
      else forest.bestOf u := by
  by_cases hless : forest.semiOf (forest.bestOf a) < forest.semiOf (forest.bestOf v)
  · have hbest : (forest.skip v a).best = forest.best.setIfInBounds v (forest.bestOf a) :=
      if_pos hless
    by_cases h : v = u
    · subst h
      rw [if_pos ⟨rfl, hless⟩, bestOf, hbest]
      simp [hv]
    · simp [bestOf, hbest, h]
  · have hbest : (forest.skip v a).best = forest.best := if_neg hless
    rw [if_neg fun h => hless h.2, bestOf, hbest, bestOf]

end Reading

/-! ### Linked vertices -/

/-- Of the vertices below `a` down to `v`, all linked if those from `bound` on are, `b` is the
nearest to `v` with least rank. -/
structure Covers (forest : Forest) (parent : Nat → Nat) (bound a v b : Nat) : Prop where
  above : Ancestor parent a v
  lt : a < v
  inside : a < b ∧ Ancestor parent b v
  linked : ∀ {u}, a < u → Ancestor parent u v → bound ≤ u
  least : ∀ {u}, a < u → Ancestor parent u v → forest.semiOf b ≤ forest.semiOf u
  nearest : ∀ {u}, b < u → Ancestor parent u v → forest.semiOf b < forest.semiOf u

/-- The vertices from `bound` on are linked to ancestors, and remember a vertex of least rank among
those that they skip. -/
structure Linked (size : Nat) (parent : Nat → Nat) (bound : Nat) (forest : Forest) : Prop where
  semi_size : forest.semi.size = size
  ancestor_size : forest.ancestor.size = size
  best_size : forest.best.size = size
  root : ∀ {v}, v < bound → forest.ancestor? v = none ∧ forest.bestOf v = v
  linked : ∀ {v}, bound ≤ v → v < size →
    ∃ a, forest.ancestor? v = some a ∧ forest.Covers parent bound a v (forest.bestOf v)

variable {size bound : Nat} {parent : Nat → Nat} {forest : Forest}

/-- The forest before its first link. -/
theorem linked_ofSize : Linked size parent size (.ofSize size) where
  semi_size := by simp [ofSize]
  ancestor_size := by simp [ofSize]
  best_size := by simp [ofSize]
  root {v} hv := by simp [ofSize, ancestor?, bestOf, hv]
  linked h h' := absurd h' (Nat.not_lt.mpr h)

/-- Only the semidominators matter. -/
theorem Covers.of_semi {other : Forest} (h : forest.Covers parent bound a v b)
    (hsemi : other.semi = forest.semi) : other.Covers parent bound a v b :=
  ⟨h.above, h.lt, h.inside, h.linked, fun hu hv => by
    simpa only [semiOf, hsemi] using h.least hu hv, fun hu hv => by
    simpa only [semiOf, hsemi] using h.nearest hu hv⟩

namespace Linked

/-- A vertex without a recorded ancestor is not linked. -/
theorem lt_of_ancestor?_eq_none (h : Linked size parent bound forest) (hv : v < size)
    (hnone : forest.ancestor? v = none) : v < bound := by
  by_contra hle
  obtain ⟨a, ha, -⟩ := h.linked (Nat.le_of_not_lt hle) hv
  simp [hnone] at ha

/-- A vertex with a recorded ancestor is linked. -/
theorem le_of_ancestor?_eq_some (h : Linked size parent bound forest)
    (hsome : forest.ancestor? v = some a) : bound ≤ v := by
  by_contra hlt
  simp [(h.root (Nat.lt_of_not_le hlt)).1] at hsome

end Linked

/-- Two stretches, one above the other, are covered by the better answer. -/
theorem Covers.join (d : Descends size parent) {r c : Nat}
    (hupper : forest.Covers parent bound r a b) (hlower : forest.Covers parent bound a v c) :
    forest.Covers parent bound r v
      (if forest.semiOf b < forest.semiOf c then b else c) := by
  have hra := hupper.lt
  have hav := hlower.lt
  -- an ancestor of `v` that is not below `a` is one of `a`
  have hsplit : ∀ {u}, Ancestor parent u v → a < u ∨ Ancestor parent u a := by
    intro u hu
    rcases Nat.lt_or_ge a u with hlt | hge
    · exact .inl hlt
    · exact .inr (hu.of_le d.parent_le hlower.above hge)
  refine ⟨hupper.above.trans hlower.above, by omega, ?_, ?_, ?_, ?_⟩
  · split
    · exact ⟨hupper.inside.1, hupper.inside.2.trans hlower.above⟩
    · exact ⟨Nat.lt_trans hra hlower.inside.1, hlower.inside.2⟩
  · intro u hru huv
    rcases hsplit huv with hau | hua
    · exact hlower.linked hau huv
    · exact hupper.linked hru hua
  · intro u hru huv
    rcases hsplit huv with hau | hua
    · have := hlower.least hau huv
      split <;> omega
    · have := hupper.least hru hua
      split <;> omega
  · intro u hbu huv
    split at hbu
    · next hless =>
      rw [if_pos hless]
      rcases hsplit huv with hau | hua
      · exact Nat.lt_of_lt_of_le hless (hlower.least hau huv)
      · exact hupper.nearest hbu hua
    · next hless =>
      rw [if_neg hless]
      exact hlower.nearest hbu huv

section

variable (d : Descends size parent) (h : Linked size parent bound forest)
include d h

/-- Skipping an ancestor that is linked keeps the forest linked. -/
theorem Linked.skip (hv : v < size) (hva : forest.ancestor? v = some a) (ha : bound ≤ a) :
    Linked size parent bound (forest.skip v a) := by
  have hbv := h.le_of_ancestor?_eq_some hva
  obtain ⟨a', ha', hlower⟩ := h.linked hbv hv
  obtain rfl : a' = a := Option.some.inj (ha'.symm.trans hva)
  obtain ⟨r, hr, hupper⟩ := h.linked ha (Nat.lt_trans hlower.lt hv)
  have hsemi : (forest.skip v a').semi = forest.semi := rfl
  have hvanc : v < forest.ancestor.size := h.ancestor_size ▸ hv
  have hvbest : v < forest.best.size := h.best_size ▸ hv
  refine ⟨h.semi_size, ?_, ?_, ?_, ?_⟩
  · simp [Forest.skip, h.ancestor_size]
  · simp only [Forest.skip]
    split <;> simp [h.best_size]
  · intro u hu
    have hne : v ≠ u := by omega
    rw [ancestor?_skip _ _ _ _ hvanc, bestOf_skip _ _ _ _ hvbest]
    simpa [hne] using h.root hu
  · intro u hbu hu
    rw [ancestor?_skip _ _ _ _ hvanc, bestOf_skip _ _ _ _ hvbest]
    by_cases hvu : v = u
    · subst hvu
      refine ⟨r, by simpa using hr, ?_⟩
      simpa using (Covers.join d hupper hlower).of_semi hsemi
    · obtain ⟨b, hb, hcovers⟩ := h.linked hbu hu
      exact ⟨b, by simpa [hvu] using hb, by simpa [hvu] using hcovers.of_semi hsemi⟩

/-- Compression keeps the forest linked and changes no rank, and lets a vertex and its recorded
ancestor end at a root. Only vertices above it change. -/
theorem compress_spec {length : Nat} (hv : v < size) (hlength : v < length) :
    Linked size parent bound (compress length forest v) ∧
      (compress length forest v).semi = forest.semi ∧
      (∀ a, (compress length forest v).ancestor? v = some a → a < bound) ∧
      ∀ u, v < u → (compress length forest v).ancestor? u = forest.ancestor? u ∧
        (compress length forest v).bestOf u = forest.bestOf u := by
  induction length generalizing v with
  | zero => omega
  | succ length ih =>
    rw [compress]
    cases hva : forest.ancestor? v with
    | none => exact ⟨h, rfl, by simp [hva], fun _ _ => ⟨rfl, rfl⟩⟩
    | some a =>
      obtain ⟨a', ha', hcovers⟩ := h.linked (h.le_of_ancestor?_eq_some hva) hv
      obtain rfl : a' = a := Option.some.inj (ha'.symm.trans hva)
      have hlt := hcovers.lt
      simp only
      cases hroot : forest.ancestor? a' with
      | none =>
        refine ⟨h, rfl, ?_, fun _ _ => ⟨rfl, rfl⟩⟩
        intro b hb
        obtain rfl : a' = b := Option.some.inj (hva.symm.trans hb)
        exact h.lt_of_ancestor?_eq_none (by omega) hroot
      | some _ =>
        obtain ⟨hlinked, hsemi, hend, hframe⟩ := ih (v := a') (by omega) (by omega)
        simp only
        generalize compress length forest a' = upper at hlinked hsemi hend hframe
        have hstay : upper.ancestor? v = some a' := (hframe v hlt).1.trans hva
        have hvanc : v < upper.ancestor.size := hlinked.ancestor_size ▸ hv
        have hvbest : v < upper.best.size := hlinked.best_size ▸ hv
        refine ⟨hlinked.skip d hv hstay (h.le_of_ancestor?_eq_some hroot), hsemi, ?_, ?_⟩
        · intro b hb
          rw [ancestor?_skip _ _ _ _ hvanc, if_pos rfl] at hb
          exact hend b hb
        · intro u hu
          have hne : v ≠ u := by omega
          rw [ancestor?_skip _ _ _ _ hvanc, bestOf_skip _ _ _ _ hvbest]
          simpa [hne] using hframe u (by omega)

/-- A query keeps the forest linked and the ranks, and finds the nearest vertex of least rank on the
way to a root. -/
theorem eval_covers (hbv : bound ≤ v) (hv : v < size) :
    Linked size parent bound (forest.eval v).1 ∧ (forest.eval v).1.semi = forest.semi ∧
      ∃ a < bound, forest.Covers parent bound a v (forest.eval v).2 := by
  have hsize : v < forest.size := by simpa [Forest.size, h.ancestor_size] using hv
  obtain ⟨hlinked, hsemi, hend, -⟩ := compress_spec d h hv hsize
  simp only [eval]
  generalize compress forest.size forest v = compressed at hlinked hsemi hend
  obtain ⟨a, ha, hcovers⟩ := hlinked.linked hbv hv
  exact ⟨hlinked, hsemi, a, hend a ha, hcovers.of_semi hsemi.symm⟩

/-- A query finds a vertex of least rank among the linked ancestors. -/
theorem eval_spec (hbv : bound ≤ v) (hv : v < size) :
    Linked size parent bound (forest.eval v).1 ∧ (forest.eval v).1.semi = forest.semi ∧
      bound ≤ (forest.eval v).2 ∧ Ancestor parent (forest.eval v).2 v ∧
      ∀ u, bound ≤ u → Ancestor parent u v →
        forest.semiOf (forest.eval v).2 ≤ forest.semiOf u := by
  obtain ⟨hlinked, hsemi, a, ha, hcovers⟩ := eval_covers d h hbv hv
  exact ⟨hlinked, hsemi, hcovers.linked hcovers.inside.1 hcovers.inside.2, hcovers.inside.2,
    fun u hu huv => hcovers.least (by omega) huv⟩

end

/-- Linking the next vertex to its parent, after it got its rank. -/
theorem Linked.link (d : Descends size parent) (rank : Nat) (h : Linked size parent (v + 1) forest)
    (hpos : 0 < v) (hv : v < size) :
    Linked size parent v ((forest.setSemi v rank).link (parent v) v) := by
  have hlt := d.parent_lt hpos hv
  have hvanc : v < (forest.setSemi v rank).ancestor.size := h.ancestor_size ▸ hv
  have hvsemi : v < forest.semi.size := h.semi_size ▸ hv
  have hanc : ∀ u, ((forest.setSemi v rank).link (parent v) v).ancestor? u =
      if v = u then some (parent v) else forest.ancestor? u := fun u =>
    ancestor?_link _ v u (parent v) hvanc
  refine ⟨by simp [Forest.link, setSemi, h.semi_size],
    by simp [Forest.link, setSemi, h.ancestor_size], h.best_size, ?_, ?_⟩
  · intro u hu
    rw [hanc, if_neg (by omega)]
    exact h.root (by omega)
  · intro u hvu hu
    rw [hanc]
    by_cases heq : v = u
    · subst heq
      -- only the vertex itself lies below its parent on the way down to it
      have honly : ∀ {w}, parent v < w → Ancestor parent w v → w = v := by
        intro w hw hwv
        by_contra hne
        have := (hwv.parent_of_ne hne).le d.parent_le
        omega
      have hbest : ((forest.setSemi v rank).link (parent v) v).bestOf v = v :=
        (h.root (Nat.lt_succ_self v)).2
      refine ⟨parent v, if_pos rfl, .step .refl, hlt, by simp [hbest, hlt, Ancestor.refl],
        ?_, ?_, ?_⟩
      · intro w hw hwv
        exact Nat.le_of_eq (honly hw hwv).symm
      · intro w hw hwv
        exact Nat.le_of_eq (by rw [hbest, honly hw hwv])
      · intro w hw hwv
        rw [hbest] at hw
        exact absurd (hwv.le d.parent_le) (Nat.not_le.mpr hw)
    · obtain ⟨a, ha, hcovers⟩ := h.linked (by omega) hu
      have hvb := hcovers.linked hcovers.inside.1 hcovers.inside.2
      -- the new rank is that of a vertex above all those that were linked before
      have hsame : ∀ {w}, v < w →
          ((forest.setSemi v rank).link (parent v) v).semiOf w = forest.semiOf w := by
        intro w hw
        show (forest.setSemi v rank).semiOf w = forest.semiOf w
        rw [semiOf_setSemi _ _ _ _ hvsemi, if_neg (by omega)]
      refine ⟨a, by simpa [heq] using ha, hcovers.above, hcovers.lt, hcovers.inside, ?_, ?_, ?_⟩
      · intro w hw hwu
        exact Nat.le_of_succ_le (hcovers.linked hw hwu)
      · intro w hw hwu
        have hvw := hcovers.linked hw hwu
        rw [hsame hvw]
        exact Nat.le_trans (Nat.le_of_eq (hsame hvb)) (hcovers.least hw hwu)
      · intro w hw hwu
        have hvw : v < w := Nat.lt_trans hvb hw
        rw [hsame hvw]
        exact Nat.lt_of_le_of_lt (Nat.le_of_eq (hsame hvb)) (hcovers.nearest hw hwu)

end Forest

end Flowgraph
