import Flowgraph.Proofs.Graph.DepthFirst

/-!
# Semidominators and immediate dominators

The theory behind the dominator tree, over the numbers of a depth-first search (`SearchTree`). A
path to a larger number passes through a common ancestor of its ends
(`SearchTree.exists_common_ancestor`), and a path that avoids an ancestor enters the tree path below
it over a semidominator above it (`SearchTree.exists_entry`). `SearchTree.isIdom_of_le` and
`SearchTree.isIdom_of_least` find immediate dominators.
-/

namespace Flowgraph

open Relation (ReflTransGen)

/-- The tree of a depth-first search from zero, and the edges. -/
structure SearchTree (size : Nat) (parent : Nat → Nat) (edge : Nat → Nat → Prop) : Prop where
  parent_le : ∀ v, parent v ≤ v
  parent_lt : ∀ {v}, 0 < v → v < size → parent v < v
  parent_edge : ∀ {v}, 0 < v → v < size → edge (parent v) v
  previous : ∀ {v}, 0 < v → v < size → Ancestor parent (parent v) (v - 1)
  forward : ∀ {u v}, edge u v → u < v → Ancestor parent u v
  bounded : ∀ {u v}, edge u v → u < size ∧ v < size

/-- A path leads from `v` to `w` over larger numbers than `w`. -/
def Semi (edge : Nat → Nat → Prop) (w v : Nat) : Prop :=
  ∃ x, ReflTransGen (fun a b => edge a b ∧ w < b) v x ∧ edge x w

/-- The least number that has such a path. -/
def IsSemidominator (edge : Nat → Nat → Prop) (w s : Nat) : Prop :=
  Semi edge w s ∧ ∀ v, Semi edge w v → s ≤ v

/-- A path leads from the root to a vertex without `d`. -/
def Bypass {V : Type} (edge : V → V → Prop) (root d w : V) : Prop :=
  root ≠ d ∧ ReflTransGen (fun a b => edge a b ∧ b ≠ d) root w

/-- Of the vertices other than `w` that no path to `w` avoids, `e` is the largest. -/
def IsIdom (edge : Nat → Nat → Prop) (w e : Nat) : Prop :=
  (e ≠ w ∧ ¬ Bypass edge 0 e w) ∧ ∀ d, d ≠ w → ¬ Bypass edge 0 d w → d ≤ e

namespace SearchTree

variable {size : Nat} {parent : Nat → Nat} {edge : Nat → Nat → Prop}

section Tree

variable (t : SearchTree size parent edge) {a b v d : Nat} {c w : Nat}
include t

/-- The vertices below an ancestor are numbered without a gap. -/
theorem ancestor_of_between (hac : Ancestor parent a c) (hc : c < size) (hab : a ≤ b)
    (hbc : b ≤ c) : Ancestor parent a b := by
  induction c with
  | zero =>
    obtain rfl : b = 0 := Nat.le_zero.mp hbc
    exact hac
  | succ c ih =>
    rcases Nat.lt_or_eq_of_le hbc with hlt | rfl
    · have hup := hac.parent_of_ne (by omega)
      exact ih (hup.trans (t.previous (Nat.succ_pos c) hc)) (by omega) (by omega)
    · exact hac

/-- Of two ancestors the smaller is an ancestor of the larger. -/
theorem ancestor_of_le (hac : Ancestor parent a c) (hbc : Ancestor parent b c) (hc : c < size)
    (hab : a ≤ b) : Ancestor parent a b :=
  t.ancestor_of_between hac hc hab (hbc.le t.parent_le)

/-- The root is an ancestor of all. -/
theorem ancestor_zero (hv : v < size) : Ancestor parent 0 v := by
  induction v using Nat.strongRecOn with
  | ind v ih =>
    rcases Nat.eq_zero_or_pos v with rfl | hpos
    · exact .refl
    · have hlt := t.parent_lt hpos hv
      exact (ih _ hlt (by omega)).step

/-- A path to a larger number passes through a common ancestor of its ends. `Q` holds of its
vertices. -/
theorem exists_common_ancestor {Q : Nat → Prop} (h : ReflTransGen (fun u v => edge u v ∧ Q v) a b)
    (ha : Q a) (hb : b < size) (hab : a ≤ b) :
    ∃ m, Q m ∧ Ancestor parent m a ∧ Ancestor parent m b := by
  induction h using ReflTransGen.head_induction_on with
  | refl => exact ⟨b, ha, .refl, .refl⟩
  | @head a c hstep _ ih =>
    obtain ⟨hedge, hc⟩ := hstep
    have hsize := (t.bounded hedge).2
    rcases Nat.lt_or_ge b c with hbc | hcb
    · -- the edge jumps over `b`, which is then below `a`
      have hac := t.forward hedge (by omega)
      exact ⟨a, ha, .refl, t.ancestor_of_between hac hsize hab (Nat.le_of_lt hbc)⟩
    · obtain ⟨m, hm, hmc, hmb⟩ := ih hc hcb
      have hle := hmc.le t.parent_le
      rcases Nat.lt_or_ge c a with hca | hac
      · exact ⟨m, hm, t.ancestor_of_between hmb hb (by omega) hab, hmb⟩
      · have hac : Ancestor parent a c := by
          rcases Nat.lt_or_eq_of_le hac with hlt | rfl
          · exact t.forward hedge hlt
          · exact .refl
        rcases Nat.le_total m a with hma | ham
        · exact ⟨m, hm, t.ancestor_of_le hmc hac hsize hma, hmb⟩
        · exact ⟨a, ha, .refl, (t.ancestor_of_le hac hmc hsize ham).trans hmb⟩

/-- The tree path down to a vertex passes through larger numbers. -/
theorem path_down (h : Ancestor parent a v) (hv : v < size) {P : Nat → Prop}
    (hP : ∀ b, a < b → P b) : ReflTransGen (fun u v => edge u v ∧ P v) a v := by
  induction h with
  | refl => exact .refl
  | @step v h ih =>
    rcases Nat.eq_zero_or_pos v with rfl | hpos
    · have hzero : parent 0 = 0 := Nat.le_zero.mp (t.parent_le 0)
      rw [hzero] at ih
      exact ih hv
    · have hlt := t.parent_lt hpos hv
      have hle := h.le t.parent_le
      exact (ih (by omega)).tail ⟨t.parent_edge hpos hv, hP v (by omega)⟩

/-- The tree path to a vertex avoids what is not an ancestor of it. -/
theorem path_avoiding (h : ¬ Ancestor parent d v) (hv : v < size) :
    ReflTransGen (fun a b => edge a b ∧ b ≠ d) 0 v := by
  induction v using Nat.strongRecOn with
  | ind v ih =>
    rcases Nat.eq_zero_or_pos v with rfl | hpos
    · exact .refl
    · have hlt := t.parent_lt hpos hv
      refine (ih _ hlt (fun hup => h hup.step) (by omega)).tail ⟨t.parent_edge hpos hv, ?_⟩
      rintro rfl
      exact h .refl

/-- What no path to a vertex avoids is an ancestor of it. -/
theorem ancestor_of_not_bypass (h : ¬ Bypass edge 0 d w) (hw : w < size) : Ancestor parent d w := by
  by_contra hnot
  refine h ⟨?_, t.path_avoiding hnot hw⟩
  rintro rfl
  exact hnot (t.ancestor_zero hw)

/-- Of two vertices that no path to `w` avoids, no path to the larger avoids the smaller. -/
theorem not_bypass_of_le {e : Nat} (hd : ¬ Bypass edge 0 d w) (he : ¬ Bypass edge 0 e w)
    (hde : d ≤ e) (hw : w < size) : ¬ Bypass edge 0 d e := by
  rintro ⟨hroot, hpath⟩
  rcases Nat.lt_or_eq_of_le hde with hlt | rfl
  · have hdown : ReflTransGen (fun a b => edge a b ∧ b ≠ d) e w :=
      t.path_down (t.ancestor_of_not_bypass he hw) hw fun b hb => by omega
    exact hd ⟨hroot, hpath.trans hdown⟩
  · cases hpath with
    | refl => exact hroot rfl
    | tail _ hlast => exact hlast.2 rfl

end Tree

/-! ### Semidominators -/

section Semi

variable {v w : Nat}

/-- An edge is a path of its own. -/
theorem semi_of_edge (h : edge v w) : Semi edge w v :=
  ⟨v, .refl, h⟩

variable (t : SearchTree size parent edge)
include t

/-- Candidates are nodes. -/
theorem semi_lt_size (h : Semi edge w v) : v < size := by
  obtain ⟨x, hpath, hlast⟩ := h
  cases hpath using ReflTransGen.head_induction_on with
  | refl => exact (t.bounded hlast).1
  | head hstep => exact (t.bounded hstep.1).1

/-- A smaller number with a path over larger ones is an ancestor. -/
theorem ancestor_of_semi (h : Semi edge w v) (hvw : v ≤ w) : Ancestor parent v w := by
  obtain ⟨x, hpath, hlast⟩ := h
  have hw := (t.bounded hlast).2
  have hwhole : ReflTransGen (fun a b => edge a b ∧ (b = v ∨ w ≤ b)) v w :=
    .tail (hpath.lift id fun _ _ h => ⟨h.1, .inr (Nat.le_of_lt h.2)⟩)
      ⟨hlast, .inr (Nat.le_refl w)⟩
  obtain ⟨m, hm, hmv, hmw⟩ := t.exists_common_ancestor hwhole (.inl rfl) hw hvw
  have hle := hmv.le t.parent_le
  obtain rfl : m = v := by omega
  exact hmw

/-- A path over larger numbers to a vertex below leads on to a smaller one. -/
theorem semi_of_below {s u : Nat} (hwu : w < u) (huv : Ancestor parent u v) (hvw : edge v w)
    (h : Semi edge u s) : Semi edge w s := by
  obtain ⟨x, hpath, hlast⟩ := h
  have hdown : ReflTransGen (fun a b => edge a b ∧ w < b) u v :=
    t.path_down huv (t.bounded hvw).1 fun b hb => by omega
  have hup : ReflTransGen (fun a b => edge a b ∧ w < b) s x :=
    hpath.lift id fun _ _ h => ⟨h.1, Nat.lt_trans hwu h.2⟩
  exact ⟨v, (hup.tail ⟨hlast, hwu⟩).trans hdown, hvw⟩

/-- A path over larger numbers has a first vertex above the last. -/
theorem semi_above {x : Nat} (h : ReflTransGen (fun a b => edge a b ∧ w < b) v x) (hx : x < size) :
    v = x ∨ ∃ u, w < u ∧ Ancestor parent u x ∧ Semi edge u v := by
  induction h using ReflTransGen.head_induction_on with
  | refl => exact .inl rfl
  | @head v c hstep _ ih =>
    obtain ⟨hedge, hc⟩ := hstep
    refine .inr ?_
    by_cases hcx : Ancestor parent c x
    · exact ⟨c, hc, hcx, semi_of_edge hedge⟩
    · rcases ih with rfl | ⟨u, hu, hux, hsemi⟩
      · exact absurd .refl hcx
      · refine ⟨u, hu, hux, ?_⟩
        -- `c` is larger than `u`: otherwise it would be an ancestor of `u` and so of `x`
        have huc : u < c := by
          by_contra hle
          exact hcx ((t.ancestor_of_semi hsemi (Nat.le_of_not_lt hle)).trans hux)
        obtain ⟨y, hpath, hlast⟩ := hsemi
        exact ⟨y, .head ⟨hedge, huc⟩ hpath, hlast⟩

/-- A path over larger numbers is an edge, or leads to an ancestor of a predecessor. -/
theorem semi_cases (h : Semi edge w v) :
    edge v w ∨ ∃ u x, w < u ∧ Ancestor parent u x ∧ edge x w ∧ Semi edge u v := by
  obtain ⟨x, hpath, hlast⟩ := h
  rcases t.semi_above hpath (t.bounded hlast).1 with rfl | ⟨u, hu, hux, hsemi⟩
  · exact .inl hlast
  · exact .inr ⟨u, x, hu, hux, hlast, hsemi⟩

end Semi

/-! ### Immediate dominators -/

section Idom

variable (t : SearchTree size parent edge) {a : Nat}
include t

/-- What no path avoids lies above every start of a path over larger numbers. -/
theorem ancestor_of_semi_of_not_bypass {d v w : Nat} (hdw : d ≠ w) (hd : ¬ Bypass edge 0 d w)
    (h : Semi edge w v) : Ancestor parent d v := by
  by_contra hnot
  have hv := t.semi_lt_size h
  obtain ⟨x, hpath, hlast⟩ := h
  have hdw' := (t.ancestor_of_not_bypass hd (t.bounded hlast).2).le t.parent_le
  refine hd ⟨?_, ?_⟩
  · rintro rfl
    exact hnot (t.ancestor_zero hv)
  · have hrest : ReflTransGen (fun a b => edge a b ∧ b ≠ d) v x :=
      hpath.lift id fun _ _ h => ⟨h.1, Nat.ne_of_gt (Nat.lt_of_le_of_lt hdw' h.2)⟩
    exact ((t.path_avoiding hnot hv).trans hrest).tail ⟨hlast, Ne.symm hdw⟩

/-- A path off the tree path from `a` to `w` that enters it at `y` has only larger numbers than `y`.
-/
theorem path_above_entry {w x y z : Nat} (haw : Ancestor parent a w) (hay : Ancestor parent a y)
    (hyw : Ancestor parent y w) (hw : w < size)
    (hpath : ReflTransGen
      (fun u v => edge u v ∧ a < v ∧ ¬ (Ancestor parent a v ∧ Ancestor parent v w)) x z)
    (hedge : edge z y) : ReflTransGen (fun u v => edge u v ∧ y < v) x z := by
  induction hpath using ReflTransGen.head_induction_on with
  | refl => exact .refl
  | @head x c hstep hrest ih =>
    obtain ⟨hxc, hc⟩ := hstep
    refine .head ⟨hxc, ?_⟩ ih
    by_contra hle
    have hwhole : ReflTransGen (fun u v => edge u v ∧
        ((a < v ∧ ¬ (Ancestor parent a v ∧ Ancestor parent v w)) ∨ v = y)) c y :=
      .tail (hrest.lift id fun _ _ h => ⟨h.1, .inl h.2⟩) ⟨hedge, .inr rfl⟩
    obtain ⟨m, hm, hmc, hmy⟩ := t.exists_common_ancestor hwhole (.inl hc) (t.bounded hedge).2
      (Nat.le_of_not_lt hle)
    rcases hm with ⟨ham, hoff⟩ | rfl
    · exact hoff ⟨t.ancestor_of_le haw (hmy.trans hyw) hw (Nat.le_of_lt ham), hmy.trans hyw⟩
    · obtain rfl : m = c := Nat.le_antisymm (hmc.le t.parent_le) (Nat.le_of_not_lt hle)
      exact hc.2 ⟨hay, hyw⟩

/-- A path that avoids an ancestor `a` of `w` enters the tree path below `a`, from a smaller number
and over larger ones. -/
theorem exists_entry {w : Nat} (haw : Ancestor parent a w) (hw : w < size) (h : Bypass edge 0 a w) :
    ∃ y x, x < a ∧ a < y ∧ Ancestor parent y w ∧ Semi edge y x := by
  by_contra hnone
  -- as long as the tree path is not entered, the path comes from a smaller number than `a`
  have hinv : ∀ z, ReflTransGen (fun u v => edge u v ∧ v ≠ a) 0 z →
      ∃ x < a, ReflTransGen
        (fun u v => edge u v ∧ a < v ∧ ¬ (Ancestor parent a v ∧ Ancestor parent v w)) x z := by
    intro z hz
    induction hz with
    | refl => exact ⟨0, Nat.pos_of_ne_zero (Ne.symm h.1), .refl⟩
    | @tail z y _ hstep ih =>
      obtain ⟨hedge, hya⟩ := hstep
      obtain ⟨x, hxa, hpath⟩ := ih
      rcases Nat.lt_or_gt_of_ne hya with hlt | hgt
      · exact ⟨y, hlt, .refl⟩
      by_cases hy : Ancestor parent a y ∧ Ancestor parent y w
      · have habove := t.path_above_entry haw hy.1 hy.2 hw hpath hedge
        exact absurd ⟨y, x, hxa, hgt, hy.2, z, habove, hedge⟩ hnone
      · exact ⟨x, hxa, hpath.tail ⟨hedge, hgt, hy⟩⟩
  obtain ⟨x, hxa, hpath⟩ := hinv w h.2
  have haw' := haw.le t.parent_le
  cases hpath with
  | refl => omega
  | tail _ hstep => exact hstep.2.2 ⟨haw, .refl⟩

variable {s w : Nat}

variable (hs : IsSemidominator edge w s) (hpos : 0 < w) (hw : w < size)
include hs hpos hw

/-- A semidominator is a proper ancestor. -/
theorem ancestor_of_isSemidominator : s < w ∧ Ancestor parent s w := by
  have hle := hs.2 _ (semi_of_edge (t.parent_edge hpos hw))
  have hlt := t.parent_lt hpos hw
  exact ⟨by omega, t.ancestor_of_semi hs.1 (by omega)⟩

/-- The semidominator is the immediate dominator if no vertex between has a smaller one. -/
theorem isIdom_of_le (hleast : ∀ u x, s < u → Ancestor parent u w → Semi edge u x → s ≤ x) :
    IsIdom edge w s := by
  obtain ⟨hlt, hsw⟩ := t.ancestor_of_isSemidominator hs hpos hw
  refine ⟨⟨Nat.ne_of_lt hlt, fun hbypass => ?_⟩, fun d hdw hd => ?_⟩
  · obtain ⟨y, x, hxs, hsy, hyw, hsemi⟩ := t.exists_entry hsw hw hbypass
    have := hleast y x hsy hyw hsemi
    omega
  · exact (t.ancestor_of_semi_of_not_bypass hdw hd hs.1).le t.parent_le

/-- Otherwise it is that of the vertex between with the smallest semidominator. -/
theorem isIdom_of_least {u r e : Nat} (hsu : s < u) (huw : Ancestor parent u w)
    (hr : IsSemidominator edge u r)
    (hleast : ∀ v x, s < v → Ancestor parent v w → Semi edge v x → r ≤ x) (he : IsIdom edge u e) :
    IsIdom edge w e := by
  obtain ⟨⟨heu, hedom⟩, hmax⟩ := he
  have huw' := huw.le t.parent_le
  have hu : u < size := by omega
  have heu' := t.ancestor_of_not_bypass hedom hu
  have hele := heu'.le t.parent_le
  obtain ⟨hlt, hsw⟩ := t.ancestor_of_isSemidominator hs hpos hw
  have her := (t.ancestor_of_semi_of_not_bypass heu hedom hr.1).le t.parent_le
  refine ⟨⟨by omega, fun hbypass => ?_⟩, fun d hdw hd => ?_⟩
  · obtain ⟨y, x, hxe, hey, hyw, hsemi⟩ := t.exists_entry (heu'.trans huw) hw hbypass
    rcases Nat.lt_or_ge s y with hsy | hys
    · have := hleast y x hsy hyw hsemi
      omega
    · -- the path enters above `u` already, and goes on to it down the tree
      have hyu : Ancestor parent y u :=
        t.ancestor_of_le hyw huw hw (by omega)
      obtain ⟨z, hpath, hlast⟩ := hsemi
      have hx : x < size := t.semi_lt_size ⟨z, hpath, hlast⟩
      have hxavoid : ¬ Ancestor parent e x := fun h => by
        have := h.le t.parent_le
        omega
      have hmiddle : ReflTransGen (fun a b => edge a b ∧ b ≠ e) x z :=
        hpath.lift id fun _ _ h => ⟨h.1, Nat.ne_of_gt (Nat.lt_trans hey h.2)⟩
      have hdown : ReflTransGen (fun a b => edge a b ∧ b ≠ e) y u :=
        t.path_down hyu hu fun b hb => by omega
      refine hedom ⟨hbypass.1, ?_⟩
      exact (((t.path_avoiding hxavoid hx).trans hmiddle).tail ⟨hlast, by omega⟩).trans hdown
  · have hds := (t.ancestor_of_semi_of_not_bypass hdw hd hs.1).le t.parent_le
    refine hmax d (by omega) fun hbypass => hd ⟨hbypass.1, hbypass.2.trans ?_⟩
    exact t.path_down huw hw fun b hb => by omega

end Idom

end SearchTree

end Flowgraph
