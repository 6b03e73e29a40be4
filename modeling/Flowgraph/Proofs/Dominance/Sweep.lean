import Flowgraph.Dominance.Tree
import Flowgraph.Proofs.Dominance.Forest
import Flowgraph.Proofs.Dominance.Semidominator
import Mathlib.Data.List.Induction

/-!
# The sweep finds immediate dominators

`Sweep.Swept` is the invariant: the vertices from `bound` on are linked, have their semidominator as
rank, and have the right verdict or wait in the bucket of their semidominator. `Sweep.process_spec`
is its step. A vertex leaves its bucket when the linked vertices above it are those between it and
its semidominator.
-/

namespace Flowgraph

open List

/-- Parents have lower numbers. -/
theorem SearchTree.descends {size : Nat} {parent : Nat → Nat} {edge : Nat → Nat → Prop}
    (t : SearchTree size parent edge) : Descends size parent :=
  ⟨t.parent_le, t.parent_lt⟩

namespace Sweep

variable {size : Nat} {parent : Nat → Nat} {edge : Nat → Nat → Prop} {w v : Nat} {start : Forest}
  {done : List Nat} {state : Forest × Nat} {sweep : Sweep} {buckets : Array (List Nat)} {q p : Nat}

/-- What a verdict says about the immediate dominator of a vertex. -/
def Right (edge : Nat → Nat → Prop) (v : Nat) : Verdict → Prop
  | .immediate d => IsIdom edge v d
  | .sameAs u => 0 < u ∧ u < v ∧ ∀ e, IsIdom edge u e → IsIdom edge v e

/-- A vertex waits in the bucket of its semidominator. -/
structure Waiting (parent : Nat → Nat) (bound size : Nat) (sweep : Sweep) (p v : Nat) : Prop where
  processed : bound ≤ v
  lt_size : v < size
  semi : sweep.forest.semiOf v = p
  child : ∀ {c}, parent c = p → Ancestor parent c v → c < bound

/-- What holds when all vertices from `bound` on were processed. -/
structure Swept (size : Nat) (parent : Nat → Nat) (edge : Nat → Nat → Prop) (bound : Nat)
    (sweep : Sweep) : Prop where
  forest : sweep.forest.Linked size parent bound
  semi : ∀ {v}, bound ≤ v → v < size → IsSemidominator edge v (sweep.forest.semiOf v)
  buckets_size : sweep.buckets.size = size
  verdicts_size : sweep.verdicts.size = size
  waiting : ∀ {p v}, v ∈ sweep.buckets.getD p [] → Waiting parent bound size sweep p v
  judged : ∀ {v}, bound ≤ v → v < size →
    v ∈ sweep.buckets.getD (sweep.forest.semiOf v) [] ∨
      ∃ verdict, sweep.verdicts[v]? = some verdict ∧ Right edge v verdict

/-- The sweep before its first step. -/
theorem swept_ofSize : Swept size parent edge size (.ofSize size) where
  forest := Forest.linked_ofSize
  semi h h' := absurd h' (Nat.not_lt.mpr h)
  buckets_size := by simp [ofSize]
  verdicts_size := by simp [ofSize]
  waiting {p v} hv := by
    by_cases hp : p < size <;> simp [ofSize, hp] at hv
  judged h h' := absurd h' (Nat.not_lt.mpr h)

/-! ### The semidominator of the next vertex -/

/-- The candidate for the semidominator of `w` after some predecessors. -/
structure Lowered (size : Nat) (parent : Nat → Nat) (edge : Nat → Nat → Prop) (w : Nat)
    (start : Forest) (done : List Nat) (state : Forest × Nat) : Prop where
  forest : state.1.Linked size parent (w + 1)
  semi_eq : state.1.semi = start.semi
  semi : Semi edge w state.2
  le_parent : state.2 ≤ parent w
  le_pred : ∀ v ∈ done, v ≤ w → state.2 ≤ v
  le_below : ∀ v ∈ done, w < v → ∀ u, w < u → Ancestor parent u v → state.2 ≤ start.semiOf u

/-- A further predecessor gives a candidate, and the smaller is kept. -/
theorem Lowered.keep {forest : Forest} {candidate : Nat}
    (h : Lowered size parent edge w start done state)
    (hforest : forest.Linked size parent (w + 1)) (hsame : forest.semi = start.semi)
    (hsemi : Semi edge w candidate) (hpred : v ≤ w → candidate ≤ v)
    (hbelow : w < v → ∀ u, w < u → Ancestor parent u v → candidate ≤ start.semiOf u) :
    Lowered size parent edge w start (done ++ [v]) (forest, min state.2 candidate) := by
  have hleft := Nat.min_le_left state.2 candidate
  have hright := Nat.min_le_right state.2 candidate
  refine ⟨hforest, hsame, ?_, Nat.le_trans hleft h.le_parent, fun x hx hxw => ?_,
    fun x hx hwx u hu hux => ?_⟩
  · rcases Nat.le_total state.2 candidate with hmin | hmin
    · simpa [hmin] using h.semi
    · simpa [hmin] using hsemi
  · rcases mem_append.mp hx with hx | hx
    · exact Nat.le_trans hleft (h.le_pred x hx hxw)
    · obtain rfl := mem_singleton.mp hx
      exact Nat.le_trans hright (hpred hxw)
  · rcases mem_append.mp hx with hx | hx
    · exact Nat.le_trans hleft (h.le_below x hx hwx u hu hux)
    · obtain rfl := mem_singleton.mp hx
      exact Nat.le_trans hright (hbelow hwx u hu hux)

section

variable (t : SearchTree size parent edge)
  (hsemi : ∀ {u}, w < u → u < size → Semi edge u (start.semiOf u))
  (h : Lowered size parent edge w start done state)
include t hsemi h

/-- One predecessor is taken into account. -/
theorem lower_spec (hedge : edge v w) :
    Lowered size parent edge w start (done ++ [v]) (lower w state v) := by
  unfold lower
  split
  · next hle =>
    exact h.keep h.forest h.semi_eq (SearchTree.semi_of_edge hedge) (fun _ => Nat.le_refl v)
      fun hlt => absurd hle (Nat.not_le.mpr hlt)
  · next hgt =>
    have hlt : w < v := Nat.lt_of_not_le hgt
    have hsize := (t.bounded hedge).1
    obtain ⟨hlinked, hsame, hbound, habove, hleast⟩ :=
      Forest.eval_spec t.descends h.forest hlt hsize
    simp only [Forest.semiOf_congr (hsame.trans h.semi_eq)]
    simp only [Forest.semiOf_congr h.semi_eq] at hleast
    have hbest : Semi edge w (start.semiOf (state.1.eval v).2) :=
      t.semi_of_below hbound habove hedge
        (hsemi hbound (Nat.lt_of_le_of_lt (habove.le t.parent_le) hsize))
    exact h.keep hlinked (hsame.trans h.semi_eq) hbest (fun hle => absurd hle hgt) fun _ => hleast

/-- All predecessors are taken into account. -/
theorem foldl_lower_spec {rest : List Nat} (hrest : ∀ v ∈ rest, edge v w) :
    Lowered size parent edge w start (done ++ rest) (rest.foldl (lower w) state) := by
  induction rest generalizing done state with
  | nil => simpa using h
  | cons v rest ih =>
    have hnext := lower_spec t hsemi h (hrest v mem_cons_self)
    have hlast := ih hnext fun u hu => hrest u (mem_cons_of_mem _ hu)
    simpa using hlast

end

/-- After all predecessors the candidate is the semidominator. -/
theorem Lowered.isSemidominator (t : SearchTree size parent edge)
    (h : Lowered size parent edge w start done state) (hpos : 0 < w) (hw : w < size)
    (hdone : ∀ v, edge v w → v ∈ done)
    (hstart : ∀ {u}, w < u → u < size → IsSemidominator edge u (start.semiOf u)) :
    IsSemidominator edge w state.2 := by
  refine ⟨h.semi, fun v hv => ?_⟩
  have hparent := h.le_parent
  have hlt := t.parent_lt hpos hw
  rcases t.semi_cases hv with hedge | ⟨u, x, hwu, hux, hedge, hsemi⟩
  · rcases Nat.le_total v w with hle | hle
    · exact h.le_pred v (hdone v hedge) hle
    · omega
  · have hle := hux.le t.parent_le
    have hx := (t.bounded hedge).1
    have hbelow := h.le_below x (hdone x hedge) (by omega) u hwu hux
    exact Nat.le_trans hbelow ((hstart hwu (by omega)).2 v hsemi)

/-! ### Verdicts -/

/-- When a vertex is judged all from `w` on are linked, `w` lies above it, and the parent of `w` is
its semidominator. -/
structure Ready (size : Nat) (parent : Nat → Nat) (w : Nat) (sweep : Sweep) (v : Nat) : Prop where
  lt_size : v < size
  above : Ancestor parent w v
  semi : sweep.forest.semiOf v = parent w

section

variable (t : SearchTree size parent edge)
include t

/-- Between a vertex and the parent of `w` are those from `w` on. -/
theorem le_of_parent_lt {u : Nat} (hv : v < size) (hwv : Ancestor parent w v)
    (huv : Ancestor parent u v) (hu : parent w < u) : w ≤ u := by
  by_contra hlt
  have huw := t.ancestor_of_le huv hwv hv (by omega)
  have := (huw.parent_of_ne (by omega)).le t.parent_le
  omega

/-- Verdicts are right. -/
theorem judge_right (hpos : 0 < w) (hforest : sweep.forest.Linked size parent w)
    (hsemi : ∀ {u}, w ≤ u → u < size → IsSemidominator edge u (sweep.forest.semiOf u))
    (hready : Ready size parent w sweep v) :
    Right edge v (if sweep.forest.semiOf (sweep.forest.eval v).2 = sweep.forest.semiOf v then
      .immediate (parent w) else .sameAs (sweep.forest.eval v).2) := by
  have hwv := hready.above.le t.parent_le
  have hv := hready.lt_size
  obtain ⟨-, -, hbound, habove, hleast⟩ := Forest.eval_spec t.descends hforest hwv hv
  generalize (sweep.forest.eval v).2 = y at hbound habove hleast
  have hyv := habove.le t.parent_le
  have hdom := hsemi hwv hv
  rw [hready.semi] at hdom
  have hlt := t.parent_lt hpos (Nat.lt_of_le_of_lt hwv hv)
  -- a path over larger numbers into a vertex in between starts at `y`'s semidominator or later
  have hrange : ∀ u x, parent w < u → Ancestor parent u v → Semi edge u x →
      sweep.forest.semiOf y ≤ x := by
    intro u x hu huv hx
    have hwu := le_of_parent_lt t hv hready.above huv hu
    have huv' := huv.le t.parent_le
    exact Nat.le_trans (hleast u hwu huv) ((hsemi hwu (by omega)).2 x hx)
  split
  · next heq =>
    rw [heq, hready.semi] at hrange
    exact t.isIdom_of_le hdom (by omega) hv hrange
  · next hne =>
    have hyne : y ≠ v := by
      rintro rfl
      exact hne rfl
    refine ⟨by omega, by omega, fun e he => ?_⟩
    exact t.isIdom_of_least hdom (by omega) hv (by omega) habove (hsemi hbound (by omega)) hrange he

/-- Judging a bucket gives right verdicts and changes nothing else that counts. -/
theorem foldl_judge_spec (hpos : 0 < w) {bucket : List Nat}
    (hready : ∀ v ∈ bucket, Ready size parent w sweep v)
    (hforest : sweep.forest.Linked size parent w)
    (hsemi : ∀ {u}, w ≤ u → u < size → IsSemidominator edge u (sweep.forest.semiOf u))
    (hsize : sweep.verdicts.size = size) : let after := bucket.foldl (judge (parent w)) sweep
    after.forest.Linked size parent w ∧ after.forest.semi = sweep.forest.semi ∧
      after.buckets = sweep.buckets ∧ after.verdicts.size = size ∧
      (∀ v ∈ bucket, ∃ verdict, after.verdicts[v]? = some verdict ∧ Right edge v verdict) ∧
      ∀ v, v ∉ bucket → after.verdicts[v]? = sweep.verdicts[v]? := by
  induction bucket generalizing sweep with
  | nil => exact ⟨hforest, rfl, rfl, hsize, by simp, fun _ _ => rfl⟩
  | cons v rest ih =>
    have hv := hready v mem_cons_self
    have hright := judge_right t hpos hforest hsemi hv
    obtain ⟨hlinked, hsame, -⟩ :=
      Forest.eval_spec t.descends hforest (hv.above.le t.parent_le) hv.lt_size
    have hrank := Forest.semiOf_congr hsame
    have hforest' : (judge (parent w) sweep v).forest = (sweep.forest.eval v).1 := rfl
    have hverdict : ∀ u, (judge (parent w) sweep v).verdicts[u]? =
        if v = u then some (if sweep.forest.semiOf (sweep.forest.eval v).2 =
          sweep.forest.semiOf v then .immediate (parent w) else .sameAs (sweep.forest.eval v).2)
        else sweep.verdicts[u]? := fun u => by
      simp only [judge, hrank, Array.getElem?_setIfInBounds, hsize, hv.lt_size, if_true]
    have hsize' : (judge (parent w) sweep v).verdicts.size = size := by simp [judge, hsize]
    have hready' : ∀ u ∈ rest, Ready size parent w (judge (parent w) sweep v) u := by
      intro u hu
      have := hready u (mem_cons_of_mem _ hu)
      exact ⟨this.lt_size, this.above, by rw [hforest', hrank]; exact this.semi⟩
    obtain ⟨hl, hs, hb, hn, hin, hout⟩ := ih hready' (hforest' ▸ hlinked)
      (fun hu hu' => by rw [hforest', hrank]; exact hsemi hu hu') hsize'
    refine ⟨hl, hs.trans hsame, hb, hn, ?_, ?_⟩
    · intro u hu
      by_cases hrest : u ∈ rest
      · exact hin u hrest
      · obtain rfl : u = v := by simpa [hrest] using hu
        exact ⟨_, (hout u hrest).trans (by rw [hverdict, if_pos rfl]), hright⟩
    · intro u hu
      simp only [mem_cons, not_or] at hu
      exact (hout u hu.2).trans (by rw [hverdict, if_neg (Ne.symm hu.1)])

/-! ### One vertex and all of them -/

/-- The way down from an ancestor begins with one of its children. -/
theorem exists_child {a : Nat} (h : Ancestor parent a v) (hlt : a < v) :
    ∃ c, a < c ∧ parent c = a ∧ Ancestor parent c v := by
  induction h with
  | refl => omega
  | @step v h ih =>
    rcases Nat.lt_or_eq_of_le (h.le t.parent_le) with hup | hup
    · obtain ⟨c, hac, hc, hcv⟩ := ih hup
      exact ⟨c, hac, hc, hcv.step⟩
    · exact ⟨v, hlt, hup.symm, .refl⟩

/-- A vertex that waits for the parent of the one just linked is ready. -/
theorem Waiting.above (h : Waiting parent (w + 1) size sweep (parent w) v)
    (hsemi : IsSemidominator edge v (sweep.forest.semiOf v)) : Ancestor parent w v := by
  have hv := h.processed
  rw [h.semi] at hsemi
  obtain ⟨hlt, hanc⟩ := t.ancestor_of_isSemidominator hsemi (by omega) h.lt_size
  obtain ⟨c, hc, hparent, hcv⟩ := exists_child t hanc hlt
  have hcw := h.child hparent hcv
  have hcw' := t.ancestor_of_between hcv h.lt_size (b := w) (by omega) (by omega)
  by_cases heq : c = w
  · exact heq ▸ hcv
  · have := (hcw'.parent_of_ne heq).le t.parent_le
    omega

end

/-- A bucket holds what was put into it. -/
theorem mem_getD_modify : v ∈ (buckets.modify q (· ++ [w])).getD p [] ↔
    (p = q ∧ q < buckets.size ∧ v = w) ∨ v ∈ buckets.getD p [] := by
  simp only [Array.getD_eq_getD_getElem?, Array.getElem?_modify]
  by_cases h : q = p
  · subst h
    by_cases hq : q < buckets.size <;> simp [hq, or_comm]
  · simp [h, Ne.symm h]

/-- Clearing empties one bucket. -/
theorem mem_getD_clear (hq : q < buckets.size) :
    v ∈ (buckets.setIfInBounds q []).getD p [] ↔ p ≠ q ∧ v ∈ buckets.getD p [] := by
  simp only [Array.getD_eq_getD_getElem?, Array.getElem?_setIfInBounds]
  by_cases h : q = p
  · subst h
    simp [hq]
  · simp [h, Ne.symm h]

/-- Linking sets one rank. -/
theorem Lowered.semiOf_link (h : Lowered size parent edge w start done state) (hw : w < size)
    (u : Nat) : ((state.1.setSemi w state.2).link (parent w) w).semiOf u =
      if w = u then state.2 else start.semiOf u := by
  rw [← Forest.semiOf_congr h.semi_eq]
  exact Forest.semiOf_setSemi state.1 w state.2 u (h.forest.semi_size ▸ hw)

/-- A vertex in another bucket goes on waiting. -/
theorem Waiting.next {after : Sweep} (h : Waiting parent (w + 1) size sweep p v) (hp : p ≠ parent w)
    (hsemi : after.forest.semiOf v = sweep.forest.semiOf v) : Waiting parent w size after p v := by
  refine ⟨Nat.le_of_lt h.processed, h.lt_size, hsemi.trans h.semi, fun hc hcv => ?_⟩
  refine Nat.lt_of_le_of_ne (Nat.le_of_lt_succ (h.child hc hcv)) ?_
  rintro rfl
  exact hp hc.symm

section

variable (t : SearchTree size parent edge)
include t

section

variable {predecessors : List Nat} (h : Swept size parent edge (w + 1) sweep) (hpos : 0 < w)
  (hw : w < size) (hpred : ∀ v, v ∈ predecessors ↔ edge v w)
include h hpos hw hpred

/-- Predecessors lower the parent to the semidominator. -/
theorem Swept.lowered :
    let state := predecessors.foldl (lower w) (sweep.forest, parent w)
    Lowered size parent edge w sweep.forest predecessors state ∧
      IsSemidominator edge w state.2 := by
  have hfirst : Lowered size parent edge w sweep.forest [] (sweep.forest, parent w) :=
    ⟨h.forest, rfl, SearchTree.semi_of_edge (t.parent_edge hpos hw), Nat.le_refl _, by simp,
      by simp⟩
  have hlowered := foldl_lower_spec t (fun hu hu' => (h.semi hu hu').1) hfirst
    (fun v hv => (hpred v).mp hv)
  exact ⟨hlowered, hlowered.isSemidominator t hpos hw (fun v hv => (hpred v).mpr hv)
    (fun hu hu' => h.semi hu hu')⟩

/-- Processing a vertex extends the invariant to it. -/
theorem process_spec : Swept size parent edge w (sweep.process w (parent w) predecessors) := by
  have hlt := t.parent_lt hpos hw
  obtain ⟨hlowered, hsemi⟩ := h.lowered t hpos hw hpred
  unfold process
  simp only
  generalize predecessors.foldl (lower w) (sweep.forest, parent w) = state at hlowered hsemi
  have hrank := hlowered.semiOf_link hw
  have hlinked := hlowered.forest.link t.descends state.2 hpos hw
  have hle := hlowered.le_parent
  obtain ⟨forest, s⟩ := state
  simp only at hrank hsemi hlinked hle ⊢
  have hsize : (sweep.buckets.modify s (· ++ [w])).size = size :=
    Array.size_modify.trans h.buckets_size
  have hbucket : ∀ {q v}, v ∈ (sweep.buckets.modify s (· ++ [w])).getD q [] ↔
      (q = s ∧ v = w) ∨ v ∈ sweep.buckets.getD q [] := by
    intro q v
    rw [mem_getD_modify, and_iff_right (show s < sweep.buckets.size by rw [h.buckets_size]; omega)]
  generalize (forest.setSemi w s).link (parent w) w = linked at hrank hlinked
  generalize sweep.buckets.modify s (· ++ [w]) = buckets at hsize hbucket
  have hpsize : parent w < buckets.size := by omega
  -- everything about the forest after the link, before any verdict
  have hsemi' : ∀ {u}, w ≤ u → u < size → IsSemidominator edge u (linked.semiOf u) := by
    intro u hu hu'
    rw [hrank]
    split
    · next heq => exact heq ▸ hsemi
    · exact h.semi (by omega) hu'
  have hready : ∀ v ∈ buckets.getD (parent w) [], Ready size parent w { sweep with
      forest := linked, buckets := buckets.setIfInBounds (parent w) [] } v := by
    intro v hv
    rcases hbucket.mp hv with ⟨hps, rfl⟩ | hv
    · exact ⟨hw, .refl, by rw [hrank, if_pos rfl, hps]⟩
    · have hwait := h.waiting hv
      have hne : w ≠ v := Nat.ne_of_lt hwait.processed
      exact ⟨hwait.lt_size, hwait.above t (h.semi hwait.processed hwait.lt_size),
        by rw [hrank, if_neg hne, hwait.semi]⟩
  obtain ⟨hl, hs, hb, hn, hin, hout⟩ :=
    foldl_judge_spec t hpos hready hlinked hsemi' h.verdicts_size
  generalize List.foldl (judge (parent w)) _ _ = after at hl hs hb hn hin hout
  have hrank' : ∀ u, after.forest.semiOf u = linked.semiOf u := Forest.semiOf_congr hs
  refine ⟨hl, fun hu hu' => hrank' _ ▸ hsemi' hu hu', ?_, hn, ?_, ?_⟩
  · rw [hb, Array.size_setIfInBounds, hsize]
  · intro q v hv
    rw [hb, mem_getD_clear hpsize, hbucket] at hv
    obtain ⟨hqp, hv⟩ := hv
    rcases hv with ⟨rfl, rfl⟩ | hv
    · refine ⟨Nat.le_refl _, hw, by rw [hrank', hrank, if_pos rfl], fun hc hcv => ?_⟩
      refine Nat.lt_of_le_of_ne (hcv.le t.parent_le) ?_
      rintro rfl
      exact hqp hc.symm
    · have hwait := h.waiting hv
      exact hwait.next hqp (by rw [hrank', hrank, if_neg (Nat.ne_of_lt hwait.processed)])
  · intro v hwv hv
    by_cases hbucketed : v ∈ buckets.getD (parent w) []
    · exact .inr (hin v hbucketed)
    rw [hb, mem_getD_clear hpsize, hbucket, hout v hbucketed, hrank', hrank]
    rw [hbucket] at hbucketed
    by_cases heq : w = v
    · subst heq
      refine .inl ⟨fun hsp => hbucketed (.inl ⟨?_, rfl⟩), .inl ⟨if_pos rfl, rfl⟩⟩
      rw [← hsp, if_pos rfl]
    · rw [if_neg heq]
      rcases h.judged (v := v) (by omega) hv with hwait | hdone
      · refine .inl ⟨fun hsp => hbucketed (.inr ?_), .inr hwait⟩
        rwa [← hsp]
      · exact .inr hdone

end

/-- In the end every vertex but the root has its verdict. -/
theorem processDown_spec {predecessors : Nat → List Nat}
    (hpred : ∀ {v w}, w < size → (v ∈ predecessors w ↔ edge v w)) {last : Nat}
    (h : Swept size parent edge (last + 1) sweep) (hlast : last < size) :
    Swept size parent edge 1 (processDown parent predecessors last sweep) := by
  induction last generalizing sweep with
  | zero => exact h
  | succ last ih =>
    rw [processDown]
    exact ih (process_spec t h (Nat.succ_pos _) hlast fun _ => hpred hlast) (by omega)

/-- At the end of the sweep no vertex waits. -/
theorem Swept.right (h : Swept size parent edge 1 sweep) (hpos : 0 < v) (hv : v < size) :
    ∃ verdict, sweep.verdicts[v]? = some verdict ∧ Right edge v verdict := by
  rcases h.judged hpos hv with hwait | hdone
  · have hwaiting := h.waiting hwait
    obtain ⟨hlt, hanc⟩ := t.ancestor_of_isSemidominator (h.semi hpos hv) hpos hv
    obtain ⟨c, hc, hparent, hcv⟩ := exists_child t hanc hlt
    have := hwaiting.child hparent hcv
    omega
  · exact hdone

end

/-- The number for a verdict, given those before. -/
def settle (found : Array Nat) : Verdict → Nat
  | .immediate d => d
  | .sameAs u => found.getD u 0

/-- One more verdict is settled. -/
theorem dominators_append (rest : List Verdict) (verdict : Verdict) :
    dominators (rest ++ [verdict]) =
      (dominators rest).push (settle (dominators rest) verdict) := by
  rw [dominators, foldl_append]
  cases verdict <;> rfl

/-- Every verdict is settled. -/
theorem size_dominators (verdicts : List Verdict) :
    (dominators verdicts).size = verdicts.length := by
  induction verdicts using List.reverseRecOn with
  | nil => rfl
  | append_singleton rest verdict ih => simp [dominators_append, ih]

/-- The last pass turns right verdicts into immediate dominators. -/
theorem dominators_spec {verdicts : List Verdict}
    (hright : ∀ v verdict, 0 < v → verdicts[v]? = some verdict → Right edge v verdict)
    (hpos : 0 < v) (hv : v < verdicts.length) : IsIdom edge v ((dominators verdicts).getD v 0) := by
  induction verdicts using List.reverseRecOn generalizing v with
  | nil => simp at hv
  | append_singleton rest verdict ih =>
    have hrest : ∀ {u}, 0 < u → u < rest.length → IsIdom edge u ((dominators rest).getD u 0) :=
      fun hu hlt => ih (fun u verdict hu h => hright u verdict hu <| by
        rw [getElem?_append_left (List.getElem?_eq_some_iff.mp h).1]
        exact h) hu hlt
    have hlast : (dominators (rest ++ [verdict])).getD v 0 =
        if v = rest.length then settle (dominators rest) verdict
        else (dominators rest).getD v 0 := by
      rw [dominators_append, Array.getD_eq_getD_getElem?, Array.getElem?_push,
        size_dominators]
      split
      · rfl
      · rw [Array.getD_eq_getD_getElem?]
    rw [hlast]
    split
    · next heq =>
      have hverdict := hright v verdict hpos (by simp [heq])
      cases verdict with
      | immediate d => exact hverdict
      | sameAs u =>
        obtain ⟨hu, hlt, hsame⟩ := hverdict
        exact hsame _ (hrest hu (heq ▸ hlt))
    · next hne => exact hrest hpos (by simp at hv; omega)

end Sweep

end Flowgraph
